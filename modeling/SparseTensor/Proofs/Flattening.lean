/-
# Flattening coordinates

Coordinates are flattened to the numbers of cells by a sum in 64 bits that is cut to 32 in the end.
For every shape this is an isomorphism of orders (`Shape.flattening`), whose inverse is the division
by the dimensions.

Flattening is right for coordinates that fit only, and nothing checks it where it is done.
`Forest.Flattens` lists the places where the program does it.  At each of them the coordinates have
been checked before, so no product and no sum leaves 64 bits, and the cut loses nothing
(`Forest.Flattens.exact`).
-/
import Mathlib.Order.RelIso.Basic
import SparseTensor.Proofs.Streams
import SparseTensor.Proofs.Answers

namespace SparseTensor

namespace Shape

/-! ## An isomorphism of orders -/

/-- Coordinates that fit a shape, in the order of their first difference, are the cells of the
shape, in the order of their numbers. -/
def flattening (s : Shape) :
    RelIso (fun p q : {p // Fits p s.dims} => p.1 < q.1)
      (fun c d : {c : Cell // c.toNat < s.size} => c.1 < d.1) where
  toFun p := ⟨s.ravel p.1, toNat_ravel_lt p.2⟩
  invFun c := ⟨s.unravel c.1, s.fits_unravel c.1⟩
  left_inv p := Subtype.ext (unravel_ravel p.2)
  right_inv c := Subtype.ext (ravel_unravel c.2)
  map_rel_iff' {p q} := by
    show s.ravel p.1 < s.ravel q.1 ↔ p.1 < q.1
    rw [← unravel_lt_unravel_iff (toNat_ravel_lt p.2) (toNat_ravel_lt q.2), unravel_ravel p.2,
      unravel_ravel q.2]

/-! ## Machine words -/

/-- The sum over some coordinates is formed without loss. -/
structure RavelsExactly (s : Shape) (coords : List UInt32) : Prop where
  /-- No product and no sum on the way leaves 64 bits. -/
  steps : ∀ front i d, front ++ [(i, d)] <+: coords.zip s.dims →
    (front.foldl ravelStep 0).toNat * d.toNat + i.toNat < UInt64.size
  /-- The result is not changed by the cut to 32 bits. -/
  cut : (s.ravel coords).toNat = ((coords.zip s.dims).foldl ravelStep 0).toNat

/-- Each step over coordinates that fit stays within 32 bits, by induction on what is still to
come. -/
theorem ravelStep_lt {coords dims : List UInt32} (fits : Fits coords dims) {flat : UInt64}
    (h : (flat.toNat + 1) * product dims ≤ UInt32.size) {front : List (UInt32 × UInt32)}
    {i d : UInt32} (before : front ++ [(i, d)] <+: coords.zip dims) :
    (front.foldl ravelStep flat).toNat * d.toNat + i.toNat < UInt32.size := by
  induction fits generalizing flat front with
  | nil => simp at before
  | @cons j e coords dims hj fits ih =>
      have hpos : 0 < product dims := Nat.lt_of_le_of_lt (Nat.zero_le _) (number_lt_product fits)
      obtain ⟨inside, hstep, hnext⟩ := toNat_ravelStep hj hpos h
      rw [List.zip_cons_cons] at before
      cases front with
      | nil =>
          cases (List.cons_prefix_cons.1 before).1
          exact inside
      | cons pair front =>
          obtain ⟨rfl, behind⟩ := List.cons_prefix_cons.1 before
          have room : ((ravelStep flat (j, e)).toNat + 1) * product dims ≤ UInt32.size := by
            rw [hstep]
            exact hnext
          exact ih room behind

/-- Coordinates that fit are summed without loss. -/
theorem ravelsExactly_of_fits {s : Shape} {coords : List UInt32} (fits : Fits coords s.dims) :
    s.RavelsExactly coords := by
  have start : ((0 : UInt64).toNat + 1) * product s.dims ≤ UInt32.size := by
    simpa using Nat.le_of_lt s.bounded
  constructor
  · intro front i d before
    exact Nat.lt_trans (ravelStep_lt fits start before) (by decide)
  · rw [toNat_ravel fits, toNat_foldl_ravelStep fits 0 start]
    simp

end Shape

/-! ## Where coordinates are flattened -/

variable {α : Type}

/-- Coordinates that are flattened in a forest. -/
inductive Forest.Flattens (f : Forest α) : Shape → List UInt32 → Prop
  /-- Those of the cell that is asked for, once they have been checked. -/
  | asked {id : NodeId} {n : Node α} {coords : List UInt32} : f.available? id = some n →
    n.shape.checkCoordinates coords = .ok () → Flattens f n.shape coords
  /-- Those in lists that are to be stored, to look for cells that are named twice. -/
  | looked {shape : Shape} {coords : Coordinates} {p : List UInt32} : coords.length = shape.rank →
    Coordinates.checkLists coords.count (coords.zip shape.dims) = .ok () → p ∈ coords.points →
      Flattens f shape p
  /-- Those in lists that are to be stored, to put them in order. -/
  | ordered {shape : Shape} {coords : Coordinates} {p : List UInt32} :
    Coordinates.check shape coords = .ok () → p ∈ coords.points → Flattens f shape p
  /-- Those in lists that a node holds, to derive its cells. -/
  | derived {g : Forest α} {id : NodeId} {n : Node α} {coords : Coordinates} {p : List UInt32} :
    f.Reads g → g.nodes[id]? = some n → n.cache.coordinates = some coords → p ∈ coords.points →
      Flattens f n.shape p

/-- Coordinates that are admitted fit. -/
theorem Shape.fits_of_checkCoordinates {s : Shape} {coords : List UInt32}
    (h : s.checkCoordinates coords = .ok ()) : Fits coords s.dims := by
  unfold checkCoordinates at h
  split at h
  · cases h
  · rename_i rank
    split at h
    · cases h
    · rename_i none
      refine List.forall₂_iff_zip.2 ⟨not_not.1 rank, fun {i d} hmem => ?_⟩
      have inside := List.find?_eq_none.1 none (i, d) hmem
      exact UInt32.not_le.1 (by simpa using inside)

namespace Forest

variable {f : Forest α} {shape : Shape} {coords : List UInt32}

/-- Coordinates fit wherever they are flattened. -/
theorem Flattens.fits (h : f.Flattens shape coords) (sound : f.Sound) :
    Fits coords shape.dims := by
  cases h with
  | asked _ checked => exact Shape.fits_of_checkCoordinates checked
  | looked rank checked hp =>
      exact ((Coordinates.checkLists_eq_ok_iff_inBounds rank).1 checked).fits _ hp
  | ordered checked hp => exact Coordinates.fits_of_check checked _ hp
  | derived reads found held hp =>
      rw [((reads.sound sound).holds found).coordinates _ held, Coordinates.points_ofSparse] at hp
      obtain ⟨c, -, rfl⟩ := List.mem_map.1 hp
      exact Shape.fits_unravel _ c

/-- Flattening is exact wherever it is done. -/
theorem Flattens.exact (h : f.Flattens shape coords) (sound : f.Sound) :
    shape.RavelsExactly coords :=
  Shape.ravelsExactly_of_fits (h.fits sound)

end Forest

/-! ## Encodings of one node -/

/-- The bit at the number of a cell tells whether the cell is in the set. -/
theorem Dense.getElem?_ofSparse_toNat {size : Nat} {cells : Sparse} {c : Cell}
    (h : c.toNat < size) : (ofSparse size cells)[c.toNat]? = some (decide (c ∈ cells)) := by
  rw [getElem?_ofSparse cells h]
  simp [UInt32.toNat_inj]

/-- Coordinates that fit are among those of a set exactly if their cell is in it. -/
theorem Coordinates.mem_points_ofSparse_iff {shape : Shape} {cells : Sparse}
    (set : Sparse.IsSet shape.size cells) {p : List UInt32} (fits : Fits p shape.dims) :
    p ∈ (ofSparse shape cells).points ↔ shape.ravel p ∈ cells := by
  rw [points_ofSparse, List.mem_map]
  constructor
  · rintro ⟨c, hc, rfl⟩
    rwa [Shape.ravel_unravel (set.bounded c hc)]
  · intro hc
    exact ⟨_, hc, Shape.unravel_ravel fits⟩

/-- The coordinates that fit a shape, in the order of their first difference, are the numbers below
its size: they are ravelled and unravelled, and so are the coordinate lists of any cells.  Wherever
the program ravels coordinates, no product or sum overflows and the cut to 32 bits loses nothing.
So a live node tells of each cell the same by its coordinates, by its bit, and by the coordinate
lists. -/
theorem flattening_is_exact {s : Situation α}
    (reached : Reached (G := Generator) (fun _ _ => True) s) :
    (∀ shape : Shape,
      (∃ e : RelIso (fun p q : {p // Fits p shape.dims} => p.1 < q.1)
          (fun c d : {c : Cell // c.toNat < shape.size} => c.1 < d.1),
        (∀ p, (e p).1 = shape.ravel p.1) ∧ ∀ c, (e.symm c).1 = shape.unravel c.1) ∧
      ∀ cells, (Coordinates.ofSparse shape cells).points = cells.map shape.unravel) ∧
    (∀ shape coords, s.forest.Flattens shape coords → shape.RavelsExactly coords) ∧
    ∀ id n, (Item.node id).Live s → s.forest.available? id = some n →
      ∀ p, Fits p n.shape.dims → ∃ b bits coords,
        s.forest.Answers (Forest.isActive id p) b ∧ s.forest.Answers (Forest.dense id) bits ∧
          s.forest.Answers (Forest.coordinates id) coords ∧
            bits[(n.shape.ravel p).toNat]? = some b ∧ (b = true ↔ p ∈ coords.points) := by
  have sound : s.forest.Sound := reached.ordered.forest.sound
  refine ⟨fun shape => ⟨⟨shape.flattening, fun _ => rfl, fun _ => rfl⟩,
    Coordinates.points_ofSparse shape⟩, fun shape coords flattens => flattens.exact sound, ?_⟩
  intro id n live found p fits
  obtain ⟨v, has⟩ := live.exists_has reached
  cases has with
  | @node _ _ cells found' shows =>
      cases found.symm.trans found'
      have set : Sparse.IsSet n.shape.size cells :=
        Forest.isSet_shown sound (Option.filter_eq_some_iff.1 found).1 shows
      refine ⟨_, _, _, Forest.answers_isActive sound found shows rfl fits,
        Forest.answers_read sound found shows Cache.renders_readDense,
        Forest.answers_read sound found shows Cache.renders_readCoordinates, ?_, ?_⟩
      · exact Dense.getElem?_ofSparse_toNat (Shape.toNat_ravel_lt fits)
      · rw [decide_eq_true_iff, Coordinates.mem_points_ofSparse_iff set fits]

/-- A cell of a view that has not read its parent yet. -/
theorem flattening_is_exact_for_view :
    ∃ f : Forest Unit, Reached (G := Generator) (fun _ _ => True) (.quiet f) ∧
      (Item.node 1).Live (.quiet f) ∧ ∃ bits coords,
        f.Answers (Forest.isActive 1 [1, 0]) true ∧ f.Answers (Forest.dense 1) bits ∧
          f.Answers (Forest.coordinates 1) coords ∧
            bits[2]? = some true ∧ [1, 0] ∈ coords.points := by
  obtain ⟨f, reached, -, live, has⟩ := exists_stale_view
  let square : Shape := ⟨[2, 2], by decide, by simp, by decide⟩
  have fits : Fits [1, 0] square.dims := .cons (by decide) (.cons (by decide) .nil)
  generalize same : Value.node ⟨square, [1, 2]⟩ = v at has
  cases has with
  | @node _ n cells found shows =>
      injection same with same
      have shape : n.shape = square := (congrArg Snapshot.shape same).symm
      obtain rfl : [1, 2] = cells := congrArg Snapshot.cells same
      obtain ⟨b, bits, coords, active, dense, lists, bit, member⟩ :=
        (flattening_is_exact reached).2.2 1 n live found [1, 0] (shape ▸ fits)
      obtain rfl : b = true := active.unique
        (Forest.answers_isActive reached.ordered.forest.sound found shows shape fits)
      rw [shape] at bit
      exact ⟨f, reached, live, bits, coords, active, dense, lists, bit, member.1 rfl⟩

end SparseTensor
