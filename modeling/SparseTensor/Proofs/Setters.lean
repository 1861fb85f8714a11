/-
# Setters

A canonical node takes a value in any of three encodings.  The check of each encoding looks at
entries, but what it admits are the encodings of sets: one bit for every cell
(`Dense.ofBytes_eq_ok_iff`), the cells in ascending order (`Sparse.check_eq_ok_iff`), or coordinate
lists in which no cell stands twice (`Coordinates.check_eq_ok_iff_nodup`).  A list of cells that is
refused is blamed for the first cell at which it ceases to be a set (`Sparse.check_eq_error_iff`).

A node that took an encoding of a set is read as that set in every encoding (`Readings.Denotes`).
Coordinate lists may name its cells in any order: what counts are the columns, and another order of
the columns has the same numbers once they are sorted.
-/
import Mathlib.Data.List.GetD
import SparseTensor.Proofs.Answers

namespace SparseTensor

/-! ## Bits -/

/-- Bytes are admitted when there is one for each cell and all of them are zero or one. -/
theorem Dense.ofBytes_eq_ok_iff {size : Nat} {bytes : List UInt8} {d : Dense} :
    ofBytes size bytes = .ok d ↔ (bytes.length = size ∧ ∀ b ∈ bytes, b = 0 ∨ b = 1) ∧
      d = (bytes.map (· == 1)).toArray := by
  have small (b : UInt8) : ¬ 1 < b ↔ b = 0 ∨ b = 1 := by
    rw [UInt8.not_lt, UInt8.le_iff_toNat_le, ← UInt8.toNat_inj, ← UInt8.toNat_inj]
    show b.toNat ≤ 1 ↔ b.toNat = 0 ∨ b.toNat = 1
    omega
  unfold ofBytes
  -- the length is checked first, then the first entry that is neither zero nor one
  split
  · rename_i other
    constructor
    · intro h
      cases h
    · rintro ⟨⟨same, -⟩, -⟩
      exact absurd same other
  rename_i same
  split
  · rename_i b i large
    have beyond : 1 < b := by simpa using List.find?_some large
    have member := List.fst_mem_of_mem_zipIdx (List.mem_of_find?_eq_some large)
    constructor
    · intro h
      cases h
    · rintro ⟨⟨-, bits⟩, -⟩
      exact absurd beyond ((small b).2 (bits b member))
  · rename_i large
    have bits : ∀ b ∈ bytes, b = 0 ∨ b = 1 := by
      intro b hb
      obtain ⟨i, hi⟩ := List.mem_iff_getElem?.1 hb
      have none := List.find?_eq_none.1 large (b, i) (List.mem_zipIdx_iff_getElem?.2 hi)
      exact (small b).1 (by simpa using none)
    constructor
    · rintro ⟨⟩
      exact ⟨⟨not_not.1 same, bits⟩, rfl⟩
    · rintro ⟨-, rfl⟩
      rfl

/-! ## Cells -/

namespace Sparse

/-- What is wrong with a cell at a position, given the one before it: it is out of bounds, or else
it does not lie behind the other. -/
def FaultAt (size position : Nat) (previous : Option Cell) (c : Cell) (fault : ArgumentFault) :
    Prop :=
  size ≤ c.toNat ∧ fault = .indexOutOfRange c.toNat size ∨
    c.toNat < size ∧ (∃ b ∈ previous, c ≤ b) ∧ fault = .invalidOrder position

/-- The first fault of a list of cells: what stands in front of it is a set. -/
def FirstFault (size : Nat) (cells : List Cell) (fault : ArgumentFault) : Prop :=
  ∃ front c rest, cells = front ++ c :: rest ∧ IsSet size front ∧
    FaultAt size front.length front.getLast? c fault

/-- A check goes on behind cells that it admits. -/
theorem checkFrom_append {size position : Nat} {previous : Option Cell} {front : List Cell}
    (admitted : checkFrom size position previous front = .ok ()) (rest : List Cell) :
    checkFrom size position previous (front ++ rest) =
      checkFrom size (position + front.length) (front.getLast?.or previous) rest := by
  induction front generalizing position previous with
  | nil => rfl
  | cons c front ih =>
      unfold checkFrom at admitted
      rw [List.cons_append, checkFrom]
      split at admitted
      · cases admitted
      rename_i inside
      split at admitted
      · cases admitted
      rename_i ordered
      -- the cell is the one before the next, unless more of the front is to come
      rw [if_neg inside, if_neg ordered, ih admitted, List.length_cons, List.getLast?_cons]
      cases front.getLast? <;> simp [Nat.add_assoc, Nat.add_comm 1]

/-- A cell at fault is refused for it. -/
theorem FaultAt.checkFrom_eq {size position : Nat} {previous : Option Cell} {c : Cell}
    {fault : ArgumentFault} (h : FaultAt size position previous c fault) (rest : List Cell) :
    checkFrom size position previous (c :: rest) = .error fault := by
  unfold checkFrom
  rcases h with ⟨outside, rfl⟩ | ⟨inside, ⟨b, hb, hcb⟩, rfl⟩
  · rw [if_pos outside]
  · have unordered : previous.any (c ≤ ·) = true :=
      (Option.any_eq_true _ _).2 ⟨b, hb, decide_eq_true hcb⟩
    rw [if_neg (Nat.not_le.2 inside), if_pos unordered]

/-- A check that fails admits what stands in front of a cell at fault. -/
theorem exists_of_checkFrom_eq_error {size position : Nat} {previous : Option Cell}
    {cells : List Cell} {fault : ArgumentFault}
    (h : checkFrom size position previous cells = .error fault) :
    ∃ front c rest, cells = front ++ c :: rest ∧ checkFrom size position previous front = .ok () ∧
      FaultAt size (position + front.length) (front.getLast?.or previous) c fault := by
  induction cells generalizing position previous with
  | nil => cases h
  | cons c cells ih =>
      unfold checkFrom at h
      split at h
      · rename_i outside
        cases h
        exact ⟨[], c, cells, rfl, rfl, .inl ⟨outside, rfl⟩⟩
      rename_i inside
      split at h
      · rename_i unordered
        cases h
        obtain ⟨b, hb, hcb⟩ := (Option.any_eq_true _ _).1 unordered
        exact ⟨[], c, cells, rfl, rfl,
          .inr ⟨Nat.lt_of_not_le inside, ⟨b, hb, of_decide_eq_true hcb⟩, rfl⟩⟩
      rename_i ordered
      obtain ⟨front, d, rest, rfl, admitted, wrong⟩ := ih h
      refine ⟨c :: front, d, rest, rfl, ?_, ?_⟩
      · rw [checkFrom, if_neg inside, if_neg ordered, admitted]
      · have last : (c :: front).getLast?.or previous = front.getLast?.or (some c) := by
          rw [List.getLast?_cons]
          cases front.getLast? <;> rfl
        rw [last, List.length_cons, Nat.add_comm front.length, ← Nat.add_assoc]
        exact wrong

/-- The check reports the first fault. -/
theorem check_eq_error_iff {size : Nat} {cells : List Cell} {fault : ArgumentFault} :
    check size cells = .error fault ↔ FirstFault size cells fault := by
  constructor
  · intro h
    obtain ⟨front, c, rest, rfl, admitted, wrong⟩ := exists_of_checkFrom_eq_error h
    rw [Nat.zero_add, Option.or_none] at wrong
    exact ⟨front, c, rest, rfl, check_eq_ok_iff.1 admitted, wrong⟩
  · rintro ⟨front, c, rest, rfl, isSet, wrong⟩
    unfold check
    rw [checkFrom_append (check_eq_ok_iff.2 isSet), Nat.zero_add, Option.or_none]
    exact wrong.checkFrom_eq rest

end Sparse

/-! ## Coordinates -/

namespace Coordinates

/-- The coordinates of the cell that is listed at a place. -/
def column (coords : Coordinates) (k : Nat) : List UInt32 :=
  coords.map fun list => list.getD k 0

/-- The same cells listed in another order. -/
def reorder (order : List Nat) (coords : Coordinates) : Coordinates :=
  coords.map fun list => order.map fun k => list.getD k 0

/-- Another order of the cells lists as many. -/
theorem count_reorder {order : List Nat} {coords : Coordinates} (h : order.length = coords.count) :
    (coords.reorder order).count = order.length := by
  cases coords with
  | nil => exact h.symm
  | cons list coords => exact List.length_map _

/-- The lists in another order have the columns of that order. -/
theorem points_reorder {order : List Nat} {coords : Coordinates}
    (h : order.length = coords.count) :
    (coords.reorder order).points = order.map coords.column := by
  have columns (coords : Coordinates) :
      transpose order.length (coords.reorder order) = order.map coords.column := by
    induction coords with
    | nil => exact List.map_const'.symm
    | cons list coords ih =>
        show List.zipWith (· :: ·) (order.map fun k => list.getD k 0)
          (transpose order.length (reorder order coords)) = _
        rw [ih, List.zipWith_map, List.zipWith_self]
        rfl
  rw [points, count_reorder h, columns]

/-- Lists of equal length stay as they are when no cell moves. -/
theorem reorder_range {n : Nat} {coords : Coordinates} (h : ∀ list ∈ coords, list.length = n) :
    coords.reorder (List.range n) = coords := by
  unfold reorder
  conv => rhs; rw [← List.map_id coords]
  refine List.map_congr_left fun list hlist => List.ext_getElem ?_ fun i hi hi' => ?_
  · rw [List.length_map, List.length_range]
    exact (h list hlist).symm
  · rw [List.getElem_map, List.getElem_range]
    exact List.getD_eq_getElem list 0 hi'

/-- The columns of lists of equal length, from the first on. -/
theorem points_eq {coords : Coordinates} (h : ∀ list ∈ coords, list.length = coords.count) :
    coords.points = (List.range coords.count).map coords.column := by
  conv => lhs; rw [← reorder_range h]
  exact points_reorder List.length_range

/-- The check admits lists that fit the shape and name no cell twice. -/
theorem check_eq_ok_iff_nodup {shape : Shape} {coords : Coordinates} :
    check shape coords = .ok () ↔
      InBounds coords.count coords shape.dims ∧ coords.points.Nodup := by
  rw [check_eq_ok_iff]
  refine and_congr_right fun inBounds => ?_
  have fits : ∀ p ∈ coords.points, Fits p shape.dims := inBounds.fits
  have sorted : (coords.toSparse shape).Perm (coords.points.map shape.ravel) :=
    List.mergeSort_perm _ _
  -- columns that fit are told apart by their numbers, so sorted numbers ascend if none is repeated
  constructor
  · intro ascending
    have distinct : (coords.toSparse shape).Nodup :=
      ascending.imp fun less => UInt32.ne_of_lt less
    exact (sorted.nodup_iff.1 distinct).of_map
  · intro distinct
    have numbers : (coords.points.map shape.ravel).Nodup := by
      refine distinct.map_on fun p hp q hq same => ?_
      rw [← Shape.unravel_ravel (fits p hp), same, Shape.unravel_ravel (fits q hq)]
    refine ((pairwise_toSparse shape coords).and (sorted.nodup_iff.2 numbers)).imp ?_
    rintro a b ⟨le, ne⟩
    exact UInt32.lt_of_le_of_ne le ne

variable {shape : Shape} {coords : Coordinates} {order : List Nat}

/-- Another order of the cells lists the same ones. -/
theorem perm_points_reorder (h : check shape coords = .ok ())
    (perm : order.Perm (List.range coords.count)) :
    (coords.reorder order).points.Perm coords.points := by
  have lengths := (check_eq_ok_iff.1 h).1.length_eq
  rw [points_reorder (perm.length_eq.trans List.length_range), points_eq lengths]
  exact perm.map _

/-- Another order of the cells is admitted, too. -/
theorem check_reorder (h : check shape coords = .ok ())
    (perm : order.Perm (List.range coords.count)) :
    check shape (coords.reorder order) = .ok () := by
  obtain ⟨inBounds, distinct⟩ := check_eq_ok_iff_nodup.1 h
  refine check_eq_ok_iff_nodup.2 ⟨?_, (perm_points_reorder h perm).nodup_iff.2 distinct⟩
  have length : order.length = coords.count := perm.length_eq.trans List.length_range
  have rows : InBounds order.length (coords.reorder order) shape.dims := by
    refine List.forall₂_map_left_iff.2 (inBounds.imp fun list d ⟨same, below⟩ => ?_)
    refine ⟨List.length_map _, fun i hi => ?_⟩
    obtain ⟨k, hk, rfl⟩ := List.mem_map.1 hi
    have inside : k < list.length := same ▸ List.mem_range.1 (perm.mem_iff.1 hk)
    rw [List.getD_eq_getElem _ _ inside]
    exact below _ (List.getElem_mem inside)
  rw [count_reorder length]
  exact rows

/-- Another order of the cells names the same set. -/
theorem toSparse_reorder (h : check shape coords = .ok ())
    (perm : order.Perm (List.range coords.count)) :
    (coords.reorder order).toSparse shape = coords.toSparse shape := by
  refine (isSet_toSparse (check_reorder h perm)).ext (isSet_toSparse h) fun c => ?_
  rw [toSparse, toSparse, List.mem_mergeSort, List.mem_mergeSort]
  exact ((perm_points_reorder h perm).map _).mem_iff

/-- The numbers of a set that is named by coordinates. -/
theorem numbers_toSparse (h : check shape coords = .ok ()) :
    Cache.numbers (coords.toSparse shape) = (coords.points.map (number shape.dims)).toFinset := by
  have same : coords.points.map (UInt32.toNat ∘ shape.ravel) =
      coords.points.map (number shape.dims) :=
    List.map_congr_left fun p hp => Shape.toNat_ravel (fits_of_check h p hp)
  rw [← same, ← List.map_map]
  exact List.toFinset_eq_of_perm _ _ ((List.mergeSort_perm _ _).map _)

end Coordinates

/-! ## Readings -/

/-- What a node is read as, and the number of its active cells. -/
structure Readings where
  dense : Dense
  sparse : Sparse
  coordinates : Coordinates
  sum : Nat

namespace Readings

/-- The readings as they are held in a cache. -/
def cache (r : Readings) : Cache := ⟨some r.dense, some r.sparse, some r.coordinates, r.sum⟩

/-- All readings denote a set of cell numbers. -/
def Denotes (shape : Shape) (r : Readings) (S : Finset Nat) : Prop := r.cache.Denotes shape S

/-- The readings of a set of cells. -/
def ofSparse (shape : Shape) (cells : Sparse) : Readings :=
  ⟨Dense.ofSparse shape.size cells, cells, Coordinates.ofSparse shape cells, cells.length⟩

/-- The readings of a set of cells denote it. -/
theorem denotes_ofSparse {shape : Shape} {cells : Sparse} (h : Sparse.IsSet shape.size cells) :
    (ofSparse shape cells).Denotes shape (Cache.numbers cells) := by
  have holds : (ofSparse shape cells).cache.Holds shape cells := by
    refine ⟨h, ?_, ?_, ?_, fun _ => rfl, fun absent => nomatch absent⟩
    · rintro _ ⟨⟩
      rfl
    · rintro _ ⟨⟩
      rfl
    · rintro _ ⟨⟩
      rfl
  exact holds.denotes

end Readings

/-! ## Setting a value -/

namespace Forest

variable {α : Type}

/-- A node is read as this. -/
structure Reports (f : Forest α) (id : NodeId) (r : Readings) : Prop where
  dense : f.Answers (Forest.dense id) r.dense
  sparse : f.Answers (Forest.sparse id) r.sparse
  coordinates : f.Answers (Forest.coordinates id) r.coordinates
  sum : f.Answers (Forest.sum id) r.sum

/-- A change succeeds and leaves a node that is read as this. -/
def Leaves (f : Forest α) (id : NodeId) (change : Call α Unit) (r : Readings) : Prop :=
  ∃ g, change f = .ok ⟨⟩ g ∧ g.Reports id r

/-- A change succeeds exactly if its argument encodes a set, and leaves a node that is read as that
set. -/
structure Sets (f : Forest α) (id : NodeId) (shape : Shape) (change : Call α Unit)
    (encodes : Prop) (S : Finset Nat) : Prop where
  stores : encodes → ∃ r, f.Leaves id change r ∧ r.Denotes shape S
  refuses : ¬ encodes → ∃ fault, change f = .error (.argument fault) f

variable {f : Forest α} {id : NodeId} {n : Node α} {cells : Sparse}

/-- A node that shows cells is read as their set. -/
theorem reports_of_shown (sound : f.Sound) (found : f.available? id = some n)
    (shows : f.shown id = .ok cells) : f.Reports id (.ofSparse n.shape cells) where
  dense := answers_read sound found shows Cache.renders_readDense
  sparse := answers_read sound found shows Cache.renders_readSparse
  coordinates := answers_read sound found shows Cache.renders_readCoordinates
  sum := answers_read sound found shows Cache.renders_readSum

/-- A node is read in one way. -/
theorem Reports.unique {r s : Readings} (hr : f.Reports id r) (hs : f.Reports id s) : r = s := by
  obtain ⟨dense, sparse, coordinates, sum⟩ := r
  cases hr.dense.unique hs.dense
  cases hr.sparse.unique hs.sparse
  cases hr.coordinates.unique hs.coordinates
  cases hr.sum.unique hs.sum
  rfl

/-- A change leaves a node that is read in one way. -/
theorem Leaves.unique {change : Call α Unit} {r s : Readings} (hr : f.Leaves id change r)
    (hs : f.Leaves id change s) : r = s := by
  obtain ⟨g, changed, reports⟩ := hr
  obtain ⟨h, again, reports'⟩ := hs
  cases changed.symm.trans again
  exact reports.unique reports'

variable {β : Type}

/-- The value that an argument of a setter is, if a check admits it. -/
def admittedValue (id : NodeId) (mutator : Mutator) (check : Shape → Except ArgumentFault β)
    (value : Shape → β → Cache) : Call α Cache := do
  let n ← mutable id mutator
  let b ← checked (check n.shape)
  return value n.shape b

theorem denseValue_eq (bytes : List UInt8) : (denseValue id bytes : Call α Cache) =
    admittedValue id .setDense (fun shape => Dense.ofBytes shape.size bytes)
      fun _ => .ofDense := rfl

theorem sparseValue_eq (cells : List Cell) : (sparseValue id cells : Call α Cache) =
    admittedValue id .setSparse (fun shape => Sparse.check shape.size cells)
      fun _ _ => .ofSparse cells := rfl

theorem coordinatesValue_eq (coords : Coordinates) : (coordinatesValue id coords : Call α Cache) =
    admittedValue id .setCoordinates (fun shape => Coordinates.check shape coords)
      fun shape _ => .ofCoordinates (coords.rowMajor shape) := rfl

variable {mutator : Mutator} {check : Shape → Except ArgumentFault β} {value : Shape → β → Cache}

/-- In a canonical node an argument that is admitted is its value. -/
theorem admittedValue_of_ok (found : f.available? id = some n) (role : n.role = .canonical) {b : β}
    (admitted : check n.shape = .ok b) :
    admittedValue id mutator check value f = .ok (value n.shape b) f := by
  rw [admittedValue, bind_of_ok (mutable_of_canonical found role mutator), admitted]
  rfl

/-- In a canonical node an argument is refused as by the check. -/
theorem admittedValue_of_error (found : f.available? id = some n) (role : n.role = .canonical)
    {fault : ArgumentFault} (refused : check n.shape = .error fault) :
    admittedValue id mutator check value f = .error (.argument fault) f := by
  rw [admittedValue, bind_of_ok (mutable_of_canonical found role mutator), refused]
  rfl

/-- A setter is refused as the check refuses its argument. -/
theorem replace_admittedValue_eq_error_iff (found : f.available? id = some n)
    (role : n.role = .canonical) {react : Reaction α} {fault : ArgumentFault} :
    replace react id (admittedValue id mutator check value) f = .error (.argument fault) f ↔
      check n.shape = .error fault := by
  constructor
  · intro refused
    cases checked : check n.shape with
    | ok b =>
        cases refused.symm.trans (bind_of_ok (admittedValue_of_ok found role checked))
    | error other =>
        cases refused.symm.trans (bind_of_error (admittedValue_of_error found role checked))
        rfl
  · intro refused
    exact bind_of_error (admittedValue_of_error found role refused)

end Forest

variable [RandomSource G] [LawfulRandomSource G] {allowed : Situation α → Move α G → Prop}
  {f : Forest α} {id : NodeId} {n : Node α} {β : Type}

/-- A value that was admitted stays in its node, and is what the node is read as. -/
theorem Reached.leaves (reached : Reached allowed (.quiet f)) (found : f.available? id = some n)
    (role : n.role = .canonical) {value : Cache} {cells : Sparse} (held : value.isStale = false)
    (holds : value.Holds n.shape cells) {c : Forest.Call α Cache} (worked : c f = .ok value f)
    (react : Reaction α) : f.Leaves id (Forest.replace react id c) (.ofSparse n.shape cells) := by
  obtain ⟨ordered, m, there, shape, shows⟩ := reached.store .refl found role held holds react
  refine ⟨_, bind_of_ok worked, ?_⟩
  rw [← shape]
  exact Forest.reports_of_shown ordered.sound there shows

/-- A setter whose check admits exactly the encodings of sets stores what they encode. -/
theorem Reached.sets (reached : Reached allowed (.quiet f)) (found : f.available? id = some n)
    (role : n.role = .canonical) (react : Reaction α) {mutator : Mutator}
    {check : Shape → Except ArgumentFault β} {value : Shape → β → Cache} {encodes : Prop}
    {S : Finset Nat} (admits : encodes ↔ ∃ b, check n.shape = .ok b)
    (holds : ∀ b, check n.shape = .ok b → (value n.shape b).isStale = false ∧
      ∃ cells, (value n.shape b).Holds n.shape cells ∧ Cache.numbers cells = S) :
    f.Sets id n.shape (Forest.replace react id (Forest.admittedValue id mutator check value))
      encodes S := by
  constructor
  · intro h
    obtain ⟨b, admitted⟩ := admits.1 h
    obtain ⟨held, cells, kept, rfl⟩ := holds b admitted
    exact ⟨_, reached.leaves found role held kept (Forest.admittedValue_of_ok found role admitted)
      react, Readings.denotes_ofSparse kept.isSet⟩
  · intro h
    cases checked : check n.shape with
    | ok b => exact absurd (admits.2 ⟨b, checked⟩) h
    | error fault =>
        exact ⟨fault, bind_of_error (Forest.admittedValue_of_error found role checked)⟩

/-- Bits that are admitted are the set of the cells whose bits are one. -/
theorem numbers_toSparse_of_ofBytes {size : Nat} (bounded : size < UInt32.size)
    {bytes : List UInt8} {d : Dense} (h : Dense.ofBytes size bytes = .ok d) :
    Cache.numbers d.toSparse = {i ∈ Finset.range size | bytes[i]? = some 1} := by
  have fits : d.size = size := Dense.size_of_ofBytes h
  obtain ⟨-, rfl⟩ := Dense.ofBytes_eq_ok_iff.1 h
  have small := Nat.le_of_lt (fits.symm ▸ bounded)
  have bit (i : Nat) :
      (bytes.map (· == 1)).toArray[i]? = some true ↔ bytes[i]? = some 1 := by
    rw [List.getElem?_toArray, List.getElem?_map, Option.map_eq_some_iff]
    simp
  ext i
  rw [Cache.mem_numbers, Finset.mem_filter, Finset.mem_range]
  constructor
  · rintro ⟨c, hc, rfl⟩
    have inside := (Dense.isSet_toSparse small).bounded c hc
    exact ⟨fits ▸ inside, (bit _).1 ((Dense.mem_toSparse small).1 hc)⟩
  · rintro ⟨inside, one⟩
    have back : i.toUInt32.toNat = i := UInt32.toNat_ofNat_of_lt' (Nat.lt_trans inside bounded)
    refine ⟨i.toUInt32, (Dense.mem_toSparse small).2 ?_, back⟩
    rw [back]
    exact (bit i).2 one

/-- Bits are set. -/
theorem Reached.sets_dense (reached : Reached allowed (.quiet f)) (found : f.available? id = some n)
    (role : n.role = .canonical) (react : Reaction α) (bytes : List UInt8) :
    f.Sets id n.shape (Forest.setDense react id bytes)
      (bytes.length = n.shape.size ∧ ∀ b ∈ bytes, b = 0 ∨ b = 1)
      {i ∈ Finset.range n.shape.size | bytes[i]? = some 1} := by
  rw [Forest.setDense, Forest.denseValue_eq]
  refine reached.sets found role react ?_ fun d admitted => ⟨rfl, d.toSparse, ?_, ?_⟩
  · constructor
    · intro h
      exact ⟨_, Dense.ofBytes_eq_ok_iff.2 ⟨h, rfl⟩⟩
    · rintro ⟨d, admitted⟩
      exact (Dense.ofBytes_eq_ok_iff.1 admitted).1
  · exact Cache.holds_ofDense (Dense.size_of_ofBytes admitted)
  · exact numbers_toSparse_of_ofBytes n.shape.bounded admitted

/-- Cells are set. -/
theorem Reached.sets_sparse (reached : Reached allowed (.quiet f))
    (found : f.available? id = some n) (role : n.role = .canonical) (react : Reaction α)
    (cells : List Cell) :
    f.Sets id n.shape (Forest.setSparse react id cells)
      (cells.Pairwise (· < ·) ∧ ∀ c ∈ cells, c.toNat < n.shape.size)
      (cells.map UInt32.toNat).toFinset := by
  rw [Forest.setSparse, Forest.sparseValue_eq]
  refine reached.sets found role react ?_ fun _ admitted => ⟨rfl, cells, ?_, rfl⟩
  · constructor
    · rintro ⟨ascending, bounded⟩
      exact ⟨⟨⟩, Sparse.check_eq_ok_iff.2 ⟨ascending, bounded⟩⟩
    · rintro ⟨_, admitted⟩
      obtain ⟨ascending, bounded⟩ := Sparse.check_eq_ok_iff.1 admitted
      exact ⟨ascending, bounded⟩
  · exact Cache.holds_ofSparse (Sparse.check_eq_ok_iff.1 admitted)

/-- Coordinate lists are set. -/
theorem Reached.sets_coordinates (reached : Reached allowed (.quiet f))
    (found : f.available? id = some n) (role : n.role = .canonical) (react : Reaction α)
    (coords : Coordinates) :
    f.Sets id n.shape (Forest.setCoordinates react id coords)
      (Coordinates.InBounds coords.count coords n.shape.dims ∧ coords.points.Nodup)
      (coords.points.map (number n.shape.dims)).toFinset := by
  rw [Forest.setCoordinates, Forest.coordinatesValue_eq]
  refine reached.sets found role react ?_ fun _ admitted =>
    ⟨rfl, coords.toSparse n.shape, Cache.holds_ofCoordinates admitted,
      Coordinates.numbers_toSparse admitted⟩
  constructor
  · intro h
    exact ⟨⟨⟩, Coordinates.check_eq_ok_iff_nodup.2 h⟩
  · rintro ⟨_, admitted⟩
    exact Coordinates.check_eq_ok_iff_nodup.1 admitted

/-- What a node is read as after coordinate lists were set does not depend on the order of the
cells. -/
theorem Reached.leaves_reorder (reached : Reached allowed (.quiet f))
    (found : f.available? id = some n) (role : n.role = .canonical) (react : Reaction α)
    {coords : Coordinates} {order : List Nat} (perm : order.Perm (List.range coords.count))
    {r : Readings} (leaves : f.Leaves id (Forest.setCoordinates react id coords) r) :
    f.Leaves id (Forest.setCoordinates react id (coords.reorder order)) r := by
  -- both are read as the set that they name
  have left {coords : Coordinates} (admitted : Coordinates.check n.shape coords = .ok ()) :
      f.Leaves id (Forest.setCoordinates react id coords)
        (.ofSparse n.shape (coords.toSparse n.shape)) := by
    have worked : Forest.coordinatesValue id coords f =
        .ok (.ofCoordinates (coords.rowMajor n.shape)) f := by
      rw [Forest.coordinatesValue_eq]
      exact Forest.admittedValue_of_ok found role admitted
    exact reached.leaves found role rfl (Cache.holds_ofCoordinates admitted) worked react
  -- lists that are refused leave nothing
  have admitted : Coordinates.check n.shape coords = .ok () := by
    by_contra refused
    obtain ⟨g, changed, -⟩ := leaves
    obtain ⟨fault, failed⟩ := (reached.sets_coordinates found role react coords).refuses
      fun h => refused (Coordinates.check_eq_ok_iff_nodup.2 h)
    cases changed.symm.trans failed
  rw [leaves.unique (left admitted), ← Coordinates.toSparse_reorder admitted perm]
  exact left (Coordinates.check_reorder admitted perm)

/-- A setter of a canonical node succeeds exactly if its argument encodes a set, and leaves a node
that is read as this set in every encoding, whatever listeners do when they hear of it.  A list of
cells is refused for its first fault, and it does not matter in which order coordinate lists name
the cells. -/
theorem setters_store_sets (reached : Reached allowed (.quiet f))
    (found : f.available? id = some n) (role : n.role = .canonical) (react : Reaction α) :
    (∀ bytes : List UInt8, f.Sets id n.shape (Forest.setDense react id bytes)
      (bytes.length = n.shape.size ∧ ∀ b ∈ bytes, b = 0 ∨ b = 1)
      {i ∈ Finset.range n.shape.size | bytes[i]? = some 1}) ∧
    (∀ cells : List Cell, f.Sets id n.shape (Forest.setSparse react id cells)
        (cells.Pairwise (· < ·) ∧ ∀ c ∈ cells, c.toNat < n.shape.size)
        (cells.map UInt32.toNat).toFinset ∧
      ∀ fault, Forest.setSparse react id cells f = .error (.argument fault) f ↔
        Sparse.FirstFault n.shape.size cells fault) ∧
    ∀ coords : Coordinates, f.Sets id n.shape (Forest.setCoordinates react id coords)
        (Coordinates.InBounds coords.count coords n.shape.dims ∧ coords.points.Nodup)
        (coords.points.map (number n.shape.dims)).toFinset ∧
      ∀ order, order.Perm (List.range coords.count) → ∀ r,
        f.Leaves id (Forest.setCoordinates react id coords) r →
          f.Leaves id (Forest.setCoordinates react id (coords.reorder order)) r := by
  refine ⟨fun bytes => reached.sets_dense found role react bytes,
    fun cells => ⟨reached.sets_sparse found role react cells, fun fault => ?_⟩,
    fun coords => ⟨reached.sets_coordinates found role react coords, fun order perm r leaves =>
      reached.leaves_reorder found role react perm leaves⟩⟩
  rw [← Sparse.check_eq_error_iff, Forest.setSparse, Forest.sparseValue_eq]
  exact Forest.replace_admittedValue_eq_error_iff found role

/-- Cells that do not ascend are refused, and coordinate lists name two cells of a square in either
order. -/
theorem setters_store_sets_in_square :
    let square : Shape := ⟨[2, 2], by decide, by simp, by decide⟩
    let silent : Reaction Unit := fun _ _ _ => []
    ∃ f : Forest Unit, Reached (fun s (move : Move Unit Generator) => move.Tactful s) (.quiet f) ∧
      f.available? 0 = some (.canonical square) ∧
      Forest.setSparse silent 0 [3, 3] f = .error (.argument (.invalidOrder 1)) f ∧
      ∃ r, r.Denotes square {1, 2} ∧
        f.Leaves 0 (Forest.setCoordinates silent 0 [[1, 0], [0, 1]]) r ∧
        f.Leaves 0 (Forest.setCoordinates silent 0 [[0, 1], [1, 0]]) r := by
  intro square silent
  have created : Reached (α := Unit) (G := Generator) (fun s move => move.Tactful s) _ :=
    Reached.start.next (by rintro _ _ ⟨⟩) (.call (.create [2, 2]) rfl)
  have reached : Reached (G := Generator) (fun s move => move.Tactful s)
      (.quiet (⟨#[.canonical square], [], []⟩ : Forest Unit)) := created.next (by trivial) .forget
  obtain ⟨-, sparse, coordinates⟩ :=
    @setters_store_sets _ _ _ _ _ _ 0 _ reached rfl rfl silent
  refine ⟨_, reached, rfl, ?_, ?_⟩
  · have front : Sparse.IsSet square.size [3] := Sparse.check_eq_ok_iff.1 rfl
    refine ((sparse [3, 3]).2 (.invalidOrder 1)).2 ⟨[3], 3, [], rfl, front, .inr ?_⟩
    exact ⟨by decide, ⟨3, rfl, by decide⟩, rfl⟩
  · obtain ⟨sets, reorders⟩ := coordinates [[1, 0], [0, 1]]
    have inBounds : Coordinates.InBounds 2 [[1, 0], [0, 1]] square.dims :=
      List.Forall₂.cons ⟨rfl, by simp⟩ (List.Forall₂.cons ⟨rfl, by simp⟩ List.Forall₂.nil)
    have both : ((Coordinates.points [[1, 0], [0, 1]]).map (number square.dims)).toFinset =
        {1, 2} := by decide
    obtain ⟨r, leaves, denotes⟩ := sets.stores ⟨inBounds, by decide⟩
    exact ⟨r, both ▸ denotes, leaves, reorders [1, 0] (by decide) r leaves⟩

end SparseTensor
