/-
# Joining along an axis

Shapes that agree in every dimension but one can be joined along that one.  The cells of such a
shape lie in as many rows as the shape has cells before the axis, and joining puts the rows of
the inputs one behind the other; so if the extents add up, there is one bit for every cell of
the whole (`size_joinRows_of_checkExtents`).
-/
import Mathlib.Algebra.BigOperators.Ring.List
import Mathlib.Algebra.Ring.Nat
import SparseTensor.Forest.Change

namespace SparseTensor

/-- The product of dimensions one behind the other. -/
theorem product_append (a b : List UInt32) : product (a ++ b) = product a * product b := by
  induction a with
  | nil => simp [product]
  | cons d a ih =>
      show d.toNat * product (a ++ b) = d.toNat * product a * product b
      rw [ih, Nat.mul_assoc]

/-- The cells of a shape are rows, as many as there are before the axis. -/
theorem product_take_mul_drop (dims : List UInt32) (axis : Nat) :
    product (dims.take axis) * product (dims.drop axis) = product dims := by
  rw [← product_append, List.take_append_drop]

namespace Forest

/-- The extent of a shape along an axis. -/
def extentAlong (axis : Nat) (s : Shape) : Nat :=
  (s.dims.getD axis 0).toNat

/-- A shape agrees with another in every dimension but one. -/
def Along (shape : Shape) (axis : Nat) (input : Shape) : Prop :=
  input.rank = shape.rank ∧ ∀ i, i ≠ axis → input.dims[i]? = shape.dims[i]?

/-- No dimension is found to differ exactly when all of them agree, but one. -/
theorem find?_differing_eq_none_iff {mine theirs : List UInt32} (axis : Nat)
    (rank : theirs.length = mine.length) :
    ((mine.zip theirs).zipIdx.find? fun ((mine, theirs), i) =>
        i ≠ axis && mine ≠ theirs) = none ↔
      ∀ i, i ≠ axis → theirs[i]? = mine[i]? := by
  rw [List.find?_eq_none]
  constructor
  · intro h i other
    by_cases inside : i < mine.length
    · obtain ⟨d, hd⟩ : ∃ d, mine[i]? = some d := ⟨_, List.getElem?_eq_getElem inside⟩
      obtain ⟨e, he⟩ : ∃ e, theirs[i]? = some e := ⟨_, List.getElem?_eq_getElem (rank ▸ inside)⟩
      have both : (mine.zip theirs).zipIdx[i]? = some ((d, e), i) := by
        rw [List.getElem?_zipIdx, (List.getElem?_zip_eq_some (z := (d, e))).2 ⟨hd, he⟩]
        simp
      have same := h _ (List.mem_of_getElem? both)
      simp only [Bool.and_eq_true, decide_eq_true_eq, not_and, Decidable.not_not] at same
      rw [hd, he, same other]
    · rw [List.getElem?_eq_none (by omega), List.getElem?_eq_none (by omega)]
  · rintro h ⟨⟨d, e⟩, i⟩ hmem
    rw [List.mem_zipIdx_iff_getElem?, List.getElem?_zip_eq_some] at hmem
    simp only [Bool.and_eq_true, decide_eq_true_eq, not_and, Decidable.not_not]
    intro other
    have same := h i other
    rw [hmem.1, hmem.2] at same
    exact (Option.some.inj same).symm

/-- The check of one input admits what agrees with the shape, and adds its extent. -/
theorem fitAlong_eq_ok_iff {shape input : Shape} {axis extent e : Nat} :
    fitAlong shape axis extent input = .ok e ↔
      Along shape axis input ∧ e = extent + extentAlong axis input := by
  unfold fitAlong Along extentAlong
  by_cases rank : input.rank = shape.rank
  · rw [if_neg (not_not.2 rank)]
    have agree := @find?_differing_eq_none_iff shape.dims input.dims axis rank
    split
    · rename_i found
      rw [found] at agree
      have differ : ¬ ∀ i, i ≠ axis → input.dims[i]? = shape.dims[i]? := fun h => by
        cases agree.2 h
      simp [rank, differ]
    · rename_i found
      have same := agree.1 found
      simp only [Except.ok.injEq, rank, true_and]
      exact ⟨fun h => ⟨same, h.symm⟩, fun h => h.2.symm⟩
  · rw [if_pos rank]
    simp [rank]

/-- The extents of inputs are added one after another. -/
theorem foldlM_fitAlong_eq_ok_iff {shape : Shape} {axis start e : Nat} {inputs : List Shape} :
    inputs.foldlM (fitAlong shape axis) start = .ok e ↔
      (∀ input ∈ inputs, Along shape axis input) ∧
        e = start + (inputs.map (extentAlong axis)).sum := by
  induction inputs generalizing start with
  | nil =>
      simp only [List.foldlM_nil, List.map_nil, List.sum_nil]
      constructor
      · rintro ⟨⟩
        simp
      · rintro ⟨-, rfl⟩
        rfl
  | cons input inputs ih =>
      rw [List.foldlM_cons, List.forall_mem_cons, List.map_cons, List.sum_cons]
      cases first : fitAlong shape axis start input with
      | error fault =>
          constructor
          · intro h
            cases h
          · rintro ⟨⟨along, -⟩, -⟩
            cases first.symm.trans (fitAlong_eq_ok_iff.2 ⟨along, rfl⟩)
      | ok extent =>
          obtain ⟨along, rfl⟩ := fitAlong_eq_ok_iff.1 first
          show List.foldlM (fitAlong shape axis) _ inputs = .ok e ↔ _
          rw [ih, Nat.add_assoc]
          simp [along]

/-- The check of the inputs admits what agrees with the shape and adds up to it. -/
theorem checkExtents_eq_ok_iff {shape : Shape} {axis : Nat} {inputs : List Shape} :
    checkExtents shape axis inputs = .ok () ↔
      (∀ input ∈ inputs, Along shape axis input) ∧
        (inputs.map (extentAlong axis)).sum = extentAlong axis shape := by
  unfold checkExtents
  cases extents : inputs.foldlM (fitAlong shape axis) 0 with
  | error fault =>
      constructor
      · intro h
        cases h
      · rintro ⟨along, -⟩
        cases extents.symm.trans (foldlM_fitAlong_eq_ok_iff.2 ⟨along, rfl⟩)
  | ok extent =>
      obtain ⟨along, rfl⟩ := foldlM_fitAlong_eq_ok_iff.1 extents
      rw [Nat.zero_add]
      show (if _ then _ else _) = _ ↔ _
      unfold extentAlong at *
      split
      · rename_i same
        exact ⟨fun _ => ⟨along, same⟩, fun _ => rfl⟩
      · rename_i different
        constructor
        · intro h
          cases h
        · rintro ⟨-, same⟩
          exact absurd same different

/-! ## Rows -/

/-- Shapes that agree but along an axis have the same number of rows. -/
theorem Along.take_eq {shape input : Shape} {axis : Nat} (h : Along shape axis input) :
    input.dims.take axis = shape.dims.take axis := by
  apply List.ext_getElem?
  intro i
  rw [List.getElem?_take, List.getElem?_take]
  split
  · rename_i before
    exact h.2 i (Nat.ne_of_lt before)
  · rfl

/-- Behind the axis they agree as well. -/
theorem Along.drop_eq {shape input : Shape} {axis : Nat} (h : Along shape axis input) :
    input.dims.drop (axis + 1) = shape.dims.drop (axis + 1) := by
  apply List.ext_getElem?
  intro i
  rw [List.getElem?_drop, List.getElem?_drop]
  exact h.2 _ (by omega)

/-- The rows of shapes that agree but along an axis are as wide as their extents say. -/
theorem Along.product_drop {shape input : Shape} {axis : Nat} (inside : axis < shape.rank)
    (h : Along shape axis input) :
    product (input.dims.drop axis) =
      extentAlong axis input * product (shape.dims.drop (axis + 1)) := by
  have within : axis < input.dims.length := by
    have rank : input.dims.length = shape.dims.length := h.1
    rw [rank]
    exact inside
  rw [List.drop_eq_getElem_cons within, h.drop_eq]
  show _ = (input.dims.getD axis 0).toNat * _
  rw [List.getD_eq_getElem?_getD, List.getElem?_eq_getElem within]
  rfl

/-- The rows of several shapes are together as wide as their extents say. -/
theorem sum_product_drop {shape : Shape} {axis : Nat} (inside : axis < shape.rank)
    {shapes : List Shape} (along : ∀ s ∈ shapes, Along shape axis s) :
    (shapes.map fun s => product (s.dims.drop axis)).sum =
      (shapes.map (extentAlong axis)).sum * product (shape.dims.drop (axis + 1)) := by
  calc (shapes.map fun s => product (s.dims.drop axis)).sum
      = (shapes.map fun s => extentAlong axis s * product (shape.dims.drop (axis + 1))).sum := by
        rw [List.map_congr_left fun s hmem => (along s hmem).product_drop inside]
    _ = (shapes.map (extentAlong axis)).sum * product (shape.dims.drop (axis + 1)) :=
        List.sum_map_mul_right ..

/-- A row has as many bits as it is wide. -/
theorem length_slice {bits : Dense} {count width row : Nat} (size : bits.size = count * width)
    (inside : row < count) :
    (bits.extract (row * width) ((row + 1) * width)).toList.length = width := by
  have within : (row + 1) * width ≤ bits.size := size ▸ Nat.mul_le_mul_right width inside
  rw [Array.length_toList, Array.size_extract, Nat.min_eq_left within, Nat.succ_mul]
  omega

/-- The rows of the inputs one behind the other are as long as they are wide together. -/
theorem length_slices {count row : Nat} {blocks : List (Dense × Nat)}
    (sizes : ∀ block ∈ blocks, block.1.size = count * block.2) (inside : row < count) :
    (blocks.flatMap fun block =>
      (block.1.extract (row * block.2) ((row + 1) * block.2)).toList).length =
        (blocks.map Prod.snd).sum := by
  rw [List.length_flatMap]
  congr 1
  apply List.map_congr_left
  intro block hmem
  exact length_slice (sizes block hmem) inside

/-- Joined rows have one bit for every bit of the inputs. -/
theorem size_joinRows {count : Nat} {blocks : List (Dense × Nat)}
    (h : ∀ block ∈ blocks, block.1.size = count * block.2) :
    (joinRows count blocks).size = count * (blocks.map Prod.snd).sum := by
  have rows : ((List.range count).map fun i => (blocks.flatMap fun block =>
      (block.1.extract (i * block.2) ((i + 1) * block.2)).toList).length) =
        (List.range count).map fun _ => (blocks.map Prod.snd).sum :=
    List.map_congr_left fun i hi => length_slices h (List.mem_range.1 hi)
  unfold joinRows
  rw [List.size_toArray, List.length_flatMap]
  show ((List.range count).map fun i => (blocks.flatMap fun block =>
    (block.1.extract (i * block.2) ((i + 1) * block.2)).toList).length).sum = _
  rw [rows, List.map_const', List.sum_replicate_nat, List.length_range]

/-- Joining inputs whose extents add up gives one bit for every cell. -/
theorem size_joinRows_of_checkExtents {shape : Shape} {axis : Nat} (inside : axis < shape.rank)
    {inputs : List (Shape × Dense)}
    (h : checkExtents shape axis (inputs.map Prod.fst) = .ok ())
    (sizes : ∀ input ∈ inputs, input.2.size = input.1.size) :
    (joinRows (product (shape.dims.take axis))
      (inputs.map fun (s, bits) => (bits, product (s.dims.drop axis)))).size = shape.size := by
  obtain ⟨along, extents⟩ := checkExtents_eq_ok_iff.1 h
  have whole : Along shape axis shape := ⟨rfl, fun _ _ => rfl⟩
  have widths : ((inputs.map fun (s, bits) => ((bits, product (s.dims.drop axis)) :
      Dense × Nat)).map Prod.snd).sum = product (shape.dims.drop axis) := by
    rw [whole.product_drop inside, ← extents, ← sum_product_drop inside along, List.map_map,
      List.map_map]
    rfl
  rw [size_joinRows, widths, product_take_mul_drop]
  · rfl
  · rintro block hmem
    obtain ⟨input, hinput, rfl⟩ := List.mem_map.1 hmem
    show input.2.size = _
    rw [sizes input hinput, ← (along _ (List.mem_map_of_mem hinput)).take_eq,
      product_take_mul_drop]
    rfl

end Forest

end SparseTensor
