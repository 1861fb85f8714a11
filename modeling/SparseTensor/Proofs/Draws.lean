/-
# Drawing cells

A source of random values promises that what it draws for a bound is below it and that a
shuffled list holds the same elements.  `Generator` keeps both promises.

What `choose` draws is part of its population, without repetitions, whatever the source
answers.  `isSet_displaced` says that a set is a set again after some of its cells have moved.
-/
import SparseTensor.Forest.Change
import SparseTensor.Proofs.CellSets
import SparseTensor.Random.Uniform

namespace SparseTensor

/-- A source that keeps its promises. -/
class LawfulRandomSource (G : Type) [RandomSource G] : Prop where
  /-- What is drawn for a positive bound is below it. -/
  uniformBelow_lt : ∀ {bound : UInt32} (g : G), bound ≠ 0 →
    (RandomSource.uniformBelow bound g).1 < bound
  /-- A shuffle keeps the elements. -/
  shuffle_perm : ∀ {α : Type} (items : Array α) (g : G),
    (RandomSource.shuffle items g).1.Perm items

/-! ## Swapping -/

/-- Swapping two places, or none, keeps the elements. -/
theorem swapIfInBounds_perm {α : Type} (items : Array α) (i j : Nat) :
    (items.swapIfInBounds i j).Perm items := by
  rw [Array.swapIfInBounds_def]
  split
  · split
    · exact Array.swap_perm _ _
    · exact Array.Perm.refl items
  · exact Array.Perm.refl items

namespace Generator

/-- The swaps of a shuffle keep the elements. -/
theorem shuffleUpTo_perm {α : Type} (i : Nat) (items : Array α) (g : Generator) :
    (shuffleUpTo i items g).1.Perm items := by
  induction i generalizing items g with
  | zero => exact Array.Perm.refl items
  | succ i ih =>
      rw [shuffleUpTo]
      exact (ih _ _).trans (swapIfInBounds_perm items _ _)

instance : LawfulRandomSource Generator where
  uniformBelow_lt g positive := uniformBelow_lt positive g
  shuffle_perm items g := shuffleUpTo_perm (items.size - 1) items g

end Generator

variable {G : Type} [RandomSource G]

/-! ## Draws without replacement -/

/-- The swaps of the draws keep the population. -/
theorem chooseFrom_perm (position left : Nat) (population : Array Cell) (g : G) :
    (chooseFrom position left population g).1.Perm population := by
  induction left generalizing position population g with
  | zero => exact Array.Perm.refl population
  | succ left ih =>
      rw [chooseFrom]
      exact (ih _ _ _).trans (swapIfInBounds_perm population _ _)

/-- What is drawn stands in front after the swaps. -/
theorem choose_eq_take (population : Array Cell) (count : Nat) (g : G) :
    (choose population count g).1 =
      (chooseFrom 0 (min count population.size) population g).1.toList.take
        (min count population.size) := by
  show ((chooseFrom 0 (min count population.size) population g).1.extract 0
    (min count population.size)).toList = _
  rw [Array.toList_extract, List.extract_eq_take_drop, List.drop_zero, Nat.sub_zero]

/-- What is drawn is the front of the population in another order. -/
theorem exists_perm_choose (population : Array Cell) (count : Nat) (g : G) :
    ∃ rest, ((choose population count g).1 ++ rest).Perm population.toList := by
  let drawn := (chooseFrom 0 (min count population.size) population g).1
  have kept : drawn.toList.Perm population.toList :=
    Array.perm_iff_toList_perm.1 (chooseFrom_perm 0 _ population g)
  refine ⟨drawn.toList.drop (min count population.size), ?_⟩
  rw [choose_eq_take, List.take_append_drop]
  exact kept

/-- As many are drawn as was asked for, if there are so many. -/
theorem length_choose {population : Array Cell} {count : Nat} (h : count ≤ population.size) (g : G) :
    (choose population count g).1.length = count := by
  have size := (chooseFrom_perm 0 count population g).size_eq
  rw [choose_eq_take, Nat.min_eq_left h, List.length_take, Array.length_toList, size,
    Nat.min_eq_left h]

/-- What is drawn belongs to the population. -/
theorem mem_of_mem_choose {population : Array Cell} {count : Nat} {g : G} {c : Cell}
    (h : c ∈ (choose population count g).1) : c ∈ population.toList := by
  obtain ⟨rest, perm⟩ := exists_perm_choose population count g
  exact perm.mem_iff.1 (List.mem_append_left rest h)

/-- Nothing is drawn twice. -/
theorem nodup_choose {population : Array Cell} (h : population.toList.Nodup) (count : Nat)
    (g : G) : (choose population count g).1.Nodup := by
  obtain ⟨rest, perm⟩ := exists_perm_choose population count g
  exact (List.nodup_append.1 (perm.nodup_iff.2 h)).1

/-! ## Random sets -/

/-- A set has no repetitions. -/
theorem Sparse.IsSet.nodup {size : Nat} {cells : Sparse} (h : IsSet size cells) :
    cells.Nodup := by
  refine h.ascending.imp ?_
  rintro a _ less rfl
  exact UInt32.lt_irrefl a less

/-- Cells drawn from all, in order, form a set. -/
theorem isSet_choose {size : Nat} (bounded : size ≤ UInt32.size) (count : Nat) (g : G) :
    Sparse.IsSet size ((choose (CellSet.all size).toArray count g).1.mergeSort (· ≤ ·)) := by
  apply Sparse.isSet_mergeSort
  · exact nodup_choose (CellSet.isSet_all bounded).nodup count g
  · intro c hc
    exact (CellSet.mem_all bounded).1 (mem_of_mem_choose hc)

/-- A set is one again after some of its cells have moved to inactive places. -/
theorem isSet_displaced [LawfulRandomSource G] {size : Nat} (bounded : size ≤ UInt32.size)
    {cells : Sparse} (h : Sparse.IsSet size cells) (count : Nat) (g : G) :
    Sparse.IsSet size (Forest.displaced size cells count g).1 := by
  let shuffled := RandomSource.shuffle cells.toArray g
  have perm : shuffled.1.toList.Perm cells :=
    Array.perm_iff_toList_perm.1 (LawfulRandomSource.shuffle_perm cells.toArray g)
  have staying : ∀ c ∈ shuffled.1.toList.drop count, c ∈ cells := fun c hc =>
    perm.mem_iff.1 (List.mem_of_mem_drop hc)
  have arriving : ∀ c ∈ (choose (CellSet.complement size cells).toArray count shuffled.2).1,
      c ∈ CellSet.complement size cells := fun c hc => mem_of_mem_choose hc
  show Sparse.IsSet size ((shuffled.1.toList.drop count ++
    (choose (CellSet.complement size cells).toArray count shuffled.2).1).mergeSort (· ≤ ·))
  apply Sparse.isSet_mergeSort
  · refine List.nodup_append.2 ⟨?_, ?_, ?_⟩
    · exact (perm.nodup_iff.2 h.nodup).sublist (List.drop_sublist count _)
    · exact nodup_choose (CellSet.isSet_complement bounded h).nodup count _
    · rintro c hc _ hd rfl
      exact ((CellSet.mem_complement bounded h).1 (arriving c hd)).2 (staying c hc)
  · intro c hc
    rcases List.mem_append.1 hc with hc | hc
    · exact h.bounded c (staying c hc)
    · exact ((CellSet.mem_complement bounded h).1 (arriving c hc)).1

end SparseTensor
