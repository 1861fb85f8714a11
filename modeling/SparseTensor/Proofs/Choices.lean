/-
# Unbiased choices

Cells are chosen from a population by a shuffle that stops half-way: each draw takes one of the
cells that are left and puts the first of them in its place.  What is chosen depends on a source
through its answers alone (`choose_eq_script`), and these are below the number of the cells that are
left.

If all such answers are equally likely, so are the sequences of cells that can be chosen: each comes
from exactly one sequence of answers (`bijOn_choose`).  The argument follows `picks`, which is the
shuffle on what is left: a first pick is one of the entries, at one place only, and what is left
after it are the others.
-/
import Mathlib.Data.List.GetD
import Mathlib.Data.List.Permutation
import Mathlib.Data.Set.Card
import SparseTensor.Proofs.Answers
import SparseTensor.Proofs.Draws

namespace SparseTensor

open scoped Nat

/-! ## Sources that are determined by their answers -/

/-- A source with prepared answers, whatever the bounds. -/
structure Script where
  answers : List UInt32

instance : RandomSource Script where
  uniformBelow _ s := (s.answers.headD 0, ⟨s.answers.tail⟩)
  shuffle items s := (items, s)

/-- What a source answers when `left` more cells are drawn from `n`, those in front of `position`
being drawn already. -/
def drawn {G : Type} [RandomSource G] (n position : Nat) : Nat → G → List UInt32 × G
  | 0, g => ([], g)
  | left + 1, g =>
    let (pick, g) := RandomSource.uniformBelow (n - position).toUInt32 g
    let (picks, g) := drawn n (position + 1) left g
    (pick :: picks, g)

/-- The sequences of `k` draws from `n` entries: each is below the number of those that are left. -/
def Draws (n k : Nat) : Set (List UInt32) :=
  {draws | draws.length = k ∧ ∀ i d, draws[i]? = some d → d.toNat < n - i}

/-- The sequences of `k` distinct entries of a list. -/
def Arrangements (entries : List Cell) (k : Nat) : Set (List Cell) :=
  {cells | cells.length = k ∧ cells.Nodup ∧ ∀ c ∈ cells, c ∈ entries}

theorem cons_mem_draws_iff {n k : Nat} {d : UInt32} {draws : List UInt32} :
    d :: draws ∈ Draws n (k + 1) ↔ d.toNat < n ∧ draws ∈ Draws (n - 1) k := by
  constructor
  · rintro ⟨length, below⟩
    refine ⟨below 0 d rfl, Nat.succ.inj length, fun i e he => ?_⟩
    have next := below (i + 1) e he
    omega
  · rintro ⟨first, length, below⟩
    refine ⟨congrArg Nat.succ length, fun i e he => ?_⟩
    cases i with
    | zero =>
        cases he
        exact first
    | succ i =>
        have next := below i e he
        omega

/-- There is one sequence of no draws. -/
theorem mem_draws_zero_iff {n : Nat} {draws : List UInt32} : draws ∈ Draws n 0 ↔ draws = [] := by
  constructor
  · rintro ⟨length, -⟩
    exact List.eq_nil_of_length_eq_zero length
  · rintro rfl
    exact ⟨rfl, fun i d hd => nomatch hd⟩

/-- More draws than none begin with one. -/
theorem exists_of_mem_draws {n k : Nat} {draws : List UInt32} (h : draws ∈ Draws n (k + 1)) :
    ∃ d rest, draws = d :: rest ∧ d.toNat < n ∧ rest ∈ Draws (n - 1) k := by
  cases draws with
  | nil => cases h.1
  | cons d rest => exact ⟨d, rest, rfl, cons_mem_draws_iff.1 h⟩

section Source

variable {G : Type} [RandomSource G]

/-- What is drawn is determined by the answers. -/
theorem chooseFrom_eq_script (position left : Nat) (population : Array Cell) (g : G) :
    chooseFrom position left population g =
      ((chooseFrom position left population
          (Script.mk (drawn population.size position left g).1)).1,
        (drawn population.size position left g).2) := by
  induction left generalizing position population g with
  | zero => rfl
  | succ left ih =>
      simp only [chooseFrom]
      rw [ih, Array.size_swapIfInBounds]
      rfl

/-- What is chosen is determined by the answers. -/
theorem choose_eq_script (population : Array Cell) {k : Nat} (h : k ≤ population.size) (g : G) :
    choose population k g =
      ((choose population k (Script.mk (drawn population.size 0 k g).1)).1,
        (drawn population.size 0 k g).2) := by
  unfold choose
  simp only [Nat.min_eq_left h]
  rw [chooseFrom_eq_script]

/-- The answers of a source that keeps below its bounds are draws. -/
theorem drawn_mem_draws
    (below : ∀ (bound : UInt32) (g : G), bound ≠ 0 → (RandomSource.uniformBelow bound g).1 < bound)
    {n position left : Nat} (bounded : n < UInt32.size) (h : position + left ≤ n) (g : G) :
    (drawn n position left g).1 ∈ Draws (n - position) left := by
  induction left generalizing position g with
  | zero => exact mem_draws_zero_iff.2 rfl
  | succ left ih =>
      have value : (n - position).toUInt32.toNat = n - position :=
        UInt32.toNat_ofNat_of_lt' (Nat.lt_of_le_of_lt (Nat.sub_le n position) bounded)
      -- something is left and its number fits into a word, so the source has promised something
      have some : (n - position).toUInt32 ≠ 0 := by
        intro zero
        rw [zero] at value
        have : (0 : UInt32).toNat = 0 := rfl
        omega
      have first := UInt32.lt_iff_toNat_lt.1 (below _ g some)
      rw [value] at first
      exact cons_mem_draws_iff.2 ⟨first, ih (by omega) _⟩

end Source

/-! ## Picking from what is left -/

/-- What is left when the entry at a place is taken and the first one is put there. -/
def leave (d : Nat) : List Cell → List Cell
  | [] => []
  | x :: xs => ((x :: xs).set d x).tail

/-- The entries that are picked by some draws. -/
def picks : List UInt32 → List Cell → List Cell
  | [], _ => []
  | d :: draws, cells => cells.getD d.toNat 0 :: picks draws (leave d.toNat cells)

/-- An entry and what is left without it are all. -/
theorem perm_leave {d : Nat} {cells : List Cell} (h : d < cells.length) :
    (cells.getD d 0 :: leave d cells).Perm cells := by
  cases cells with
  | nil => cases h
  | cons x xs =>
      cases d with
      | zero => exact .refl _
      | succ d =>
          have inside : d < xs.length := Nat.lt_of_succ_lt_succ h
          show (xs.getD d 0 :: xs.set d x).Perm (x :: xs)
          rw [List.getD_eq_getElem _ _ inside]
          -- the first entry stands where the other one was taken
          have put := (List.set_perm_cons_eraseIdx inside x).cons xs[d]
          have back := (List.getElem_cons_eraseIdx_perm inside).cons x
          exact put.trans ((List.Perm.swap ..).trans back)

theorem length_leave (d : Nat) (cells : List Cell) : (leave d cells).length = cells.length - 1 := by
  cases cells with
  | nil => rfl
  | cons x xs =>
      show ((x :: xs).set d x).tail.length = _
      rw [List.length_tail, List.length_set]

section Picks

variable {k : Nat} {draws : List UInt32} {cells : List Cell}

/-- What is left of distinct entries is distinct, and the entry that was taken is not among it. -/
theorem nodup_leave {d : Nat} (h : d < cells.length) (nodup : cells.Nodup) :
    cells.getD d 0 ∉ leave d cells ∧ (leave d cells).Nodup :=
  List.nodup_cons.1 ((perm_leave h).nodup_iff.2 nodup)

/-- Distinct entries are picked. -/
theorem picks_mem_arrangements (nodup : cells.Nodup) (h : draws ∈ Draws cells.length k) :
    picks draws cells ∈ Arrangements cells k := by
  induction k generalizing draws cells with
  | zero =>
      rw [mem_draws_zero_iff.1 h]
      exact ⟨rfl, List.nodup_nil, by simp [picks]⟩
  | succ k ih =>
      obtain ⟨d, rest, rfl, inside, later⟩ := exists_of_mem_draws h
      obtain ⟨absent, others⟩ := nodup_leave inside nodup
      rw [← length_leave d.toNat] at later
      obtain ⟨length, distinct, among⟩ := ih others later
      have all := perm_leave inside
      refine ⟨congrArg Nat.succ length, List.nodup_cons.2 ⟨fun twice => ?_, distinct⟩, ?_⟩
      · exact absent (among _ twice)
      · intro c hc
        rcases List.mem_cons.1 hc with rfl | hc
        · exact all.mem_iff.1 List.mem_cons_self
        · exact all.mem_iff.1 (List.mem_cons_of_mem _ (among c hc))

/-- Different draws pick different entries, or the same ones in another order. -/
theorem eq_of_picks_eq (nodup : cells.Nodup) (h : draws ∈ Draws cells.length k)
    {draws' : List UInt32} (h' : draws' ∈ Draws cells.length k)
    (same : picks draws cells = picks draws' cells) : draws = draws' := by
  induction k generalizing draws draws' cells with
  | zero => rw [mem_draws_zero_iff.1 h, mem_draws_zero_iff.1 h']
  | succ k ih =>
      obtain ⟨d, rest, rfl, inside, later⟩ := exists_of_mem_draws h
      obtain ⟨d', rest', rfl, inside', later'⟩ := exists_of_mem_draws h'
      obtain ⟨first, others⟩ := List.cons.inj same
      rw [List.getD_eq_getElem _ _ inside, List.getD_eq_getElem _ _ inside'] at first
      -- the entries are distinct, so the same one stands at one place only
      obtain rfl : d = d' := UInt32.toNat_inj.1 ((nodup.getElem_inj_iff).1 first)
      rw [← length_leave d.toNat] at later later'
      rw [ih (nodup_leave inside nodup).2 later later' others]

/-- Distinct entries can be picked in any order. -/
theorem exists_picks_eq (nodup : cells.Nodup) (bounded : cells.length ≤ UInt32.size)
    {chosen : List Cell} (h : chosen ∈ Arrangements cells k) :
    ∃ draws ∈ Draws cells.length k, picks draws cells = chosen := by
  induction chosen generalizing k cells with
  | nil =>
      obtain ⟨rfl, -⟩ := h
      exact ⟨[], mem_draws_zero_iff.2 rfl, rfl⟩
  | cons c chosen ih =>
      obtain ⟨rfl, distinct, among⟩ := h
      obtain ⟨i, inside, rfl⟩ := List.getElem_of_mem (among c List.mem_cons_self)
      obtain ⟨once, rest⟩ := List.nodup_cons.1 distinct
      have place : i.toUInt32.toNat = i :=
        UInt32.toNat_ofNat_of_lt' (Nat.lt_of_lt_of_le inside bounded)
      have entry : cells.getD i 0 = cells[i] := List.getD_eq_getElem _ _ inside
      -- the others are left, as none of them is the entry that was taken
      have others : chosen ∈ Arrangements (leave i cells) chosen.length := by
        refine ⟨rfl, rest, fun c hc => ?_⟩
        have all := (perm_leave inside).mem_iff.2 (among c (List.mem_cons_of_mem _ hc))
        rw [entry] at all
        exact (List.mem_cons.1 all).resolve_left fun same => once (same ▸ hc)
      have fewer : (leave i cells).length ≤ UInt32.size := by
        rw [length_leave]
        omega
      obtain ⟨draws, later, rfl⟩ := ih (nodup_leave inside nodup).2 fewer others
      rw [length_leave] at later
      have first : i.toUInt32.toNat < cells.length := place.trans_lt inside
      refine ⟨i.toUInt32 :: draws, cons_mem_draws_iff.2 ⟨first, later⟩, ?_⟩
      rw [picks, place, entry]

end Picks

/-! ## Choosing cells -/

/-- A swap puts an entry in front of what is left without it. -/
theorem toList_swapIfInBounds {population : Array Cell} {front rest : List Cell}
    (h : population.toList = front ++ rest) {d : Nat} (inside : d < rest.length) :
    (population.swapIfInBounds front.length (front.length + d)).toList =
      front ++ rest.getD d 0 :: leave d rest := by
  have size : population.size = front.length + rest.length := by
    rw [← Array.length_toList, h, List.length_append]
  have high : front.length + d < population.size := by omega
  have low : front.length < population.size := by omega
  have entry {i : Nat} (hi : front.length + i < population.size) :
      population[front.length + i] = rest.getD i 0 := by
    have within : i < rest.length := by omega
    rw [List.getD_eq_getElem _ _ within]
    simp [← Array.getElem_toList, h]
  have first : population[front.length] = rest.getD 0 0 := @entry 0 low
  rw [Array.swapIfInBounds_def, dif_pos low, dif_pos high, Array.toList_swap, h, entry high, first,
    List.set_append_right _ _ (Nat.le_refl _), List.set_append_right _ _ (Nat.le_add_right ..),
    Nat.sub_self, Nat.add_sub_cancel_left]
  cases rest with
  | nil => cases inside
  | cons x xs =>
      -- a first entry that is swapped with itself stays
      cases d with
      | zero => rfl
      | succ d => rfl

/-- Prepared draws pick from what is left behind a front. -/
theorem take_chooseFrom {population : Array Cell} {front rest : List Cell} {k : Nat}
    {draws : List UInt32} (h : population.toList = front ++ rest)
    (within : draws ∈ Draws rest.length k) :
    (chooseFrom front.length k population (Script.mk draws)).1.toList.take (front.length + k) =
      front ++ picks draws rest := by
  induction k generalizing population front rest draws with
  | zero =>
      rw [mem_draws_zero_iff.1 within, Nat.add_zero, chooseFrom, h, List.take_left]
      exact (List.append_nil front).symm
  | succ k ih =>
      obtain ⟨d, later, rfl, inside, others⟩ := exists_of_mem_draws within
      rw [← length_leave d.toNat] at others
      have swapped : (population.swapIfInBounds front.length (front.length + d.toNat)).toList =
          (front ++ [rest.getD d.toNat 0]) ++ leave d.toNat rest := by
        rw [toList_swapIfInBounds h inside, List.append_assoc]
        rfl
      have next := ih swapped others
      rw [List.length_append, List.append_assoc, List.length_singleton, Nat.add_assoc,
        Nat.add_comm 1] at next
      exact next

/-- What is chosen by prepared draws are the entries that they pick. -/
theorem choose_script {population : Array Cell} {k : Nat} {draws : List UInt32}
    (h : k ≤ population.size) (within : draws ∈ Draws population.size k) :
    (choose population k (Script.mk draws)).1 = picks draws population.toList := by
  have whole : population.toList = [] ++ population.toList := rfl
  have picked := take_chooseFrom whole (Array.length_toList.symm ▸ within)
  rw [choose_eq_take, Nat.min_eq_left h]
  simpa using picked

/-- There are no more distinct entries than cells. -/
theorem length_le_of_nodup {cells : List Cell} (h : cells.Nodup) :
    cells.length ≤ UInt32.size := by
  have distinct : (cells.map UInt32.toNat).Nodup := h.map fun _ _ => UInt32.toNat_inj.1
  have below : (cells.map UInt32.toNat).toFinset ⊆ Finset.range UInt32.size := by
    intro i hi
    obtain ⟨c, -, rfl⟩ := List.mem_map.1 (List.mem_toFinset.1 hi)
    exact Finset.mem_range.2 c.toNat_lt
  have card := Finset.card_le_card below
  rwa [List.toFinset_card_of_nodup distinct, List.length_map, Finset.card_range] at card

/-- A choice of `k` entries of a population without bias. -/
structure Unbiased (population : Array Cell) (k : Nat) : Prop where
  /-- Every sequence of `k` distinct entries comes from one sequence of draws. -/
  bijOn : Set.BijOn (fun draws => (choose population k (Script.mk draws)).1)
    (Draws population.size k) (Arrangements population.toList k)
  /-- Every set of `k` entries comes from equally many. -/
  ncard : ∀ S : Finset Cell, (∀ c ∈ S, c ∈ population) → S.card = k →
    {draws ∈ Draws population.size k |
      (choose population k (Script.mk draws)).1.toFinset = S}.ncard = k !

section Unbiased

variable {population : Array Cell} {k : Nat}

/-- The sequences that can be chosen correspond to the draws. -/
theorem bijOn_choose (nodup : population.toList.Nodup) (h : k ≤ population.size) :
    Set.BijOn (fun draws => (choose population k (Script.mk draws)).1) (Draws population.size k)
      (Arrangements population.toList k) := by
  refine ⟨fun draws within => ?_, fun draws within draws' within' same => ?_, fun chosen hc => ?_⟩
  · show (choose population k (Script.mk draws)).1 ∈ _
    rw [choose_script h within]
    exact picks_mem_arrangements nodup within
  · have same : (choose population k (Script.mk draws)).1 =
        (choose population k (Script.mk draws')).1 := same
    rw [choose_script h within, choose_script h within'] at same
    exact eq_of_picks_eq nodup within within' same
  · obtain ⟨draws, within, rfl⟩ := exists_picks_eq nodup (length_le_of_nodup nodup) hc
    exact ⟨draws, within, choose_script h within⟩

/-- A set of entries can be put into as many orders as its size has factorial. -/
theorem ncard_arrangements {S : Finset Cell} (within : ∀ c ∈ S, c ∈ population)
    (card : S.card = k) :
    {chosen ∈ Arrangements population.toList k | chosen.toFinset = S}.ncard = k ! := by
  have orders : {chosen ∈ Arrangements population.toList k | chosen.toFinset = S} =
      ↑S.toList.permutations.toFinset := by
    ext chosen
    rw [Finset.mem_coe, List.mem_toFinset, List.mem_permutations]
    constructor
    · rintro ⟨⟨-, distinct, -⟩, rfl⟩
      refine List.perm_of_nodup_nodup_toFinset_eq distinct (Finset.nodup_toList _) ?_
      rw [Finset.toList_toFinset]
    · intro perm
      refine ⟨⟨?_, perm.nodup_iff.2 S.nodup_toList, fun c hc => ?_⟩, ?_⟩
      · rw [perm.length_eq, Finset.length_toList, card]
      · exact Array.mem_toList_iff.2 (within c (Finset.mem_toList.1 (perm.mem_iff.1 hc)))
      · rw [List.toFinset_eq_of_perm _ _ perm, Finset.toList_toFinset]
  rw [orders, Set.ncard_coe_finset,
    List.toFinset_card_of_nodup (List.nodup_permutations _ S.nodup_toList),
    List.length_permutations, Finset.length_toList, card]

/-- Cells are chosen without bias. -/
theorem unbiased_choose (nodup : population.toList.Nodup) (h : k ≤ population.size) :
    Unbiased population k := by
  have bijection := bijOn_choose nodup h
  refine ⟨bijection, fun S within card => ?_⟩
  rw [← ncard_arrangements within card,
    ← Set.InjOn.ncard_image (bijection.injOn.mono fun _ h => h.1)]
  congr 1
  ext chosen
  constructor
  · rintro ⟨draws, ⟨hdraws, rfl⟩, rfl⟩
    exact ⟨bijection.mapsTo hdraws, rfl⟩
  · rintro ⟨arrangement, rfl⟩
    obtain ⟨draws, hdraws, rfl⟩ := bijection.surjOn arrangement
    exact ⟨draws, ⟨hdraws, rfl⟩, rfl⟩

end Unbiased

/-! ## Random values -/

variable {α G H : Type} [RandomSource G] [LawfulRandomSource G] [RandomSource H]
  {allowed : Situation α → Move α G → Prop} {f : Forest α} {id : NodeId} {n : Node α}

/-- A canonical node is given the cells that a source chooses, in order. -/
theorem Reached.randomize (reached : Reached allowed (.quiet f)) (found : f.available? id = some n)
    (role : n.role = .canonical) (react : Reaction α) {sparsity : Float}
    (valid : Fraction.isValid sparsity = true) (h : H) :
    let k := Fraction.count sparsity n.shape.size
    let chosen := choose (CellSet.all n.shape.size).toArray k h
    ∃ g, Forest.randomize react id sparsity (f, h) = .ok ⟨⟩ (g, chosen.2) ∧
      g.Answers (Forest.sparse id) (chosen.1.mergeSort (· ≤ ·)) := by
  intro k chosen
  have isSet : Sparse.IsSet n.shape.size (chosen.1.mergeSort (· ≤ ·)) :=
    isSet_choose (Nat.le_of_lt n.shape.bounded) k h
  obtain ⟨ordered, m, there, -, shows⟩ :=
    reached.store .refl found role rfl (Cache.holds_ofSparse isSet) react
  have worked : Forest.randomValue id sparsity (f, h) =
      .ok (.ofSparse (chosen.1.mergeSort (· ≤ ·))) (f, chosen.2) := by
    have changed := Forest.mutable_of_canonical found role .randomize
    rw [Forest.randomValue, bind_of_ok (Forest.still_of_ok changed h), Fraction.check, if_pos valid]
    rfl
  refine ⟨_, bind_of_ok worked, ?_⟩
  exact Forest.answers_read ordered.sound there shows Cache.renders_readSparse

/-- The cells that a canonical node is given are those that draws stand for, if the source keeps
below its bounds. -/
theorem Reached.randomize_by_draws (reached : Reached allowed (.quiet f))
    (found : f.available? id = some n) (role : n.role = .canonical)
    (below : ∀ (bound : UInt32) (h : H), bound ≠ 0 → (RandomSource.uniformBelow bound h).1 < bound)
    (react : Reaction α) {sparsity : Float} (valid : Fraction.isValid sparsity = true) (h : H) :
    let size := n.shape.size
    let k := Fraction.count sparsity size
    let draws := (drawn size 0 k h).1
    draws ∈ Draws size k ∧ ∃ h' g cells, Forest.randomize react id sparsity (f, h) = .ok ⟨⟩ (g, h') ∧
      g.Answers (Forest.sparse id) cells ∧ Sparse.IsSet size cells ∧ cells.length = k ∧
        ∀ c, c ∈ cells ↔ c ∈ (choose (CellSet.all size).toArray k (Script.mk draws)).1 := by
  intro size k draws
  have whole : (CellSet.all size).toArray.size = size := by simp [CellSet.all]
  have inside : k ≤ size := Fraction.count_le sparsity size
  have few : k ≤ (CellSet.all size).toArray.size := whole.symm ▸ inside
  have within : draws ∈ Draws size k :=
    drawn_mem_draws below n.shape.bounded ((Nat.zero_add k).trans_le inside) h
  have same := congrArg Prod.fst (choose_eq_script (CellSet.all size).toArray few h)
  rw [whole] at same
  obtain ⟨g, changed, answers⟩ := reached.randomize found role react valid h
  refine ⟨within, _, g, _, changed, answers, ?_, ?_, fun c => ?_⟩
  · exact isSet_choose (Nat.le_of_lt n.shape.bounded) k h
  · rw [List.length_mergeSort, length_choose few]
  · rw [List.mem_mergeSort, same]

/-- Cells are chosen without bias, by the answers of a source, and a node is given cells that were
chosen from all of its own: the answers of a source that keeps below its bounds are draws, and the
active cells are those that the draws stand for, in order. -/
theorem randomize_is_unbiased :
    (∀ (population : Array Cell) (k : Nat), population.toList.Nodup → k ≤ population.size →
      Unbiased population k ∧ ∀ h : H, (choose population k h).1 =
        (choose population k (Script.mk (drawn population.size 0 k h).1)).1) ∧
    ∀ {f : Forest α} {id : NodeId} {n : Node α}, Reached allowed (.quiet f) →
      f.available? id = some n → n.role = .canonical →
      (∀ (bound : UInt32) (h : H), bound ≠ 0 → (RandomSource.uniformBelow bound h).1 < bound) →
      ∀ (react : Reaction α) (sparsity : Float), Fraction.isValid sparsity = true → ∀ h : H,
        let size := n.shape.size
        let k := Fraction.count sparsity size
        let draws := (drawn size 0 k h).1
        draws ∈ Draws size k ∧ ∃ h' g cells,
          Forest.randomize react id sparsity (f, h) = .ok ⟨⟩ (g, h') ∧
          g.Answers (Forest.sparse id) cells ∧ Sparse.IsSet size cells ∧ cells.length = k ∧
            ∀ c, c ∈ cells ↔ c ∈ (choose (CellSet.all size).toArray k (Script.mk draws)).1 := by
  refine ⟨fun population k nodup few => ⟨unbiased_choose nodup few, fun h => ?_⟩, ?_⟩
  · exact congrArg Prod.fst (choose_eq_script population few h)
  · intro f id n reached found role below react sparsity valid h
    exact reached.randomize_by_draws found role below react valid h

/-- Two of three entries are chosen in two orders each, and half of a square is made active. -/
theorem randomize_is_unbiased_two_of_three :
    let square : Shape := ⟨[2, 2], by decide, by simp, by decide⟩
    let silent : Reaction Unit := fun _ _ _ => []
    {draws ∈ Draws 3 2 | (choose #[5, 7, 9] 2 (Script.mk draws)).1.toFinset = {5, 9}}.ncard = 2 ∧
    ∃ f : Forest Unit, Reached (fun s (move : Move Unit Generator) => move.Tactful s) (.quiet f) ∧
      f.available? 0 = some (.canonical square) ∧ ∃ h' g cells,
        Forest.randomize silent 0 0.5 (f, Generator.ofSeed 1) = .ok ⟨⟩ (g, h') ∧
          g.Answers (Forest.sparse 0) cells ∧ Sparse.IsSet 4 cells ∧ cells.length = 2 := by
  intro square silent
  have created : Reached (α := Unit) (G := Generator) (fun s move => move.Tactful s) _ :=
    Reached.start.next (by rintro _ _ ⟨⟩) (.call (.create [2, 2]) rfl)
  have reached : Reached (G := Generator) (fun s move => move.Tactful s)
      (.quiet (⟨#[.canonical square], [], []⟩ : Forest Unit)) := created.next (by trivial) .forget
  obtain ⟨unbiased, randomizes⟩ := @randomize_is_unbiased Unit Generator Generator _ _ _
    fun s (move : Move Unit Generator) => move.Tactful s
  refine ⟨?_, _, reached, rfl, ?_⟩
  · exact (unbiased #[5, 7, 9] 2 (by decide) (by decide)).1.ncard {5, 9} (by simp) (by decide)
  · obtain ⟨-, h', g, cells, changed, answers, isSet, length, -⟩ :=
      @randomizes _ 0 _ reached rfl rfl (fun _ g positive => Generator.uniformBelow_lt positive g)
        silent 0.5 (by decide) (Generator.ofSeed 1)
    have half : Fraction.count 0.5 4 = 2 := by decide
    exact ⟨h', g, cells, changed, answers, isSet, length.trans half⟩

end SparseTensor
