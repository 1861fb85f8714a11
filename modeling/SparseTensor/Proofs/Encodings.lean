/-
# Encodings of one set

The strictly ascending list of cells is the form of a set to which the other encodings are
compared: `Dense.ofSparse` and `Coordinates.ofSparse` render it, and `toSparse` takes every
encoding back to it.  What the checks admit is the rendering of exactly one such list.
-/
import Mathlib.Data.List.Sort
import SparseTensor.Encoding
import SparseTensor.Proofs.Numbering

namespace SparseTensor

/-! ## Sparse -/

namespace Sparse

/-- A list of cells that is a set of cells below `size`, each named once and in order. -/
structure IsSet (size : Nat) (cells : Sparse) : Prop where
  ascending : cells.Pairwise (· < ·)
  bounded : ∀ c ∈ cells, c.toNat < size

/-- The empty list is a set. -/
theorem isSet_nil (size : Nat) : IsSet size [] :=
  ⟨List.Pairwise.nil, by simp⟩

/-- Sets with the same cells are the same list. -/
theorem IsSet.ext {m n : Nat} {a b : Sparse} (ha : IsSet m a) (hb : IsSet n b)
    (h : ∀ c, c ∈ a ↔ c ∈ b) : a = b :=
  ha.ascending.eq_of_mem_iff hb.ascending h

/-- A check from some position on admits the sets whose cells lie behind the previous one. -/
theorem checkFrom_eq_ok_iff {size position : Nat} {previous : Option Cell} {cells : List Cell} :
    checkFrom size position previous cells = .ok () ↔
      IsSet size cells ∧ ∀ p ∈ previous, ∀ c ∈ cells, p < c := by
  induction cells generalizing position previous with
  | nil => simp [checkFrom, isSet_nil]
  | cons c rest ih =>
      unfold checkFrom
      split
      · rename_i outside
        constructor
        · intro h
          cases h
        · rintro ⟨h, -⟩
          have := h.bounded c List.mem_cons_self
          omega
      split
      · rename_i inside unordered
        obtain ⟨p, hp, hcp⟩ := (Option.any_eq_true _ _).1 unordered
        constructor
        · intro h
          cases h
        · rintro ⟨-, h⟩
          exact absurd (h p hp c List.mem_cons_self) (UInt32.not_lt.2 (by simpa using hcp))
      · rename_i inside ordered
        rw [ih]
        constructor
        · rintro ⟨hrest, hc⟩
          -- the others were checked with `c` in front of them
          have hc : ∀ d ∈ rest, c < d := hc c rfl
          refine ⟨⟨List.pairwise_cons.2 ⟨hc, hrest.ascending⟩, ?_⟩, ?_⟩
          · intro d hd
            rcases List.mem_cons.1 hd with rfl | hd
            · omega
            · exact hrest.bounded d hd
          · intro p hp d hd
            have hpc : p < c := by
              simp only [Option.any_eq_true, not_exists, not_and] at ordered
              simpa using ordered p hp
            rcases List.mem_cons.1 hd with rfl | hd
            · exact hpc
            · exact UInt32.lt_trans hpc (hc d hd)
        · rintro ⟨h, -⟩
          obtain ⟨hc, hrest⟩ := List.pairwise_cons.1 h.ascending
          refine ⟨⟨hrest, fun d hd => h.bounded d (List.mem_cons_of_mem c hd)⟩, ?_⟩
          rintro p ⟨⟩ d hd
          exact hc d hd

/-- The check admits exactly the sets. -/
theorem check_eq_ok_iff {size : Nat} {cells : List Cell} :
    check size cells = .ok () ↔ IsSet size cells := by
  unfold check
  rw [checkFrom_eq_ok_iff]
  simp

/-- Sorting a list without repetitions gives a set. -/
theorem isSet_mergeSort {size : Nat} {cells : List Cell} (nodup : cells.Nodup)
    (bounded : ∀ c ∈ cells, c.toNat < size) : IsSet size (cells.mergeSort (· ≤ ·)) := by
  refine ⟨?_, fun c hc => bounded c (List.mem_mergeSort.1 hc)⟩
  have sorted : (cells.mergeSort (· ≤ ·)).Pairwise (· ≤ ·) := List.pairwise_mergeSort' _ _
  have distinct : (cells.mergeSort (· ≤ ·)).Pairwise (· ≠ ·) :=
    (List.mergeSort_perm cells _).nodup_iff.2 nodup
  exact (sorted.and distinct).imp fun ⟨le, ne⟩ => UInt32.lt_of_le_of_ne le ne

/-- A set is sorted already. -/
theorem IsSet.mergeSort_eq {size : Nat} {cells : Sparse} (h : IsSet size cells) :
    cells.mergeSort (· ≤ ·) = cells := by
  apply List.mergeSort_of_pairwise
  refine h.ascending.imp ?_
  intro a b hab
  simpa using UInt32.le_of_lt hab

end Sparse

/-! ## Dense -/

namespace Dense

/-- Setting bits keeps their number. -/
theorem size_ofSparse (size : Nat) (cells : Sparse) : (ofSparse size cells).size = size := by
  have kept : ∀ d : Dense, (cells.foldl (fun d c => d.setIfInBounds c.toNat true) d).size =
      d.size := by
    induction cells with
    | nil => intro d; rfl
    | cons c cells ih =>
        intro d
        rw [List.foldl_cons, ih, Array.size_setIfInBounds]
  unfold ofSparse
  rw [kept, Array.size_replicate]

/-- Exactly the bits of the given cells are set. -/
theorem getElem?_foldl_set (cells : Sparse) (d : Dense) (i : Nat) :
    (cells.foldl (fun d c => d.setIfInBounds c.toNat true) d)[i]? =
      if ∃ c ∈ cells, c.toNat = i then d[i]?.map fun _ => true else d[i]? := by
  induction cells generalizing d with
  | nil => simp
  | cons c cells ih =>
      rw [List.foldl_cons, ih, Array.getElem?_setIfInBounds]
      by_cases later : ∃ e ∈ cells, e.toNat = i
      · have sooner : ∃ e ∈ c :: cells, e.toNat = i := by
          obtain ⟨e, he, hi⟩ := later
          exact ⟨e, List.mem_cons_of_mem c he, hi⟩
        rw [if_pos later, if_pos sooner]
        split
        · rename_i here
          subst here
          by_cases inside : c.toNat < d.size
          · simp [inside]
          · simp [inside]
        · rfl
      · rw [if_neg later]
        by_cases here : c.toNat = i
        · have held : ∃ e ∈ c :: cells, e.toNat = i := ⟨c, List.mem_cons_self, here⟩
          subst here
          rw [if_pos held]
          by_cases inside : c.toNat < d.size
          · simp [inside]
          · simp [inside]
        · rw [if_neg here, if_neg]
          rintro ⟨e, he, hi⟩
          rcases List.mem_cons.1 he with rfl | he
          · exact here hi
          · exact later ⟨e, he, hi⟩

/-- The bit at a place tells whether its cell is in the set. -/
theorem getElem?_ofSparse {size i : Nat} (cells : Sparse) (h : i < size) :
    (ofSparse size cells)[i]? = some (decide (∃ c ∈ cells, c.toNat = i)) := by
  unfold ofSparse
  rw [getElem?_foldl_set, Array.getElem?_replicate, if_pos h]
  by_cases held : ∃ c ∈ cells, c.toNat = i
  · rw [if_pos held, decide_eq_true held]
    rfl
  · rw [if_neg held, decide_eq_false held]

/-- The bit of a cell below `size` is set exactly when the cell is in the set. -/
theorem getElem?_ofSparse_eq_true_iff {size : Nat} {cells : Sparse} {c : Cell}
    (h : c.toNat < size) : (ofSparse size cells)[c.toNat]? = some true ↔ c ∈ cells := by
  rw [getElem?_ofSparse cells h]
  simp [UInt32.toNat_inj]

/-- The cells whose bits are set, the first bit being that of cell `n`. -/
theorem pairwise_setCells (bits : List Bool) (n : Nat) (h : n + bits.length ≤ UInt32.size) :
    ((bits.zipIdx n).filterMap fun (b, i) => if b then some i.toUInt32 else none).Pairwise
        (· < ·) ∧
      ∀ c ∈ (bits.zipIdx n).filterMap fun (b, i) => if b then some i.toUInt32 else none,
        n ≤ c.toNat := by
  induction bits generalizing n with
  | nil => simp
  | cons b bits ih =>
      rw [List.length_cons] at h
      obtain ⟨ascending, behind⟩ := ih (n + 1) (by omega)
      rw [List.zipIdx_cons, List.filterMap_cons]
      cases b with
      | false => exact ⟨ascending, fun c hc => by have := behind c hc; omega⟩
      | true =>
          have value : n.toUInt32.toNat = n := UInt32.toNat_ofNat_of_lt' (by omega)
          refine ⟨List.pairwise_cons.2 ⟨fun c hc => ?_, ascending⟩, fun c hc => ?_⟩
          · rw [UInt32.lt_iff_toNat_lt, value]
            exact behind c hc
          · rcases List.mem_cons.1 hc with rfl | hc
            · exact value.ge
            · have := behind c hc
              omega

/-- The cells whose bits are set are in order. -/
theorem pairwise_toSparse {d : Dense} (h : d.size ≤ UInt32.size) :
    d.toSparse.Pairwise (· < ·) :=
  (pairwise_setCells d.toList 0 (by simpa using h)).1

/-- A cell is found exactly when its bit is set. -/
theorem mem_toSparse {d : Dense} (h : d.size ≤ UInt32.size) {c : Cell} :
    c ∈ d.toSparse ↔ d[c.toNat]? = some true := by
  unfold toSparse
  rw [List.mem_filterMap]
  constructor
  · rintro ⟨⟨b, i⟩, hb, hc⟩
    rw [List.mem_zipIdx_iff_getElem?, Array.getElem?_toList] at hb
    obtain ⟨inside, -⟩ := Array.getElem?_eq_some_iff.1 hb
    have value : i.toUInt32.toNat = i := UInt32.toNat_ofNat_of_lt' (Nat.lt_of_lt_of_le inside h)
    cases b with
    | false => cases hc
    | true =>
        cases hc
        rw [value]
        exact hb
  · intro hc
    refine ⟨(true, c.toNat), ?_, by simp⟩
    rw [List.mem_zipIdx_iff_getElem?, Array.getElem?_toList]
    exact hc

/-- The cells whose bits are set form a set. -/
theorem isSet_toSparse {d : Dense} (h : d.size ≤ UInt32.size) :
    Sparse.IsSet d.size d.toSparse := by
  refine ⟨pairwise_toSparse h, fun c hc => ?_⟩
  exact (Array.getElem?_eq_some_iff.1 ((mem_toSparse h).1 hc)).1

/-- As many cells are found as there are set bits. -/
theorem length_toSparse (d : Dense) : d.toSparse.length = d.sum := by
  have counted : ∀ (bits : List Bool) (n : Nat),
      ((bits.zipIdx n).filterMap fun (b, i) => if b then some i.toUInt32 else none).length =
        bits.count true := by
    intro bits
    induction bits with
    | nil => intro n; rfl
    | cons b bits ih =>
        intro n
        rw [List.zipIdx_cons, List.filterMap_cons]
        cases b <;> simp [ih]
  unfold toSparse sum
  rw [counted, Array.count_toList]

/-- A set is found again from its bits. -/
theorem toSparse_ofSparse {size : Nat} {cells : Sparse} (h : Sparse.IsSet size cells)
    (bounded : size ≤ UInt32.size) : (ofSparse size cells).toSparse = cells := by
  have fits : (ofSparse size cells).size ≤ UInt32.size := by
    rw [size_ofSparse]
    exact bounded
  refine (isSet_toSparse fits).ext h fun c => ?_
  rw [mem_toSparse fits]
  by_cases inside : c.toNat < size
  · exact getElem?_ofSparse_eq_true_iff inside
  · rw [Array.getElem?_eq_none (by rw [size_ofSparse]; omega)]
    constructor
    · intro h
      cases h
    · intro hc
      exact absurd (h.bounded c hc) inside

/-- Bits are found again from the set of cells that they are. -/
theorem ofSparse_toSparse {d : Dense} (h : d.size ≤ UInt32.size) :
    ofSparse d.size d.toSparse = d := by
  apply Array.ext_getElem?
  intro i
  by_cases inside : i < d.size
  · rw [getElem?_ofSparse _ inside, Array.getElem?_eq_getElem inside]
    have value : i.toUInt32.toNat = i := UInt32.toNat_ofNat_of_lt' (Nat.lt_of_lt_of_le inside h)
    have held : (∃ c ∈ d.toSparse, c.toNat = i) ↔ d[i] = true := by
      constructor
      · rintro ⟨c, hc, rfl⟩
        have := (mem_toSparse h).1 hc
        rw [Array.getElem?_eq_getElem inside] at this
        exact Option.some.inj this
      · intro hd
        refine ⟨i.toUInt32, (mem_toSparse h).2 ?_, value⟩
        rw [value, Array.getElem?_eq_getElem inside, hd]
    cases hd : d[i] with
    | false => simp [held, hd]
    | true => simp [held, hd]
  · rw [Array.getElem?_eq_none (by rw [size_ofSparse]; omega),
      Array.getElem?_eq_none (Nat.le_of_not_lt inside)]

/-- Bytes that are admitted give one bit per cell. -/
theorem size_of_ofBytes {size : Nat} {bytes : List UInt8} {d : Dense}
    (h : ofBytes size bytes = .ok d) : d.size = size := by
  unfold ofBytes at h
  split at h
  · cases h
  · rename_i same
    split at h
    · cases h
    · cases h
      simpa using same

end Dense

end SparseTensor
