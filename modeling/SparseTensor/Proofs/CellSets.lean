/-
# Operations on sets of cells

The walks over ascending lists compute intersection, union and complement (`mem_intersect`,
`mem_unite`, `mem_complement`) and yield sets again.
-/
import SparseTensor.CellSet
import SparseTensor.Proofs.Encodings

namespace SparseTensor.CellSet

/-! ## Intersection -/

/-- The walk keeps the cells of the first list that are in the second. -/
theorem intersectOnto_eq {found as bs : List Cell} (ha : as.Pairwise (· < ·))
    (hb : bs.Pairwise (· < ·)) :
    intersectOnto found as bs = found.reverse ++ as.filter (· ∈ bs) := by
  fun_induction intersectOnto found as bs with
  | case1 found a as b bs hab ih =>
      obtain ⟨-, has⟩ := List.pairwise_cons.1 ha
      -- the second list is in order, so all of it lies behind `a`
      have absent : a ∉ b :: bs := by
        intro h
        rcases List.mem_cons.1 h with rfl | h
        · exact UInt32.lt_irrefl a hab
        · exact UInt32.lt_asymm hab ((List.pairwise_cons.1 hb).1 a h)
      rw [ih has hb, List.filter_cons_of_neg (by simpa using absent)]
  | case2 found a as b bs hab hba ih =>
      obtain ⟨least, -⟩ := List.pairwise_cons.1 ha
      rw [ih ha (List.pairwise_cons.1 hb).2]
      congr 1
      apply List.filter_congr
      intro x hx
      have other : x ≠ b := by
        rintro rfl
        rcases List.mem_cons.1 hx with rfl | hx
        · exact UInt32.lt_irrefl x hba
        · exact UInt32.lt_asymm hba (least x hx)
      simp [other]
  | case3 found a as b bs hab hba ih =>
      obtain rfl : a = b := UInt32.le_antisymm (UInt32.not_lt.1 hba) (UInt32.not_lt.1 hab)
      obtain ⟨least, has⟩ := List.pairwise_cons.1 ha
      rw [ih has (List.pairwise_cons.1 hb).2, List.filter_cons_of_pos (by simp),
        List.reverse_cons, List.append_assoc, List.singleton_append]
      congr 2
      apply List.filter_congr
      intro x hx
      have other : x ≠ a := fun h => UInt32.lt_irrefl a (h ▸ least x hx)
      simp [other]
  | case4 found as bs h =>
      cases as with
      | nil => simp
      | cons a as =>
          cases bs with
          | nil => simp
          | cons b bs => exact absurd rfl (h a as b bs rfl)

/-- The intersection of two sets holds the cells of both. -/
theorem mem_intersect {as bs : Sparse} (ha : as.Pairwise (· < ·)) (hb : bs.Pairwise (· < ·))
    {c : Cell} : c ∈ intersect as bs ↔ c ∈ as ∧ c ∈ bs := by
  unfold intersect
  rw [intersectOnto_eq ha hb]
  simp

/-- The intersection of two sets is a set. -/
theorem isSet_intersect {size : Nat} {as bs : Sparse} (ha : Sparse.IsSet size as)
    (hb : Sparse.IsSet size bs) : Sparse.IsSet size (intersect as bs) := by
  refine ⟨?_, fun c hc => ha.bounded c ((mem_intersect ha.ascending hb.ascending).1 hc).1⟩
  unfold intersect
  rw [intersectOnto_eq ha.ascending hb.ascending]
  exact ha.ascending.sublist List.filter_sublist

/-! ## Union -/

/-- The walk keeps all cells. -/
theorem mem_uniteOnto {found as bs : List Cell} {c : Cell} :
    c ∈ uniteOnto found as bs ↔ c ∈ found ∨ c ∈ as ∨ c ∈ bs := by
  fun_induction uniteOnto found as bs with
  | case1 found bs => simp
  | case2 found as h => simp
  | case3 found a as b bs hab ih =>
      rw [ih]
      simp only [List.mem_cons]
      tauto
  | case4 found a as b bs hab hba ih =>
      rw [ih]
      simp only [List.mem_cons]
      tauto
  | case5 found a as b bs hab hba ih =>
      obtain rfl : a = b := UInt32.le_antisymm (UInt32.not_lt.1 hba) (UInt32.not_lt.1 hab)
      rw [ih]
      simp only [List.mem_cons]
      tauto

/-- A cell that lies between those found so far and those that are left is the next one. -/
theorem pairwise_between {found rest : List Cell} {c d : Cell}
    (h : (found.reverse ++ d :: rest).Pairwise (· < ·)) (behind : ∀ x ∈ found.reverse, x < c)
    (before : c < d) : ((c :: found).reverse ++ d :: rest).Pairwise (· < ·) := by
  obtain ⟨hfound, hrest, hcross⟩ := List.pairwise_append.1 h
  have hleast := (List.pairwise_cons.1 hrest).1
  simp only [List.reverse_cons, List.append_assoc, List.singleton_append]
  refine List.pairwise_append.2 ⟨hfound, List.pairwise_cons.2 ⟨?_, hrest⟩, ?_⟩
  · intro x hx
    rcases List.mem_cons.1 hx with rfl | hx
    · exact before
    · exact UInt32.lt_trans before (hleast x hx)
  · intro x hx y hy
    rcases List.mem_cons.1 hy with rfl | hy
    · exact behind x hx
    · exact hcross x hx y hy

/-- The walk keeps the order, if both lists lie behind the cells found so far. -/
theorem pairwise_uniteOnto {found as bs : List Cell}
    (ha : (found.reverse ++ as).Pairwise (· < ·)) (hb : (found.reverse ++ bs).Pairwise (· < ·)) :
    (uniteOnto found as bs).Pairwise (· < ·) := by
  fun_induction uniteOnto found as bs with
  | case1 found bs => exact hb
  | case2 found as h => exact ha
  | case3 found a as b bs hab ih =>
      have behind := (List.pairwise_append.1 ha).2.2
      apply ih
      · simpa using ha
      · exact pairwise_between hb (fun x hx => behind x hx a List.mem_cons_self) hab
  | case4 found a as b bs hab hba ih =>
      have behind := (List.pairwise_append.1 hb).2.2
      apply ih
      · exact pairwise_between ha (fun x hx => behind x hx b List.mem_cons_self) hba
      · simpa using hb
  | case5 found a as b bs hab hba ih =>
      obtain rfl : a = b := UInt32.le_antisymm (UInt32.not_lt.1 hba) (UInt32.not_lt.1 hab)
      apply ih
      · simpa using ha
      · simpa using hb

/-- The union of two lists holds the cells of either. -/
theorem mem_unite {as bs : Sparse} {c : Cell} : c ∈ unite as bs ↔ c ∈ as ∨ c ∈ bs := by
  unfold unite
  rw [mem_uniteOnto]
  simp

/-- The union of two sets is a set. -/
theorem isSet_unite {size : Nat} {as bs : Sparse} (ha : Sparse.IsSet size as)
    (hb : Sparse.IsSet size bs) : Sparse.IsSet size (unite as bs) := by
  refine ⟨pairwise_uniteOnto (by simpa using ha.ascending) (by simpa using hb.ascending), ?_⟩
  intro c hc
  rcases mem_unite.1 hc with hc | hc
  · exact ha.bounded c hc
  · exact hb.bounded c hc

/-! ## Complement -/

/-- The walk keeps the cells that are not in the second list, if all of that list lies before
it. -/
theorem withoutOnto_eq {found cs as : List Cell} (hc : cs.Pairwise (· < ·))
    (ha : as.Pairwise (· < ·)) (within : ∀ a ∈ as, a ∈ cs) :
    withoutOnto found cs as = found.reverse ++ cs.filter (· ∉ as) := by
  fun_induction withoutOnto found cs as with
  | case1 found cs c as ih =>
      obtain ⟨leastC, hcs⟩ := List.pairwise_cons.1 hc
      obtain ⟨leastA, has⟩ := List.pairwise_cons.1 ha
      have others : ∀ a ∈ as, a ∈ cs := by
        intro a hin
        rcases List.mem_cons.1 (within a (List.mem_cons_of_mem c hin)) with rfl | h
        · exact absurd (leastA a hin) (UInt32.lt_irrefl a)
        · exact h
      rw [ih hcs has others, List.filter_cons_of_neg (by simp)]
      congr 1
      apply List.filter_congr
      intro x hx
      have other : x ≠ c := fun h => UInt32.lt_irrefl c (h ▸ leastC x hx)
      simp [other]
  | case2 found c cs a as different ih =>
      obtain ⟨leastC, hcs⟩ := List.pairwise_cons.1 hc
      obtain ⟨leastA, -⟩ := List.pairwise_cons.1 ha
      -- `a` is one of the cells that are left, and it is not the first
      have later : a ∈ cs :=
        (List.mem_cons.1 (within a List.mem_cons_self)).resolve_left (Ne.symm different)
      have absent : c ∉ a :: as := by
        intro h
        rcases List.mem_cons.1 h with rfl | h
        · exact different rfl
        · exact UInt32.lt_asymm (leastC a later) (leastA c h)
      have others : ∀ x ∈ a :: as, x ∈ cs := by
        intro x hx
        rcases List.mem_cons.1 (within x hx) with rfl | h
        · exact absurd hx absent
        · exact h
      rw [ih hcs ha others, List.filter_cons_of_pos (by simpa using absent), List.reverse_cons,
        List.append_assoc]
      rfl
  | case3 cs found as h =>
      cases as with
      | nil => simp
      | cons a as =>
          cases cs with
          | nil => simp
          | cons c cs => exact absurd rfl (h c cs a as rfl)

/-- All cells below `size` are listed. -/
theorem mem_all {size : Nat} (bounded : size ≤ UInt32.size) {c : Cell} :
    c ∈ all size ↔ c.toNat < size := by
  unfold all
  rw [List.mem_map]
  constructor
  · rintro ⟨i, hi, rfl⟩
    have hi := List.mem_range.1 hi
    rwa [UInt32.toNat_ofNat_of_lt' (Nat.lt_of_lt_of_le hi bounded)]
  · intro hc
    exact ⟨c.toNat, List.mem_range.2 hc, by simp⟩

/-- All cells below `size` form a set. -/
theorem isSet_all {size : Nat} (bounded : size ≤ UInt32.size) :
    Sparse.IsSet size (all size) := by
  refine ⟨?_, fun c hc => (mem_all bounded).1 hc⟩
  unfold all
  rw [List.pairwise_map]
  refine List.Pairwise.imp_of_mem ?_ List.pairwise_lt_range
  intro i j hi hj hij
  have hi := Nat.lt_of_lt_of_le (List.mem_range.1 hi) bounded
  have hj := Nat.lt_of_lt_of_le (List.mem_range.1 hj) bounded
  rw [UInt32.lt_iff_toNat_lt, UInt32.toNat_ofNat_of_lt' hi, UInt32.toNat_ofNat_of_lt' hj]
  exact hij

/-- The complement of a set is what is left of all cells. -/
theorem complement_eq {size : Nat} (bounded : size ≤ UInt32.size) {cells : Sparse}
    (h : Sparse.IsSet size cells) : complement size cells = (all size).filter (· ∉ cells) := by
  unfold complement
  rw [withoutOnto_eq (isSet_all bounded).ascending h.ascending]
  · rfl
  · intro c hc
    exact (mem_all bounded).2 (h.bounded c hc)

/-- The complement of a set holds the other cells. -/
theorem mem_complement {size : Nat} (bounded : size ≤ UInt32.size) {cells : Sparse}
    (h : Sparse.IsSet size cells) {c : Cell} :
    c ∈ complement size cells ↔ c.toNat < size ∧ c ∉ cells := by
  rw [complement_eq bounded h]
  simp [mem_all bounded]

/-- The complement of a set is a set. -/
theorem isSet_complement {size : Nat} (bounded : size ≤ UInt32.size) {cells : Sparse}
    (h : Sparse.IsSet size cells) : Sparse.IsSet size (complement size cells) := by
  refine ⟨?_, fun c hc => ((mem_complement bounded h).1 hc).1⟩
  rw [complement_eq bounded h]
  exact (isSet_all bounded).ascending.sublist List.filter_sublist

/-! ## Several sets -/

/-- What combines two sets into one combines several into one. -/
theorem isSet_foldl {size : Nat} {op : Sparse → Sparse → Sparse}
    (isSet : ∀ {a b : Sparse}, Sparse.IsSet size a → Sparse.IsSet size b →
      Sparse.IsSet size (op a b)) {first : Sparse} {rest : List Sparse}
    (firstSet : Sparse.IsSet size first) (restSets : ∀ cells ∈ rest, Sparse.IsSet size cells) :
    Sparse.IsSet size (rest.foldl op first) := by
  induction rest generalizing first with
  | nil => exact firstSet
  | cons next rest ih =>
      obtain ⟨nextSet, others⟩ := List.forall_mem_cons.1 restSets
      exact ih (isSet firstSet nextSet) others

end SparseTensor.CellSet
