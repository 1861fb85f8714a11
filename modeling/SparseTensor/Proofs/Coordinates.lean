/-
# Coordinate lists

Coordinate lists hold one row per dimension and one column per cell.  `transpose` exchanges the
two (`transpose_transpose`), so lists that the check admits name a set of cells
(`isSet_toSparse`), and in row-major order they are its rendering (`rowMajor_eq_ofSparse`).
-/
import SparseTensor.Proofs.Encodings

namespace SparseTensor.Coordinates

/-! ## Rows and columns -/

/-- The first row heads the columns of the others. -/
theorem transpose_cons (n : Nat) (row : List UInt32) (rows : List (List UInt32)) :
    transpose n (row :: rows) = List.zipWith (· :: ·) row (transpose n rows) := rfl

/-- A column with a new head is one of the columns, with one of the heads. -/
theorem exists_of_mem_zipWith_cons {row p : List UInt32} {columns : List (List UInt32)}
    (h : p ∈ List.zipWith (· :: ·) row columns) :
    ∃ a ∈ row, ∃ q ∈ columns, p = a :: q := by
  rw [← List.map_uncurry_zip_eq_zipWith] at h
  obtain ⟨⟨a, q⟩, hq, rfl⟩ := List.mem_map.1 h
  obtain ⟨ha, hq⟩ := List.of_mem_zip hq
  exact ⟨a, ha, q, hq, rfl⟩

/-- There are as many columns as entries in each row. -/
theorem length_transpose {n : Nat} {rows : List (List UInt32)} (h : ∀ r ∈ rows, r.length = n) :
    (transpose n rows).length = n := by
  induction rows with
  | nil => simp [transpose]
  | cons row rows ih =>
      rw [transpose_cons, List.length_zipWith, ih fun r hr => h r (List.mem_cons_of_mem row hr),
        h row List.mem_cons_self, Nat.min_self]

/-- A column has as many entries as there are rows. -/
theorem length_of_mem_transpose {n : Nat} {rows : List (List UInt32)} :
    ∀ column ∈ transpose n rows, column.length = rows.length := by
  induction rows with
  | nil =>
      intro column h
      rw [List.eq_of_mem_replicate h]
      rfl
  | cons row rows ih =>
      intro column h
      rw [transpose_cons] at h
      obtain ⟨a, -, q, hq, rfl⟩ := exists_of_mem_zipWith_cons h
      rw [List.length_cons, List.length_cons, ih q hq]

/-- Columns with new heads have the heads as their first row. -/
theorem transpose_zipWith_cons {row : List UInt32} {columns : List (List UInt32)}
    (h : row.length = columns.length) (k : Nat) :
    transpose (k + 1) (List.zipWith (· :: ·) row columns) = row :: transpose k columns := by
  induction row generalizing columns with
  | nil =>
      rw [List.eq_nil_of_length_eq_zero h.symm]
      rfl
  | cons a row ih =>
      cases columns with
      | nil => cases h
      | cons column columns =>
          rw [List.zipWith_cons_cons, transpose_cons, ih (Nat.succ.inj h), transpose_cons]
          rfl

/-- Exchanging rows and columns twice changes nothing. -/
theorem transpose_transpose {n : Nat} {rows : List (List UInt32)}
    (h : ∀ r ∈ rows, r.length = n) : transpose rows.length (transpose n rows) = rows := by
  induction rows with
  | nil =>
      show transpose 0 (List.replicate n []) = []
      induction n with
      | zero => rfl
      | succ n ih =>
          rw [List.replicate_succ, transpose_cons]
          rfl
  | cons row rows ih =>
      have others : ∀ r ∈ rows, r.length = n := fun r hr => h r (List.mem_cons_of_mem row hr)
      rw [List.length_cons, transpose_cons, transpose_zipWith_cons, ih others]
      rw [length_transpose others, h row List.mem_cons_self]

/-! ## The rendering of a set -/

/-- The rendering of cells has one list per dimension. -/
theorem length_ofSparse (shape : Shape) (cells : Sparse) :
    (ofSparse shape cells).length = shape.rank := by
  apply length_transpose
  intro column h
  obtain ⟨c, -, rfl⟩ := List.mem_map.1 h
  exact (shape.fits_unravel c).length_eq

/-- Each list of the rendering has one entry per cell. -/
theorem length_of_mem_ofSparse {shape : Shape} {cells : Sparse} :
    ∀ list ∈ ofSparse shape cells, list.length = cells.length := by
  intro list h
  rw [length_of_mem_transpose list h, List.length_map]

/-- The rendering names as many cells as there are. -/
theorem count_ofSparse (shape : Shape) (cells : Sparse) :
    (ofSparse shape cells).count = cells.length := by
  have rank : (ofSparse shape cells).length = shape.dims.length := length_ofSparse shape cells
  have lengths : ∀ list ∈ ofSparse shape cells, list.length = cells.length :=
    length_of_mem_ofSparse
  cases hrows : ofSparse shape cells with
  | nil =>
      rw [hrows] at rank
      exact absurd (List.eq_nil_of_length_eq_zero rank.symm) shape.nonempty
  | cons first rest =>
      rw [hrows] at lengths
      exact lengths first List.mem_cons_self

/-- The columns of the rendering are the coordinates of the cells. -/
theorem points_ofSparse (shape : Shape) (cells : Sparse) :
    (ofSparse shape cells).points = cells.map shape.unravel := by
  unfold points
  rw [count_ofSparse]
  have columns : ∀ p ∈ cells.map shape.unravel, p.length = shape.rank := by
    intro p h
    obtain ⟨c, -, rfl⟩ := List.mem_map.1 h
    exact (shape.fits_unravel c).length_eq
  have back := transpose_transpose columns
  rw [List.length_map] at back
  exact back

/-- A set is found again from its coordinates. -/
theorem toSparse_ofSparse {shape : Shape} {cells : Sparse} (h : Sparse.IsSet shape.size cells) :
    (ofSparse shape cells).toSparse shape = cells := by
  unfold toSparse
  rw [points_ofSparse, List.map_map]
  have same : cells.map (shape.ravel ∘ shape.unravel) = cells := by
    conv => rhs; rw [← List.map_id cells]
    apply List.map_congr_left
    intro c hc
    exact Shape.ravel_unravel (h.bounded c hc)
  rw [same, h.mergeSort_eq]

/-! ## The check -/

/-- Coordinate lists of `n` cells that stay below their dimensions. -/
def InBounds (n : Nat) (coords : Coordinates) (dims : List UInt32) : Prop :=
  List.Forall₂ (fun list d => list.length = n ∧ ∀ i ∈ list, i < d) coords dims

/-- One more column that fits keeps the rows in bounds. -/
theorem InBounds.cons {n : Nat} {p dims : List UInt32} {rows : Coordinates}
    (first : Fits p dims) (rest : InBounds n rows dims) :
    InBounds (n + 1) (List.zipWith (· :: ·) p rows) dims := by
  induction first generalizing rows with
  | nil => exact List.Forall₂.nil
  | cons hi _ ih =>
      cases rest with
      | cons row rest =>
          refine List.Forall₂.cons ⟨by simp [row.1], ?_⟩ (ih rest)
          intro i hmem
          rcases List.mem_cons.1 hmem with rfl | hmem
          · exact hi
          · exact row.2 i hmem

/-- The rows of columns that fit are in bounds. -/
theorem inBounds_transpose {columns : List (List UInt32)} {dims : List UInt32}
    (h : ∀ p ∈ columns, Fits p dims) :
    InBounds columns.length (transpose dims.length columns) dims := by
  induction columns with
  | nil =>
      show InBounds 0 (List.replicate dims.length []) dims
      clear h
      induction dims with
      | nil => exact List.Forall₂.nil
      | cons d dims ih => exact List.Forall₂.cons ⟨rfl, by simp⟩ ih
  | cons p columns ih =>
      rw [transpose_cons, List.length_cons]
      exact (ih fun q hq => h q (List.mem_cons_of_mem p hq)).cons (h p List.mem_cons_self)

/-- The rendering of some cells is in bounds. -/
theorem inBounds_ofSparse (shape : Shape) (cells : Sparse) :
    InBounds cells.length (ofSparse shape cells) shape.dims := by
  have fits : ∀ p ∈ cells.map shape.unravel, Fits p shape.dims := by
    intro p hp
    obtain ⟨c, -, rfl⟩ := List.mem_map.1 hp
    exact shape.fits_unravel c
  have rows := inBounds_transpose fits
  rwa [List.length_map] at rows

/-- The rows of lists in bounds are equally long. -/
theorem InBounds.length_eq {n : Nat} {coords : Coordinates} {dims : List UInt32}
    (h : InBounds n coords dims) : ∀ list ∈ coords, list.length = n := by
  induction h with
  | nil => simp
  | cons first _ ih =>
      intro list hlist
      rcases List.mem_cons.1 hlist with rfl | hlist
      · exact first.1
      · exact ih list hlist

/-- The columns of lists in bounds fit the dimensions. -/
theorem InBounds.fits {n : Nat} {coords : Coordinates} {dims : List UInt32}
    (h : InBounds n coords dims) : ∀ p ∈ transpose n coords, Fits p dims := by
  induction h with
  | nil =>
      intro p hp
      rw [List.eq_of_mem_replicate hp]
      exact List.Forall₂.nil
  | cons first _ ih =>
      intro p hp
      rw [transpose_cons] at hp
      obtain ⟨a, ha, q, hq, rfl⟩ := exists_of_mem_zipWith_cons hp
      exact List.Forall₂.cons (first.2 a ha) (ih q hq)

/-- The check of the lists admits those of equal length that stay below their dimensions. -/
theorem checkLists_eq_ok_iff {expected : Nat} {pairs : List (List UInt32 × UInt32)} :
    checkLists expected pairs = .ok () ↔
      ∀ pair ∈ pairs, pair.1.length = expected ∧ ∀ i ∈ pair.1, i < pair.2 := by
  induction pairs with
  | nil => simp [checkLists]
  | cons pair pairs ih =>
      obtain ⟨list, bound⟩ := pair
      unfold checkLists
      split
      · rename_i other
        simp [other]
      · rename_i same
        have same : list.length = expected := not_not.1 same
        split
        · rename_i i found
          have outside := List.find?_some found
          have member := List.mem_of_find?_eq_some found
          constructor
          · intro h
            cases h
          · intro h
            have := (h (list, bound) List.mem_cons_self).2 i member
            exact absurd this (UInt32.not_lt.2 (by simpa using outside))
        · rename_i none
          rw [List.find?_eq_none] at none
          have below : ∀ i ∈ list, i < bound := by
            intro i hi
            exact UInt32.not_le.1 (by simpa using none i hi)
          rw [ih, List.forall_mem_cons]
          exact ⟨fun h => ⟨⟨same, below⟩, h⟩, fun h => h.2⟩

/-- In an ascending list no cell is followed by itself exactly when it is strictly ascending. -/
theorem repeated?_eq_none_iff {cells : List Cell} (h : cells.Pairwise (· ≤ ·)) :
    repeated? cells = none ↔ cells.Pairwise (· < ·) := by
  induction cells with
  | nil => simp [repeated?]
  | cons a cells ih =>
      cases cells with
      | nil => simp [repeated?]
      | cons b cells =>
          obtain ⟨least, others⟩ := List.pairwise_cons.1 h
          unfold repeated?
          split
          · rename_i same
            subst same
            constructor
            · intro h
              cases h
            · intro h
              exact absurd ((List.pairwise_cons.1 h).1 a List.mem_cons_self) (UInt32.lt_irrefl a)
          · rename_i different
            rw [ih others]
            constructor
            · intro ascending
              have hab : a < b := UInt32.lt_of_le_of_ne (least b List.mem_cons_self) different
              refine List.pairwise_cons.2 ⟨fun c hc => ?_, ascending⟩
              rcases List.mem_cons.1 hc with rfl | hc
              · exact hab
              · exact UInt32.lt_trans hab ((List.pairwise_cons.1 ascending).1 c hc)
            · intro ascending
              exact (List.pairwise_cons.1 ascending).2

/-- The numbers of the cells are ascending. -/
theorem pairwise_toSparse (shape : Shape) (coords : Coordinates) :
    (coords.toSparse shape).Pairwise (· ≤ ·) :=
  List.pairwise_mergeSort' _ _

/-- One list for each dimension passes the check of the lists if it is in bounds. -/
theorem checkLists_eq_ok_iff_inBounds {shape : Shape} {coords : Coordinates}
    (rank : coords.length = shape.rank) :
    checkLists coords.count (coords.zip shape.dims) = .ok () ↔
      InBounds coords.count coords shape.dims := by
  rw [checkLists_eq_ok_iff]
  unfold InBounds
  rw [List.forall₂_iff_zip]
  constructor
  · intro h
    exact ⟨rank, fun hp => h _ hp⟩
  · rintro ⟨-, h⟩ ⟨list, d⟩ hp
    exact h hp

/-- The check admits lists that fit the shape and name no cell twice. -/
theorem check_eq_ok_iff {shape : Shape} {coords : Coordinates} :
    check shape coords = .ok () ↔
      InBounds coords.count coords shape.dims ∧ (coords.toSparse shape).Pairwise (· < ·) := by
  rw [← repeated?_eq_none_iff (pairwise_toSparse shape coords)]
  unfold check
  by_cases rank : coords.length = shape.rank
  · rw [← checkLists_eq_ok_iff_inBounds rank]
    cases checkLists coords.count (coords.zip shape.dims) with
    | error fault => simp [rank, bind, Except.bind]
    | ok u =>
        cases repeated? (coords.toSparse shape) <;>
          simp [rank, bind, Except.bind, pure, Except.pure]
  · constructor
    · intro h
      simp [rank, bind, Except.bind] at h
    · rintro ⟨h, -⟩
      exact absurd (List.Forall₂.length_eq h) rank

/-! ## Lists that are admitted -/

/-- The columns of lists that are admitted fit the shape. -/
theorem fits_of_check {shape : Shape} {coords : Coordinates} (h : check shape coords = .ok ()) :
    ∀ p ∈ coords.points, Fits p shape.dims :=
  (check_eq_ok_iff.1 h).1.fits

/-- Lists that are admitted name a set of cells. -/
theorem isSet_toSparse {shape : Shape} {coords : Coordinates} (h : check shape coords = .ok ()) :
    Sparse.IsSet shape.size (coords.toSparse shape) := by
  refine ⟨(check_eq_ok_iff.1 h).2, fun c hc => ?_⟩
  obtain ⟨p, hp, rfl⟩ := List.mem_map.1 (List.mem_mergeSort.1 hc)
  exact Shape.toNat_ravel_lt (fits_of_check h p hp)

/-- Lists that are admitted, put into row-major order, are the rendering of their set. -/
theorem rowMajor_eq_ofSparse {shape : Shape} {coords : Coordinates}
    (h : check shape coords = .ok ()) :
    coords.rowMajor shape = ofSparse shape (coords.toSparse shape) := by
  have numbers :
      (coords.points.mergeSort fun p q => shape.ravel p ≤ shape.ravel q).map shape.ravel =
        coords.toSparse shape :=
    List.map_mergeSort fun p _ q _ => rfl
  have columns : (coords.points.mergeSort fun p q => shape.ravel p ≤ shape.ravel q) =
      (coords.toSparse shape).map shape.unravel := by
    rw [← numbers, List.map_map]
    conv => lhs; rw [← List.map_id (coords.points.mergeSort _)]
    apply List.map_congr_left
    intro p hp
    exact (Shape.unravel_ravel (fits_of_check h p (List.mem_mergeSort.1 hp))).symm
  unfold rowMajor ofSparse
  rw [columns]

end SparseTensor.Coordinates
