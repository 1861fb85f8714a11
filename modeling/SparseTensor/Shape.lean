/-
# Shapes

The shape of a node is its list of dimensions: at least one, none of them zero, and together
fewer cells than 32 bits can count.  `Shape.ofDims` admits exactly such lists and
`Shape.ofSize` those that describe a given number of cells.

Cells are numbered row by row.  `ravel` turns the coordinates of a cell into its number and
`unravel` turns the number back, both in machine words: the sum runs in 64 bits and only its
result is cut to 32.
-/
import SparseTensor.Fault

namespace SparseTensor

/-- The number of a cell. -/
abbrev Cell := UInt32

/-! ## Sizes -/

/-- The product of some dimensions. -/
def product (dims : List UInt32) : Nat :=
  dims.foldr (fun d n => d.toNat * n) 1

/-- The product of some dimensions and `n`, unless a product on the way there, taken from the
left, leaves 64 bits. -/
def checkedProduct (n : Nat) : List UInt32 → Option Nat
  | [] => some n
  | d :: dims =>
    if n * d.toNat < UInt64.size then checkedProduct (n * d.toNat) dims else none

/-- A product that does not overflow is the product. -/
theorem eq_of_checkedProduct {n m : Nat} {dims : List UInt32}
    (h : checkedProduct n dims = some m) : m = n * product dims := by
  induction dims generalizing n with
  | nil =>
    cases h
    simp [product]
  | cons d dims ih =>
    unfold checkedProduct at h
    split at h
    · rw [ih h]
      simp [product, Nat.mul_assoc]
    · cases h

/-- Dimensions whose product is not zero are not zero. -/
theorem ne_zero_of_product_pos {dims : List UInt32} (h : 0 < product dims) :
    ∀ d ∈ dims, d ≠ 0 := by
  induction dims with
  | nil => simp
  | cons d dims ih =>
    have both : 0 < d.toNat * product dims := h
    intro e he
    rcases List.mem_cons.1 he with rfl | he
    · rintro rfl
      simp at both
    · exact ih (Nat.pos_of_mul_pos_left both) e he

/-- Dimensions that are not zero have a product that is not zero. -/
theorem product_pos {dims : List UInt32} (h : ∀ d ∈ dims, d ≠ 0) : 0 < product dims := by
  induction dims with
  | nil => simp [product]
  | cons d dims ih =>
    have first : d.toNat ≠ 0 := fun zero =>
      h d List.mem_cons_self (UInt32.toNat_inj.1 (by simpa using zero))
    exact Nat.mul_pos (Nat.pos_of_ne_zero first) (ih fun e he => h e (List.mem_cons_of_mem _ he))

/-! ## Shapes -/

/-- Dimensions that a node can have. -/
structure Shape where
  dims : List UInt32
  nonempty : dims ≠ []
  positive : ∀ d ∈ dims, d ≠ 0
  bounded : product dims < UInt32.size
  deriving DecidableEq

namespace Shape

/-- The number of cells. -/
def size (s : Shape) : Nat := product s.dims

/-- The number of dimensions. -/
def rank (s : Shape) : Nat := s.dims.length

/-- A shape has a cell. -/
theorem size_pos (s : Shape) : 0 < s.size := product_pos s.positive

/-- The shape with the given dimensions, all of them positive and their product in bounds. -/
def ofDims (dims : List UInt32) : Except ArgumentFault Shape :=
  if nonempty : dims = [] then .error (.invalidValue .noDimensions)
  else
    match zero : dims.findIdx? (· = 0) with
    | some position => .error (.invalidValue (.zeroDimension position))
    | none =>
      match size : checkedProduct 1 dims with
      | none => .error (.invalidValue (.tooManyCells dims))
      | some n =>
        if bounded : n < UInt32.size then
          .ok {
            dims
            nonempty
            positive := by
              rw [List.findIdx?_eq_none_iff] at zero
              intro d hd
              simpa using zero d hd
            bounded := by
              rw [eq_of_checkedProduct size] at bounded
              simpa using bounded }
        else .error (.invalidValue (.tooManyCells dims))

/-- The shape with the given dimensions, which have to describe as many cells as `s` does. -/
def reshape (s : Shape) (dims : List UInt32) : Except ArgumentFault Shape :=
  if nonempty : dims = [] then .error (.invalidValue .noViewDimensions)
  else
    match size : checkedProduct 1 dims with
    | none => .error (.dimensionMismatch s.size (UInt64.size - 1))
    | some n =>
      if same : n = s.size then
        have total : product dims = s.size := by
          have := eq_of_checkedProduct size
          omega
        .ok {
          dims
          nonempty
          positive := ne_zero_of_product_pos (total ▸ s.size_pos)
          bounded := total ▸ s.bounded }
      else .error (.dimensionMismatch s.size n)

/-! ## Numbers and coordinates of cells -/

/-- The number of the cell at some coordinates. -/
def ravel (s : Shape) (coords : List UInt32) : Cell :=
  let step (flat : UInt64) (digit : UInt32 × UInt32) : UInt64 :=
    flat * digit.2.toUInt64 + digit.1.toUInt64
  ((coords.zip s.dims).foldl step 0).toUInt32

/-- The coordinates of the cell with some number: the last one is the remainder by the last
dimension, and the quotient is left for the ones before it. -/
def unravel (s : Shape) (cell : Cell) : List UInt32 :=
  (s.dims.foldr (fun d (coords, rest) => (rest % d :: coords, rest / d)) ([], cell)).1

/-- Refuse coordinates that are not one per dimension, or not below it. -/
def checkCoordinates (s : Shape) (coords : List UInt32) : Except ArgumentFault Unit :=
  if coords.length ≠ s.rank then .error (.invalidLength s.rank coords.length)
  else
    match (coords.zip s.dims).find? fun (i, d) => d ≤ i with
    | some (i, d) => .error (.indexOutOfRange i.toNat d.toNat)
    | none => .ok ()

end Shape

end SparseTensor
