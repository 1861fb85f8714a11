/-
# Numbering the cells of a shape

Coordinates that fit some dimensions stand for a number in mixed radix.  `ravel` computes that
number in machine words and never leaves them (`toNat_ravel`), and `unravel` finds the
coordinates again (`unravel_ravel`, `ravel_unravel`).  Numbers grow with the coordinates, read
from the first on (`number_lt_number_iff`).
-/
import Mathlib.Data.List.Forall2
import Mathlib.Tactic.Ring
import SparseTensor.Shape

namespace SparseTensor

/-- Coordinates fit dimensions when there is one for each and it is below it. -/
def Fits (coords dims : List UInt32) : Prop :=
  List.Forall₂ (· < ·) coords dims

/-- The number of the cell at some coordinates, row by row. -/
def number : List UInt32 → List UInt32 → Nat
  | _ :: dims, i :: coords => i.toNat * product dims + number dims coords
  | _, _ => 0

/-! ## Numbers in mixed radix -/

/-- The number of coordinates that fit is below the product of the dimensions. -/
theorem number_lt_product {coords dims : List UInt32} (h : Fits coords dims) :
    number dims coords < product dims := by
  induction h with
  | nil => simp [number, product]
  | @cons i d coords dims hi _ ih =>
      have hi : i.toNat + 1 ≤ d.toNat := UInt32.lt_iff_toNat_lt.1 hi
      calc i.toNat * product dims + number dims coords
          < i.toNat * product dims + product dims := by omega
        _ = (i.toNat + 1) * product dims := by rw [Nat.succ_mul]
        _ ≤ d.toNat * product dims := Nat.mul_le_mul_right _ hi

/-- Coordinates come before others exactly when their number is less. -/
theorem number_lt_number_iff {dims a b : List UInt32} (ha : Fits a dims) (hb : Fits b dims) :
    number dims a < number dims b ↔ a < b := by
  induction ha generalizing b with
  | nil =>
      cases hb
      simp [number]
  | @cons i d a dims _ fits ih =>
      cases hb with
      | @cons j _ b _ _ fits' =>
          have hsmall := number_lt_product fits
          have hsmall' := number_lt_product fits'
          rw [List.cons_lt_cons_iff, ← ih fits', UInt32.lt_iff_toNat_lt, ← UInt32.toNat_inj]
          simp only [number]
          rcases Nat.lt_trichotomy i.toNat j.toNat with hij | hij | hij
          · have := Nat.mul_le_mul_right (product dims) hij
            rw [Nat.succ_mul] at this
            constructor
            · intro _
              exact Or.inl hij
            · intro _
              omega
          · rw [hij]
            omega
          · have := Nat.mul_le_mul_right (product dims) hij
            rw [Nat.succ_mul] at this
            omega

/-- Coordinates that fit are determined by their number. -/
theorem eq_of_number_eq {dims a b : List UInt32} (ha : Fits a dims) (hb : Fits b dims)
    (h : number dims a = number dims b) : a = b := by
  have hab : ¬ a < b := by
    rw [← number_lt_number_iff ha hb]
    omega
  have hba : ¬ b < a := by
    rw [← number_lt_number_iff hb ha]
    omega
  exact List.le_antisymm (List.not_lt.1 hba) (List.not_lt.1 hab)

namespace Shape

/-! ## Machine words -/

/-- One step of the sum that `ravel` forms. -/
def ravelStep (flat : UInt64) (digit : UInt32 × UInt32) : UInt64 :=
  flat * digit.2.toUInt64 + digit.1.toUInt64

/-- A step stays within 32 bits, and so does what is still to come, as long as the number that the
sum stands for does. -/
theorem toNat_ravelStep {flat : UInt64} {i d : UInt32} {rest : Nat} (hi : i < d) (hpos : 0 < rest)
    (h : (flat.toNat + 1) * (d.toNat * rest) ≤ UInt32.size) :
    flat.toNat * d.toNat + i.toNat < UInt32.size ∧
      (ravelStep flat (i, d)).toNat = flat.toNat * d.toNat + i.toNat ∧
      (flat.toNat * d.toNat + i.toNat + 1) * rest ≤ UInt32.size := by
  have hi : i.toNat + 1 ≤ d.toNat := UInt32.lt_iff_toNat_lt.1 hi
  -- the next sum is below the number of rows so far, so it still fits
  have hnext : (flat.toNat * d.toNat + i.toNat + 1) * rest ≤ UInt32.size := by
    refine Nat.le_trans ?_ h
    rw [← Nat.mul_assoc]
    refine Nat.mul_le_mul_right _ ?_
    rw [Nat.succ_mul]
    omega
  have hbound : flat.toNat * d.toNat + i.toNat + 1 ≤ UInt32.size :=
    Nat.le_trans (Nat.le_mul_of_pos_right _ hpos) hnext
  refine ⟨hbound, ?_, hnext⟩
  simp only [UInt32.size] at hbound
  simp only [ravelStep, UInt64.toNat_add, UInt64.toNat_mul, UInt32.toNat_toUInt64]
  rw [Nat.mod_eq_of_lt (by omega), Nat.mod_eq_of_lt (by omega)]

/-- The sum stays within 64 bits as long as the number it stands for stays within 32. -/
theorem toNat_foldl_ravelStep {coords dims : List UInt32} (fits : Fits coords dims)
    (flat : UInt64) (h : (flat.toNat + 1) * product dims ≤ UInt32.size) :
    ((coords.zip dims).foldl ravelStep flat).toNat =
      flat.toNat * product dims + number dims coords := by
  induction fits generalizing flat with
  | nil => simp [number, product]
  | @cons i d coords dims hi fits ih =>
      have hpos : 0 < product dims := Nat.lt_of_le_of_lt (Nat.zero_le _) (number_lt_product fits)
      obtain ⟨-, hstep, hnext⟩ := toNat_ravelStep hi hpos h
      rw [List.zip_cons_cons, List.foldl_cons, ih _ (by rw [hstep]; exact hnext), hstep]
      show _ = flat.toNat * (d.toNat * product dims) +
        (i.toNat * product dims + number dims coords)
      ring

/-- `ravel` yields the number of coordinates that fit: neither the sum in 64 bits nor the cut
to 32 loses anything. -/
theorem toNat_ravel {s : Shape} {coords : List UInt32} (h : Fits coords s.dims) :
    (s.ravel coords).toNat = number s.dims coords := by
  have hsmall : number s.dims coords < UInt32.size := Nat.lt_trans (number_lt_product h) s.bounded
  have hsum := toNat_foldl_ravelStep h 0 (by simpa using Nat.le_of_lt s.bounded)
  show ((coords.zip s.dims).foldl ravelStep 0).toUInt32.toNat = number s.dims coords
  rw [UInt64.toNat_toUInt32, hsum]
  simpa using Nat.mod_eq_of_lt hsmall

/-- `ravel` yields a cell of the shape. -/
theorem toNat_ravel_lt {s : Shape} {coords : List UInt32} (h : Fits coords s.dims) :
    (s.ravel coords).toNat < s.size := by
  rw [toNat_ravel h]
  exact number_lt_product h

/-- One step of the division that `unravel` carries out. -/
def unravelStep (d : UInt32) (state : List UInt32 × UInt32) : List UInt32 × UInt32 :=
  (state.2 % d :: state.1, state.2 / d)

/-- Dividing by the dimensions from the last to the first finds coordinates that fit. -/
theorem foldr_unravelStep {dims : List UInt32} (positive : ∀ d ∈ dims, d ≠ 0) (cell : Cell) :
    Fits (dims.foldr unravelStep ([], cell)).1 dims ∧
      number dims (dims.foldr unravelStep ([], cell)).1 = cell.toNat % product dims ∧
      (dims.foldr unravelStep ([], cell)).2.toNat = cell.toNat / product dims := by
  induction dims with
  | nil => exact ⟨List.Forall₂.nil, by simp [number, product, Nat.mod_one], by simp [product]⟩
  | cons d dims ih =>
      obtain ⟨fits, hnumber, hrest⟩ := ih fun e he => positive e (List.mem_cons_of_mem d he)
      have hd : d ≠ 0 := positive d List.mem_cons_self
      refine ⟨List.Forall₂.cons (UInt32.mod_lt _ (UInt32.pos_iff_ne_zero.2 hd)) fits, ?_, ?_⟩
      · simp only [List.foldr_cons, unravelStep, number, UInt32.toNat_mod, hrest, hnumber]
        show _ = cell.toNat % (d.toNat * product dims)
        rw [Nat.mul_comm d.toNat, Nat.mod_mul]
        ring
      · simp only [List.foldr_cons, unravelStep, UInt32.toNat_div, hrest]
        show _ = cell.toNat / (d.toNat * product dims)
        rw [Nat.div_div_eq_div_mul, Nat.mul_comm]

/-- The coordinates of a cell fit. -/
theorem fits_unravel (s : Shape) (cell : Cell) : Fits (s.unravel cell) s.dims :=
  (foldr_unravelStep s.positive cell).1

/-- The coordinates of a cell of the shape have its number. -/
theorem number_unravel {s : Shape} {cell : Cell} (h : cell.toNat < s.size) :
    number s.dims (s.unravel cell) = cell.toNat := by
  have hnumber : number s.dims (s.unravel cell) = cell.toNat % product s.dims :=
    (foldr_unravelStep s.positive cell).2.1
  rw [hnumber]
  exact Nat.mod_eq_of_lt h

/-- A cell of the shape is found again from its coordinates. -/
theorem ravel_unravel {s : Shape} {cell : Cell} (h : cell.toNat < s.size) :
    s.ravel (s.unravel cell) = cell := by
  apply UInt32.toNat_inj.1
  rw [toNat_ravel (s.fits_unravel cell), number_unravel h]

/-- Coordinates that fit are found again from their cell. -/
theorem unravel_ravel {s : Shape} {coords : List UInt32} (h : Fits coords s.dims) :
    s.unravel (s.ravel coords) = coords := by
  apply eq_of_number_eq (s.fits_unravel _) h
  rw [number_unravel (toNat_ravel_lt h), toNat_ravel h]

/-- Cells of the shape are ordered as their coordinates are. -/
theorem unravel_lt_unravel_iff {s : Shape} {a b : Cell} (ha : a.toNat < s.size)
    (hb : b.toNat < s.size) : s.unravel a < s.unravel b ↔ a < b := by
  rw [← number_lt_number_iff (s.fits_unravel a) (s.fits_unravel b), number_unravel ha,
    number_unravel hb, UInt32.lt_iff_toNat_lt]

end Shape

end SparseTensor
