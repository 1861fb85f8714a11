/-
# Decimal numerals

A natural number is written with its decimal digits and no leading zero.  It is read more
freely: one plus sign and any number of leading zeros are allowed, but the value must not
exceed a limit.  `parse?_render` says that what is written is read back.
-/

namespace SparseTensor.Numeral

/-- The decimal digits of a number. -/
def render (n : Nat) : List Char :=
  Nat.toDigits 10 n

/-- A numeral without its plus sign, if it has one. -/
def dropSign : List Char → List Char
  | '+' :: rest => rest
  | s => s

/-- The number at most `limit` that a numeral denotes. -/
def parse? (limit : Nat) (s : List Char) : Option Nat :=
  let digits := dropSign s
  if digits.isEmpty || !digits.all Char.isDigit then none
  else
    let n := Nat.ofDigitChars 10 digits 0
    if n ≤ limit then some n else none

/-- The 64-bit word that a numeral denotes. -/
def word64? (s : List Char) : Option UInt64 :=
  (parse? (UInt64.size - 1) s).map Nat.toUInt64

/-- The 32-bit word that a numeral denotes. -/
def word32? (s : List Char) : Option UInt32 :=
  (parse? (UInt32.size - 1) s).map Nat.toUInt32

/-! ## Written numerals are read back -/

/-- A digit is not a plus sign. -/
theorem ne_plus_of_isDigit {c : Char} (h : c.isDigit = true) : c ≠ '+' := by
  rintro rfl
  exact absurd h (by decide)

/-- A numeral that starts with a digit has no sign to drop. -/
theorem dropSign_of_isDigit {s : List Char} (h : ∀ c ∈ s, c.isDigit = true) : dropSign s = s := by
  unfold dropSign
  split
  · exact absurd rfl (ne_plus_of_isDigit (h _ (by simp)))
  · rfl

/-- A written number within the limit is read back. -/
theorem parse?_render {limit n : Nat} (h : n ≤ limit) : parse? limit (render n) = some n := by
  have digits : ∀ c ∈ render n, c.isDigit = true := fun c hc =>
    Nat.isDigit_of_mem_toDigits (by decide) (by decide) hc
  have nonempty : render n ≠ [] := Nat.toDigits_ne_nil
  simp only [parse?, dropSign_of_isDigit digits]
  rw [if_neg (by simpa [nonempty] using digits)]
  simp [render, Nat.ofDigitChars_ten_toDigits, h]

/-- A written 64-bit word is read back. -/
theorem word64?_render (v : UInt64) : word64? (render v.toNat) = some v := by
  have h : v.toNat ≤ UInt64.size - 1 := Nat.le_sub_one_of_lt v.toNat_lt
  rw [word64?, parse?_render h]
  simp

/-- A written 32-bit word is read back. -/
theorem word32?_render (v : UInt32) : word32? (render v.toNat) = some v := by
  have h : v.toNat ≤ UInt32.size - 1 := Nat.le_sub_one_of_lt v.toNat_lt
  rw [word32?, parse?_render h]
  simp

end SparseTensor.Numeral
