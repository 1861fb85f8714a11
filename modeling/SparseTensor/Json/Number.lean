/-
# JSON numbers

A number is an integer without leading zeros, perhaps with a sign, a fraction and an exponent.
Only natural numbers below 2 ^ 64 that are written without sign, fraction and exponent are kept
with their value.  All others are just numbers, as long as a floating-point number comes near
them.

A number has no closing byte.  If the bytes of a failing source end with one, more digits could
have followed, so it is not complete.
-/
import SparseTensor.Json.Scan

namespace SparseTensor.Json

/-- A decimal digit. -/
def isDigit (b : UInt8) : Bool := 0x30 ≤ b && b ≤ 0x39

/-- The value of a decimal digit. -/
def digitValue (b : UInt8) : Nat := b.toNat - 0x30

/-- Digits appended to a significand as long as it stays below 2 ^ 64: the significand, and the
digits that do not fit. -/
def absorb (n : Nat) : List UInt8 → Nat × List UInt8
  | [] => (n, [])
  | d :: ds =>
    let extended := 10 * n + digitValue d
    if extended < UInt64.size then absorb extended ds else (n, d :: ds)

/-- The parts of a number, digits as they are written. -/
structure Numeral where
  negative : Bool
  integer : List UInt8
  fraction : Option (List UInt8)
  exponent : Option (Bool × List UInt8)

namespace Numeral

/-! ## Values -/

/-- The natural number below 2 ^ 64 that a numeral is, if it is written as one. -/
def natural? (n : Numeral) : Option UInt64 :=
  match n.negative, n.fraction, n.exponent, absorb 0 n.integer with
  | false, none, none, (value, []) => some value.toUInt64
  | _, _, _, _ => none

/-- The significand, cut to what fits in 64 bits, and the power of ten that belongs to it. -/
def scaled (n : Numeral) : Nat × Int :=
  let (whole, left) := absorb 0 n.integer
  let fraction := n.fraction.getD []
  let (significand, dropped) := absorb whole fraction
  let shift := (left.length : Int) - ((fraction.length : Int) - dropped.length)
  match n.exponent with
  | none => (significand, shift)
  | some (negative, digits) =>
    let power : Int := (digits.foldl (fun e d => 10 * e + digitValue d) 0 : Nat)
    (significand, if negative then shift - power else shift + power)

/-- The greatest power of ten that is a floating-point number. -/
def maxPower : Nat := 308

/-- Whether a floating-point number comes near the numeral. -/
def inRange (n : Numeral) : Bool :=
  let (significand, power) := n.scaled
  if significand = 0 ∨ power < 0 then true
  else if maxPower < power then false
  else !(significand.toUInt64.toFloat * Float.ofScientific 1 false power.toNat).isInf

/-- The greatest exponent that is taken in full. -/
def maxExponent : Nat := 0x7FFFFFFF

/-- Whether the digits of the exponent alone put the numeral out of range. -/
def hasHugeExponent (n : Numeral) : Bool :=
  match n.exponent with
  | some (false, digits) =>
    n.scaled.1 ≠ 0 && maxExponent < digits.foldl (fun e d => 10 * e + digitValue d) 0
  | _ => false

/-! ## Reading -/

/-- One or more digits. -/
def digits (bytes : List UInt8) : Scan (List UInt8) :=
  match bytes.takeWhile isDigit, bytes.dropWhile isDigit with
  | [], [] => .starved
  | [], _ :: _ => .malformed
  | d :: ds, rest => .done (d :: ds) rest

/-- One or more digits, where zero stands alone. -/
def integerDigits (bytes : List UInt8) : Scan (List UInt8) :=
  (digits bytes).andThen fun ds rest =>
    if 1 < ds.length ∧ ds.head? = some 0x30 then .malformed else .done ds rest

/-- The digits behind a point, if there is one. -/
def fractionDigits : List UInt8 → Scan (Option (List UInt8))
  | b :: rest => if b = '.'.toUInt8 then (digits rest).map some else .done none (b :: rest)
  | [] => .done none []

/-- Whether a minus sign stands in front, and what is behind the sign. -/
def exponentSign : List UInt8 → Bool × List UInt8
  | b :: rest =>
    if b = '-'.toUInt8 then (true, rest)
    else if b = '+'.toUInt8 then (false, rest)
    else (false, b :: rest)
  | [] => (false, [])

/-- The sign and the digits of an exponent, if there is one. -/
def exponentDigits : List UInt8 → Scan (Option (Bool × List UInt8))
  | b :: rest =>
    if b = 'e'.toUInt8 ∨ b = 'E'.toUInt8 then
      let signed := exponentSign rest
      (digits signed.2).map fun ds => some (signed.1, ds)
    else .done none (b :: rest)
  | [] => .done none []

/-- A numeral behind its sign. -/
def unsigned (negative : Bool) (bytes : List UInt8) : Scan Numeral :=
  (integerDigits bytes).andThen fun integer rest =>
  (fractionDigits rest).andThen fun fraction rest =>
  (exponentDigits rest).map fun exponent => ⟨negative, integer, fraction, exponent⟩

/-- A numeral. -/
def scan : List UInt8 → Scan Numeral
  | b :: rest => if b = '-'.toUInt8 then unsigned true rest else unsigned false (b :: rest)
  | [] => .starved

end Numeral

/-- A number: its value if it is natural, nothing otherwise. -/
def scanNumber (ending : Ending) (bytes : List UInt8) : Scan (Option UInt64) :=
  (Numeral.scan bytes).andThen fun n rest =>
    if n.hasHugeExponent then .malformed
    else if rest.isEmpty && ending ≠ .ends then .starved
    else if n.natural?.isNone && !n.inRange then .malformed
    else .done n.natural? rest

/-! ## Numbers take up bytes -/

namespace Numeral

/-- Digits take up some bytes. -/
theorem length_digits_lt {bytes ds rest : List UInt8} (h : digits bytes = .done ds rest) :
    rest.length < bytes.length := by
  have parts := congrArg List.length (List.takeWhile_append_dropWhile (p := isDigit) (l := bytes))
  rw [List.length_append] at parts
  unfold digits at h
  split at h
  · cases h
  · cases h
  · rename_i taken
    cases h
    rw [taken, List.length_cons] at parts
    omega

/-- The digits of an integer take up some bytes. -/
theorem length_integerDigits_lt {bytes ds rest : List UInt8}
    (h : integerDigits bytes = .done ds rest) : rest.length < bytes.length := by
  obtain ⟨_, _, first, h⟩ := Scan.andThen_eq_done h
  split at h
  · cases h
  · cases h
    exact length_digits_lt first

/-- A fraction adds nothing. -/
theorem length_fractionDigits_le {bytes rest : List UInt8} {f : Option (List UInt8)}
    (h : fractionDigits bytes = .done f rest) : rest.length ≤ bytes.length := by
  unfold fractionDigits at h
  split at h
  · split at h
    · obtain ⟨_, found, -⟩ := Scan.map_eq_done h
      have := length_digits_lt found
      simp only [List.length_cons]
      omega
    · cases h
      exact Nat.le_refl _
  · cases h
    exact Nat.le_refl _

/-- A sign adds nothing. -/
theorem length_exponentSign_le (bytes : List UInt8) :
    (exponentSign bytes).2.length ≤ bytes.length := by
  unfold exponentSign
  split
  · split
    · simp
    split <;> simp
  · simp

/-- An exponent adds nothing. -/
theorem length_exponentDigits_le {bytes rest : List UInt8} {e : Option (Bool × List UInt8)}
    (h : exponentDigits bytes = .done e rest) : rest.length ≤ bytes.length := by
  unfold exponentDigits at h
  split at h
  · rename_i b behind
    split at h
    · obtain ⟨_, found, -⟩ := Scan.map_eq_done h
      have := length_digits_lt found
      have := length_exponentSign_le behind
      simp only [List.length_cons]
      omega
    · cases h
      exact Nat.le_refl _
  · cases h
    exact Nat.le_refl _

/-- A numeral behind its sign takes up some bytes. -/
theorem length_unsigned_lt {negative : Bool} {bytes rest : List UInt8} {n : Numeral}
    (h : unsigned negative bytes = .done n rest) : rest.length < bytes.length := by
  obtain ⟨_, _, integer, h⟩ := Scan.andThen_eq_done h
  obtain ⟨_, _, fraction, h⟩ := Scan.andThen_eq_done h
  obtain ⟨_, exponent, -⟩ := Scan.map_eq_done h
  have := length_integerDigits_lt integer
  have := length_fractionDigits_le fraction
  have := length_exponentDigits_le exponent
  omega

/-- A numeral takes up some bytes. -/
theorem length_scan_lt {bytes rest : List UInt8} {n : Numeral} (h : scan bytes = .done n rest) :
    rest.length < bytes.length := by
  unfold scan at h
  split at h
  · split at h
    · have := length_unsigned_lt h
      simp only [List.length_cons]
      omega
    · exact length_unsigned_lt h
  · cases h

end Numeral

/-- A number takes up some bytes. -/
theorem length_scanNumber_lt {ending : Ending} {bytes rest : List UInt8} {v : Option UInt64}
    (h : scanNumber ending bytes = .done v rest) : rest.length < bytes.length := by
  obtain ⟨_, _, found, h⟩ := Scan.andThen_eq_done h
  split at h
  · cases h
  split at h
  · cases h
  split at h
  · cases h
  · cases h
    exact Numeral.length_scan_lt found

end SparseTensor.Json
