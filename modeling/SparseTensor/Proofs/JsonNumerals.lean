/-
# JSON numerals

A numeral is related to the bytes that spell it: perhaps a minus, an integer, a fraction and an
exponent.  It has no closing byte, so a scanner finds its end by the byte behind it, which must be one
that may stand behind a value (`canFollow`).

There are numerals of any size.  A reader takes those that a floating-point number comes near
(`Numeral.Bounded`) and refuses all others.
-/
import SparseTensor.Json

namespace SparseTensor.Json

variable {b : UInt8} {bytes : List UInt8}

/-! ## Bytes behind values -/

/-- A byte that may stand behind a value. -/
def canFollow (b : UInt8) : Bool :=
  Text.isBlankByte b || b == ','.toUInt8 || b == ']'.toUInt8 || b == '\x7d'.toUInt8

/-- What may stand behind a value does not go on with a number. -/
theorem not_numeric_of_canFollow (h : canFollow b = true) :
    isDigit b = false ∧ b ≠ '.'.toUInt8 ∧ ¬ (b = 'e'.toUInt8 ∨ b = 'E'.toUInt8) := by
  simp only [canFollow, Text.isBlankByte, Bool.or_eq_true, beq_iff_eq] at h
  rcases h with ((((((rfl | rfl) | rfl) | rfl) | rfl) | rfl) | rfl) <;> decide

/-! ## Numbers -/

namespace Numeral

variable {ds integer : List UInt8} {negative : Bool} {n : Numeral}

/-- One or more digits. -/
def AreDigits (ds : List UInt8) : Prop :=
  ds ≠ [] ∧ ∀ d ∈ ds, isDigit d = true

/-- The digits of an integer, where zero stands alone. -/
def IsInteger (ds : List UInt8) : Prop :=
  AreDigits ds ∧ (ds.head? = some 0x30 → ds = [0x30])

/-- A fraction: a point and digits, or nothing. -/
inductive IsFraction : List UInt8 → Option (List UInt8) → Prop
  | absent : IsFraction [] none
  | present {ds : List UInt8} : AreDigits ds → IsFraction ('.'.toUInt8 :: ds) (some ds)

/-- The sign of an exponent, and whether it is a minus. -/
inductive IsExponentSign : List UInt8 → Bool → Prop
  | absent : IsExponentSign [] false
  | plus : IsExponentSign ['+'.toUInt8] false
  | minus : IsExponentSign ['-'.toUInt8] true

/-- An exponent: a letter, perhaps a sign, and digits, or nothing. -/
inductive IsExponent : List UInt8 → Option (Bool × List UInt8) → Prop
  | absent : IsExponent [] none
  | present {letter : UInt8} {sign ds : List UInt8} {negative : Bool} :
    letter = 'e'.toUInt8 ∨ letter = 'E'.toUInt8 → IsExponentSign sign negative → AreDigits ds →
      IsExponent (letter :: (sign ++ ds)) (some (negative, ds))

/-- A numeral: perhaps a minus, an integer, a fraction and an exponent. -/
inductive IsNumeral : List UInt8 → Numeral → Prop
  | parts {integer point power : List UInt8} {fraction : Option (List UInt8)}
      {exponent : Option (Bool × List UInt8)} (negative : Bool) :
    IsInteger integer → IsFraction point fraction → IsExponent power exponent →
      IsNumeral ((if negative then ['-'.toUInt8] else []) ++ (integer ++ (point ++ power)))
        ⟨negative, integer, fraction, exponent⟩

/-- A numeral that a floating-point number comes near, and whose exponent can be counted. -/
def Bounded (n : Numeral) : Prop :=
  n.hasHugeExponent = false ∧ (n.natural?.isSome = true ∨ n.inRange = true)

instance (n : Numeral) : Decidable n.Bounded :=
  inferInstanceAs (Decidable (_ ∧ _))

/-- Digits end where another byte stands. -/
theorem AreDigits.digits_append (h : AreDigits ds) (stop : isDigit b = false) (rest : List UInt8) :
    digits (ds ++ b :: rest) = .done ds (b :: rest) := by
  obtain ⟨some, all⟩ := h
  obtain ⟨d, others, rfl⟩ := List.exists_cons_of_ne_nil some
  rw [digits, List.takeWhile_append_of_pos all, List.dropWhile_append_of_pos all,
    List.takeWhile_cons_of_neg (by simp [stop]), List.dropWhile_cons_of_neg (by simp [stop]),
    List.append_nil]

theorem AreDigits.exists_first (h : AreDigits ds) :
    ∃ d others, ds = d :: others ∧ isDigit d = true := by
  obtain ⟨some, all⟩ := h
  obtain ⟨d, others, rfl⟩ := List.exists_cons_of_ne_nil some
  exact ⟨d, others, rfl, all d List.mem_cons_self⟩

/-- A digit is no other character of a number. -/
theorem ne_sign_of_isDigit {d : UInt8} (h : isDigit d = true) :
    d ≠ '-'.toUInt8 ∧ d ≠ '+'.toUInt8 := by
  constructor <;>
    · rintro rfl
      exact absurd h (by decide)

theorem IsInteger.integerDigits_append (h : IsInteger ds) (stop : isDigit b = false)
    (rest : List UInt8) : integerDigits (ds ++ b :: rest) = .done ds (b :: rest) := by
  rw [integerDigits, h.1.digits_append stop]
  apply if_neg
  rintro ⟨long, zero⟩
  rw [h.2 zero] at long
  exact absurd long (Nat.lt_irrefl 1)

theorem IsFraction.fractionDigits_append {fraction : Option (List UInt8)}
    (h : IsFraction bytes fraction) (stop : isDigit b = false) (noPoint : b ≠ '.'.toUInt8)
    (rest : List UInt8) : fractionDigits (bytes ++ b :: rest) = .done fraction (b :: rest) := by
  cases h with
  | absent => exact if_neg noPoint
  | present digits =>
      rw [List.cons_append, fractionDigits, if_pos rfl, digits.digits_append stop]
      rfl

theorem IsExponentSign.exponentSign_append {sign : List UInt8} (h : IsExponentSign sign negative)
    (digits : AreDigits ds) (rest : List UInt8) :
    exponentSign (sign ++ (ds ++ rest)) = (negative, ds ++ rest) := by
  cases h with
  | absent =>
      obtain ⟨d, others, rfl, digit⟩ := digits.exists_first
      obtain ⟨noMinus, noPlus⟩ := ne_sign_of_isDigit digit
      rw [List.nil_append, List.cons_append, exponentSign, if_neg noMinus, if_neg noPlus]
  | plus => rfl
  | minus => rfl

theorem IsExponent.exponentDigits_append {exponent : Option (Bool × List UInt8)}
    (h : IsExponent bytes exponent) (stop : isDigit b = false)
    (noLetter : ¬ (b = 'e'.toUInt8 ∨ b = 'E'.toUInt8)) (rest : List UInt8) :
    exponentDigits (bytes ++ b :: rest) = .done exponent (b :: rest) := by
  cases h with
  | absent => exact if_neg noLetter
  | present letter sign digits =>
      rw [List.cons_append, List.append_assoc, exponentDigits, if_pos letter]
      simp only [sign.exponentSign_append digits, digits.digits_append stop]
      rfl

/-- Neither digits nor a point stand behind a fraction. -/
theorem IsExponent.exists_first {exponent : Option (Bool × List UInt8)}
    (h : IsExponent bytes exponent) (stop : isDigit b = false) (noPoint : b ≠ '.'.toUInt8)
    (rest : List UInt8) : ∃ c more, bytes ++ b :: rest = c :: more ∧ isDigit c = false ∧
      c ≠ '.'.toUInt8 := by
  cases h with
  | absent => exact ⟨b, rest, rfl, stop, noPoint⟩
  | present letter sign digits =>
      refine ⟨_, _, rfl, ?_⟩
      rcases letter with rfl | rfl <;> decide

/-- No digits stand behind an integer. -/
theorem IsFraction.exists_first {fraction : Option (List UInt8)} (h : IsFraction bytes fraction)
    (stop : isDigit b = false) (rest : List UInt8) :
    ∃ c more, bytes ++ b :: rest = c :: more ∧ isDigit c = false := by
  cases h with
  | absent => exact ⟨b, rest, rfl, stop⟩
  | present digits => exact ⟨_, _, rfl, by decide⟩

/-- A numeral is read in front of a byte that may follow it. -/
theorem IsNumeral.scan_append (h : IsNumeral bytes n) (follows : canFollow b = true)
    (rest : List UInt8) : Numeral.scan (bytes ++ b :: rest) = .done n (b :: rest) := by
  obtain ⟨noDigit, noPoint, noLetter⟩ := not_numeric_of_canFollow follows
  cases h with
  | @parts integer point power fraction exponent negative whole behindPoint behindLetter =>
      have unsigned : unsigned negative (integer ++ (point ++ (power ++ b :: rest))) =
          .done ⟨negative, integer, fraction, exponent⟩ (b :: rest) := by
        obtain ⟨c, more, left, noDigit', noPoint'⟩ :=
          behindLetter.exists_first noDigit noPoint rest
        obtain ⟨d, others, left', noDigit''⟩ := behindPoint.exists_first noDigit' more
        rw [Numeral.unsigned, left, left', whole.integerDigits_append noDigit'', ← left']
        show (fractionDigits _).andThen _ = _
        rw [behindPoint.fractionDigits_append noDigit' noPoint', ← left]
        show (exponentDigits _).map _ = _
        rw [behindLetter.exponentDigits_append noDigit noLetter]
        rfl
      cases negative with
      | true =>
          simp only [if_true, List.append_assoc, List.cons_append, List.nil_append]
          rw [Numeral.scan, if_pos rfl]
          exact unsigned
      | false =>
          obtain ⟨d, others, rfl, digit⟩ := whole.1.exists_first
          simp only [Bool.false_eq_true, if_false, List.nil_append, List.append_assoc,
            List.cons_append] at unsigned ⊢
          rw [Numeral.scan, if_neg (ne_sign_of_isDigit digit).1]
          exact unsigned

/-- A numeral starts with a digit or a minus, neither of which can stand behind a value. -/
theorem IsNumeral.exists_first (h : IsNumeral bytes n) : ∃ b more, bytes = b :: more ∧
    (isDigit b = true ∨ b = '-'.toUInt8) ∧ canFollow b = false := by
  cases h with
  | parts negative whole _ _ =>
      cases negative with
      | true => exact ⟨_, _, rfl, .inr rfl, by decide⟩
      | false =>
          obtain ⟨d, others, rfl, digit⟩ := whole.1.exists_first
          refine ⟨d, _, rfl, .inl digit, ?_⟩
          rw [← Bool.not_eq_true]
          intro follows
          rw [(not_numeric_of_canFollow follows).1] at digit
          cases digit

end Numeral

/-- A number that is not too great is read. -/
theorem Numeral.IsNumeral.scanNumber_append {n : Numeral} (h : Numeral.IsNumeral bytes n)
    (bounded : n.Bounded) (follows : canFollow b = true) (ending : Ending) (rest : List UInt8) :
    scanNumber ending (bytes ++ b :: rest) = .done n.natural? (b :: rest) := by
  have near : (n.natural?.isNone && !n.inRange) = false := by
    rcases bounded.2 with natural | inRange
    · rw [← Option.not_isSome, natural]
      rfl
    · rw [inRange, Bool.not_true, Bool.and_false]
  rw [scanNumber, h.scan_append follows]
  simp only [Scan.andThen, bounded.1, near, List.isEmpty_cons, Bool.false_and, Bool.false_eq_true,
    if_false]

end SparseTensor.Json
