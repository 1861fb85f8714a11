/-
# Shortest decimals

The decimal that stands for a double: the fewest digits that no other double is closer to, and
of those the digits nearest to the double itself.

A double stands for all reals that round to it.  On the grids of decimals with 1, 2, … 17
digits, a grid point inside that interval exists as soon as one of the two neighbours of the
double lies in it, so the first grid with such a neighbour gives the fewest digits.
-/
import SparseTensor.Real.Magnitude

namespace SparseTensor

/-- The product of `digits` and ten to the power `exponent`. -/
structure Decimal where
  digits : Nat
  exponent : Int
  deriving DecidableEq, Repr

namespace Decimal

/-- A fraction of natural numbers. -/
structure Ratio where
  num : Nat
  den : Nat

/-- The product of `n` and two to the power `e`. -/
def Ratio.ofBinary (n : Nat) : Int → Ratio
  | .ofNat k => ⟨n <<< k, 1⟩
  | .negSucc k => ⟨n, 1 <<< (k + 1)⟩

/-- A fraction divided by ten to the power `e`. -/
def Ratio.scaled (r : Ratio) : Int → Ratio
  | .ofNat k => ⟨r.num, r.den * Nat.pow 10 k⟩
  | .negSucc k => ⟨r.num * Nat.pow 10 (k + 1), r.den⟩

/-- The number of decimal digits of a number, none for zero. -/
def digitCount (n : Nat) : Nat :=
  if n = 0 then 0 else (Nat.toDigits 10 n).length

/-- The exponent of the least power of ten above a positive fraction. -/
def Ratio.ceilingExponent (r : Ratio) : Int :=
  if r.den ≤ r.num then digitCount (r.num / r.den)
  else 1 - digitCount ((r.den - 1) / r.num)

/-- The interval of the reals that round to a positive double, in quarters of the unit of its
last place.  Below a power of two the doubles are twice as close.  The ends belong to the
interval when the significand is even. -/
structure Interval where
  low : Nat
  high : Nat
  closed : Bool
  exponent : Int

/-- The interval of a positive magnitude. -/
def Interval.ofMagnitude (m : Magnitude) : Interval where
  low := 4 * m.significand - if m.significand = Magnitude.leadingBit ∧ m.exponent ≠ -1074 then 1 else 2
  high := 4 * m.significand + 2
  closed := m.significand % 2 = 0
  exponent := m.exponent - 2

/-- Whether `n` times ten to the power `e` lies in an interval. -/
def Interval.contains (i : Interval) (n : Nat) (e : Int) : Bool :=
  let below (a : Nat) (strict : Bool) :=
    let end_ := (Ratio.ofBinary a i.exponent).scaled e
    if strict then decide (end_.num < n * end_.den) else decide (end_.num ≤ n * end_.den)
  let above (a : Nat) (strict : Bool) :=
    let end_ := (Ratio.ofBinary a i.exponent).scaled e
    if strict then decide (n * end_.den < end_.num) else decide (n * end_.den ≤ end_.num)
  below i.low (!i.closed) && above i.high (!i.closed)

/-- The grid point with `n` digits that stands for a magnitude, if one does.  Of two neighbours
that do the nearer is taken, and the upper one when both are equally near. -/
def onGrid? (m : Magnitude) (n : Nat) : Option Decimal :=
  let value := Ratio.ofBinary m.significand m.exponent
  let exponent := value.ceilingExponent - n
  let scaled := value.scaled exponent
  let lower := scaled.num / scaled.den
  let upper := lower + 1
  let interval := Interval.ofMagnitude m
  let upperNearer := decide (scaled.den ≤ 2 * (scaled.num - lower * scaled.den))
  match interval.contains lower exponent, interval.contains upper exponent with
  | true, true => some ⟨if upperNearer then upper else lower, exponent⟩
  | true, false => some ⟨lower, exponent⟩
  | false, true => some ⟨upper, exponent⟩
  | false, false => none

/-- The shortest decimal that stands for a positive magnitude. -/
def shortest (m : Magnitude) : Decimal :=
  ((List.range' 1 17).findSome? (onGrid? m)).getD ⟨0, 0⟩

/-- A decimal without an exponent: zeros fill the places up to the point. -/
def positional (d : Decimal) : String :=
  let digits := Nat.toDigits 10 d.digits
  match d.exponent with
  | .ofNat k => String.ofList (digits ++ List.replicate k '0')
  | .negSucc k =>
    let padded := List.replicate (k + 2 - digits.length) '0' ++ digits
    let whole := padded.take (padded.length - (k + 1))
    let fraction := padded.drop (padded.length - (k + 1))
    let kept := (fraction.reverse.dropWhile (· = '0')).reverse
    String.ofList (if kept.isEmpty then whole else whole ++ '.' :: kept)

/-- The text of a double: its shortest decimal without an exponent, a minus sign also before
zero, and names for what is no number. -/
def ofFloat (x : Float) : String :=
  if x.isNaN then "NaN"
  else
    let sign := if Magnitude.isNegative x then "-" else ""
    if x.isInf then sign ++ "inf"
    else
      let m := Magnitude.ofFloat x
      if m.significand = 0 then sign ++ "0" else sign ++ (shortest m).positional

example : ofFloat 1.5 = "1.5" ∧ ofFloat (-0.1) = "-0.1" ∧ ofFloat (-0.0) = "-0" ∧
    ofFloat 1e23 = "100000000000000000000000" := by decide +kernel

end Decimal

end SparseTensor
