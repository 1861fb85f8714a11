/-
# The magnitude of a double

A finite double is, up to its sign, an integer `significand` of at most 53 bits times a power
of two.  `Magnitude.ofFloat` reads both numbers off the bits, and `Magnitude.nearestNat` rounds
the product to the nearest natural number, halves away from zero.
-/

namespace SparseTensor

/-- The product of `significand` and two to the power `exponent`. -/
structure Magnitude where
  significand : Nat
  exponent : Int
  deriving DecidableEq, Repr

namespace Magnitude

/-- The bit in front of the 52 stored ones. -/
def leadingBit : Nat := 1 <<< 52

/-- The magnitude of a finite double.  The smallest exponent belongs to the doubles without a
leading bit; every other field value puts one in front of the stored bits. -/
def ofFloat (x : Float) : Magnitude :=
  let field := (x.toBits >>> 52 &&& 0x7FF).toNat
  let stored := (x.toBits &&& 0xFFFFFFFFFFFFF).toNat
  if field = 0 then ⟨stored, -1074⟩ else ⟨leadingBit + stored, (field : Int) - 1075⟩

/-- Whether a double carries a minus sign. -/
def isNegative (x : Float) : Bool :=
  x.toBits >>> 63 = 1

/-- The nearest natural number, halves away from zero. -/
def nearestNat (m : Magnitude) : Nat :=
  match m.exponent with
  | .ofNat k => m.significand <<< k
  | .negSucc k => (m.significand + 1 <<< k) >>> (k + 1)

end Magnitude

end SparseTensor
