/-
# Fractions of a number of cells

A share of some cells is given as a fraction between zero and one.  How many cells that are is
the product rounded to the nearest number, halves away from zero, and never more than there are.
-/
import SparseTensor.Fault
import SparseTensor.Real.Magnitude

namespace SparseTensor.Fraction

/-- Whether a double is a fraction: a number between zero and one. -/
def isValid (x : Float) : Bool :=
  x.isFinite && decide (0 ≤ x) && decide (x ≤ 1)

/-- Refuse what is no fraction; `what` names its meaning. -/
def check (what : String) (x : Float) : Except ArgumentFault Unit :=
  if isValid x then .ok () else .error (.invalidValue (.fraction what x))

/-- How many of `total` a fraction is. -/
def count (fraction : Float) (total : Nat) : Nat :=
  min (Magnitude.ofFloat (fraction * total.toFloat)).nearestNat total

/-- A fraction is never more than there are. -/
theorem count_le (fraction : Float) (total : Nat) : count fraction total ≤ total :=
  Nat.min_le_right _ _

end SparseTensor.Fraction
