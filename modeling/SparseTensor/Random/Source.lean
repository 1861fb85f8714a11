/-
# Random sources

What operations on cells need of randomness: an integer below a bound, and a shuffle.  `choose`
draws cells without replacement: each draw picks one of the cells that are left and swaps it to
the front of them.
-/
import SparseTensor.Shape

namespace SparseTensor

/-- A state from which random values can be drawn. -/
class RandomSource (G : Type) where
  /-- An integer below a bound, and zero if the bound is zero. -/
  uniformBelow : UInt32 → G → UInt32 × G
  /-- The same elements in a random order. -/
  shuffle : {α : Type} → Array α → G → Array α × G

variable {G : Type} [RandomSource G]

/-- Draw `left` more cells, those in front of `position` being drawn already. -/
def chooseFrom (position : Nat) : Nat → Array Cell → G → Array Cell × G
  | 0, population, g => (population, g)
  | left + 1, population, g =>
    let (pick, g) := RandomSource.uniformBelow (population.size - position).toUInt32 g
    chooseFrom (position + 1) left
      (population.swapIfInBounds position (position + pick.toNat)) g

/-- Draw `count` cells of a population, or all if there are fewer, in the order of the draws. -/
def choose (population : Array Cell) (count : Nat) (g : G) : List Cell × G :=
  let count := min count population.size
  let (population, g) := chooseFrom 0 count population g
  ((population.extract 0 count).toList, g)

end SparseTensor
