/-
# Uniform integers

An integer below a bound is the high half of the product of the bound and a random word.  Words
whose product has a low half beyond a zone are passed over, so that every integer is the answer
to equally many words.

`uniformBelow_lt` says that the answer is below the bound.
-/
import SparseTensor.Random.Generator
import SparseTensor.Random.Source

namespace SparseTensor.Generator

/-- The high half of the product of `bound` and the first word whose product has its low half in
the zone, among the next `left` words. -/
def drawInZone (bound zone : UInt32) : Nat → Generator → UInt32 × Generator
  | 0, g => (0, g)
  | left + 1, g =>
    let (word, g) := g.next32
    let product := word.toUInt64 * bound.toUInt64
    if product.toUInt32 ≤ zone then ((product >>> 32).toUInt32, g)
    else drawInZone bound zone left g

/-- An integer below a positive bound, drawn by a zone.  The words repeat after the end of the
stream, so that is how far they are searched. -/
def draw (bound zone : UInt32) (g : Generator) : UInt32 × Generator :=
  drawInZone bound zone streamLength g

/-- The bound with its leading zeros shifted out, less one. -/
def shiftedZone (bound : UInt32) : UInt32 :=
  bound <<< (31 - bound.log2) - 1

/-- The largest zone that holds equally many words for every answer. -/
def widestZone (bound : UInt32) : UInt32 :=
  0xFFFFFFFF - (0 - bound) % bound

/-- An integer below a bound, and zero without a draw if the bound is zero. -/
def uniformBelow (bound : UInt32) (g : Generator) : UInt32 × Generator :=
  if bound = 0 then (0, g) else draw bound (shiftedZone bound) g

/-- Draw for the places up to `i`, the last first, and swap each with the place drawn. -/
def shuffleUpTo {α : Type} : Nat → Array α → Generator → Array α × Generator
  | 0, items, g => (items, g)
  | i + 1, items, g =>
    let (j, g) := uniformBelow (i + 2).toUInt32 g
    shuffleUpTo i (items.swapIfInBounds (i + 1) j.toNat) g

/-- The same elements in a random order. -/
def shuffle {α : Type} (items : Array α) (g : Generator) : Array α × Generator :=
  shuffleUpTo (items.size - 1) items g

instance : RandomSource Generator where
  uniformBelow := uniformBelow
  shuffle := shuffle

/-! ## The answers are below the bound -/

/-- The high half of a product with a word is below the other factor. -/
theorem high_lt {word bound : UInt32} (positive : bound ≠ 0) :
    ((word.toUInt64 * bound.toUInt64) >>> 32).toUInt32 < bound := by
  have wordBound := word.toNat_lt
  have boundBound := bound.toNat_lt
  have boundPos : 0 < bound.toNat :=
    Nat.pos_of_ne_zero fun zero => positive (UInt32.toNat_inj.1 (by simpa using zero))
  have less : word.toNat * bound.toNat < 2 ^ 32 * bound.toNat :=
    Nat.mul_lt_mul_of_pos_right wordBound boundPos
  have fits : word.toNat * bound.toNat < 2 ^ 64 := by omega
  have high : word.toNat * bound.toNat / 2 ^ 32 < bound.toNat := Nat.div_lt_of_lt_mul less
  rw [UInt32.lt_iff_toNat_lt]
  simp only [UInt64.toNat_toUInt32, UInt64.toNat_shiftRight, UInt64.toNat_mul,
    UInt32.toNat_toUInt64, Nat.shiftRight_eq_div_pow]
  rw [Nat.mod_eq_of_lt fits]
  have : (32 : UInt64).toNat % 64 = 32 := by decide
  rw [this, Nat.mod_eq_of_lt (by omega)]
  exact high

/-- What is drawn for a positive bound is below it. -/
theorem drawInZone_lt {bound zone : UInt32} (positive : bound ≠ 0) (left : Nat)
    (g : Generator) : (drawInZone bound zone left g).1 < bound := by
  induction left generalizing g with
  | zero =>
    simp only [drawInZone]
    exact UInt32.pos_iff_ne_zero.2 positive
  | succ left ih =>
    simp only [drawInZone]
    split
    · exact high_lt positive
    · exact ih _

/-- An integer below a positive bound is below it. -/
theorem uniformBelow_lt {bound : UInt32} (positive : bound ≠ 0) (g : Generator) :
    (uniformBelow bound g).1 < bound := by
  simp only [uniformBelow, if_neg positive]
  exact drawInZone_lt positive _ _

end SparseTensor.Generator
