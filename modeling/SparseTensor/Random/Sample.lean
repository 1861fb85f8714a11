/-
# Samples

Distinct elements of a population, in the order in which they are drawn.  Three methods draw
their places; which one is used depends on how many places are drawn out of how many.

* In place: a partial shuffle of all places.
* Growing: the `i`-th draw may only reach one place more than the one before, and the new place
  itself stands in for a place that was drawn already.
* Rejecting: places that were drawn already are drawn again.
-/
import SparseTensor.Random.Uniform

namespace SparseTensor.Generator

/-! ## In place -/

/-- Swap a random later place to each of the next `left` places. -/
def partialShuffle (position : Nat) : Nat → Array Nat → Generator → Array Nat × Generator
  | 0, places, g => (places, g)
  | left + 1, places, g =>
    let (pick, g) := uniformBelow (places.size - position).toUInt32 g
    partialShuffle (position + 1) left
      (places.swapIfInBounds position (position + pick.toNat)) g

/-- Draw `amount` of `length` places in place. -/
def sampleInPlace (length amount : Nat) (g : Generator) : List Nat × Generator :=
  let (places, g) := partialShuffle 0 amount (Array.range length) g
  ((places.extract 0 amount).toList, g)

/-! ## Growing -/

/-- Put a new place in front of an old one. -/
def insertBefore (new old : Nat) : List Nat → List Nat
  | [] => []
  | p :: rest => if p = old then new :: p :: rest else p :: insertBefore new old rest

/-- The places drawn up to now with the next one among them.  A new place that stands in for an
old one goes in front of it or, if the places are shuffled in the end, behind all others. -/
def grow (shuffled : Bool) (drawn : List Nat) (new pick : Nat) : List Nat :=
  if !drawn.contains pick then drawn ++ [pick]
  else if shuffled then drawn ++ [new]
  else insertBefore new pick drawn

/-- Draw places while the greatest one grows from `new` to below `length`. -/
def growFrom (shuffled : Bool) (new : Nat) : Nat → List Nat → Generator → List Nat × Generator
  | 0, drawn, g => (drawn, g)
  | left + 1, drawn, g =>
    let (pick, g) := uniformBelow (new + 1).toUInt32 g
    growFrom shuffled (new + 1) left (grow shuffled drawn new pick.toNat) g

/-- Draw `amount` of `length` places growing; many of them are shuffled in the end. -/
def sampleGrowing (length amount : Nat) (g : Generator) : List Nat × Generator :=
  let shuffled := decide (50 ≤ amount)
  let (drawn, g) := growFrom shuffled (length - amount) amount [] g
  if shuffled then
    let (drawn, g) := shuffle drawn.toArray g
    (drawn.toList, g)
  else (drawn, g)

/-! ## Rejecting -/

/-- A place that was not drawn already, searched for in the next `left` draws. -/
def drawUnseen (seen : Array Bool) (bound zone : UInt32) : Nat → Generator → Nat × Generator
  | 0, g => (0, g)
  | left + 1, g =>
    let (pick, g) := draw bound zone g
    if seen.getD pick.toNat false then drawUnseen seen bound zone left g else (pick.toNat, g)

/-- Draw `left` more places that are distinct from those in `drawn`, which are held last to
first and marked in `seen`. -/
def rejectFrom (bound zone : UInt32) :
    Nat → Array Bool → List Nat → Generator → List Nat × Generator
  | 0, _, drawn, g => (drawn.reverse, g)
  | left + 1, seen, drawn, g =>
    let (place, g) := drawUnseen seen bound zone streamLength g
    rejectFrom bound zone left (seen.setIfInBounds place true) (place :: drawn) g

/-- Draw `amount` of `length` places rejecting. -/
def sampleRejecting (length amount : Nat) (g : Generator) : List Nat × Generator :=
  let bound := length.toUInt32
  rejectFrom bound (widestZone bound) amount (Array.replicate length false) [] g

/-! ## The choice of a method -/

/-- The methods of drawing places. -/
inductive Method
  | inPlace
  | growing
  | rejecting
  deriving DecidableEq, Repr

/-- The method for drawing `amount` of `length` places.  In place is used when the places are
few for the amount, by thresholds in single precision. -/
def Method.choose (length amount : Nat) : Method :=
  let few := decide (length < 500000)
  let l : Float32 := length.toUInt64.toFloat32
  let a : Float32 := amount.toUInt64.toFloat32
  if amount < 163 then
    let slope : Float32 := if few then 1.6 else 8 / 45
    let offset : Float32 := if few then 10 else 70 / 9
    if 11 < amount ∧ l < (offset + slope * a) * a then inPlace else growing
  else
    let slope : Float32 := if few then 270 else 330 / 9
    if l < slope * a then inPlace else rejecting

/-- Draw `amount` of `length` places. -/
def samplePlaces (length amount : Nat) (g : Generator) : List Nat × Generator :=
  match Method.choose length amount with
  | .inPlace => sampleInPlace length amount g
  | .growing => sampleGrowing length amount g
  | .rejecting => sampleRejecting length amount g

/-- Draw `count` elements of a population without replacement, in the order of the draws. -/
def sample (population : Array UInt32) (count : Nat) :
    EStateM Fault Generator (List UInt32) := do
  if population.size < count then
    throw (.argument (.invalidValue (.sampleSize count population.size)))
  let places ← modifyGet (samplePlaces population.size count)
  return places.map fun p => population.getD p 0

end SparseTensor.Generator
