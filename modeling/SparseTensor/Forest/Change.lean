/-
# Changing a node

Every change checks its arguments completely, stores the new value in the encoding in which it
arises, and lets the registrations of the node hear of it once.  A change that fails leaves
everything as it was, except that encodings which were derived on the way are kept.  Views are
never changed.

Changes at random draw from a source of words, which goes on from where they leave it.  They draw
behind all checks.

While its registrations hear of the change, the node is not lent out.
-/
import SparseTensor.Forest.Query
import SparseTensor.Fraction
import SparseTensor.Random.Source

namespace SparseTensor.Forest

variable {α : Type}

/-- Store a value in a node and let its registrations hear of it. -/
def store (react : Reaction α) (id : NodeId) (cache : Cache) (f : Forest α) : Forest α :=
  let f := f.update id fun n => { n with cache, available := false }
  (f.announce react id).update id fun n => { n with available := true }

/-- A node that can be changed. -/
def mutable (id : NodeId) (mutator : Mutator) : Call α (Node α) := do
  let n ← lent id
  if n.role.isView then throw (.readOnlyView mutator) else return n

/-- The value that a check admits. -/
def checked {β : Type} : Except ArgumentFault β → Call α β
  | .ok b => return b
  | .error fault => throw (.argument fault)

/-- Replace the value of a node by what a call comes to. -/
def replace (react : Reaction α) (id : NodeId) (value : Call α Cache) : Call α Unit := do
  modify (store react id (← value))

/-! ## Setting the value -/

/-- The value that bits are, given as bytes. -/
def denseValue (id : NodeId) (bytes : List UInt8) : Call α Cache := do
  let n ← mutable id .setDense
  return .ofDense (← checked (Dense.ofBytes n.shape.size bytes))

/-- Replace the value by bits, given as bytes. -/
def setDense (react : Reaction α) (id : NodeId) (bytes : List UInt8) : Call α Unit :=
  replace react id (denseValue id bytes)

/-- The value that a list of cells is. -/
def sparseValue (id : NodeId) (cells : List Cell) : Call α Cache := do
  let n ← mutable id .setSparse
  checked (Sparse.check n.shape.size cells)
  return .ofSparse cells

/-- Replace the value by a list of cells. -/
def setSparse (react : Reaction α) (id : NodeId) (cells : List Cell) : Call α Unit :=
  replace react id (sparseValue id cells)

/-- The value that coordinate lists are, in any order of their cells. -/
def coordinatesValue (id : NodeId) (coords : Coordinates) : Call α Cache := do
  let n ← mutable id .setCoordinates
  checked (Coordinates.check n.shape coords)
  return .ofCoordinates (coords.rowMajor n.shape)

/-- Replace the value by coordinate lists, in any order of their cells. -/
def setCoordinates (react : Reaction α) (id : NodeId) (coords : Coordinates) : Call α Unit :=
  replace react id (coordinatesValue id coords)

/-- Make every cell inactive. -/
def zero (react : Reaction α) (id : NodeId) : Call α Unit :=
  setSparse react id []

/-- The value of another node. -/
def copiedValue (id other : NodeId) : Call α Cache := do
  let n ← mutable id .setSdr
  let o ← lent other
  ensureSameSize n o
  return .ofSparse (← sparse other)

/-- Replace the value by that of another node. -/
def copyFrom (react : Reaction α) (id other : NodeId) : Call α Unit :=
  replace react id (copiedValue id other)

/-! ## Random values -/

/-- A call that may draw from a source.  Where it has left the source is known after a failure
too. -/
abbrev Drawing (α G β : Type) : Type :=
  EStateM Fault (Forest α × G) β

variable {β G : Type}

/-- A call that draws nothing. -/
def still (c : Call α β) : Drawing α G β := fun (f, g) =>
  match c f with
  | .ok b f => .ok b (f, g)
  | .error fault f => .error fault (f, g)

/-- Draw from the source. -/
def draw (d : G → β × G) : Drawing α G β := fun (f, g) => .ok (d g).1 (f, (d g).2)

variable [RandomSource G]

/-- A fraction of all cells, drawn without replacement. -/
def randomValue (id : NodeId) (sparsity : Float) : Drawing α G Cache := do
  let n ← still (mutable id .randomize)
  still (checked (Fraction.check "sparsity" sparsity))
  let count := Fraction.count sparsity n.shape.size
  let chosen ← draw (choose (CellSet.all n.shape.size).toArray count)
  return .ofSparse (chosen.mergeSort (· ≤ ·))

/-- Activate a fraction of all cells, drawn without replacement. -/
def randomize (react : Reaction α) (id : NodeId) (sparsity : Float) : Drawing α G Unit := do
  let value ← randomValue id sparsity
  still (modify (store react id value))

/-- The cells that are active after `count` of them have moved to inactive places. -/
def displaced (size : Nat) (cells : Sparse) (count : Nat) (g : G) : Sparse × G :=
  let (shuffled, g) := RandomSource.shuffle cells.toArray g
  let (chosen, g) := choose (CellSet.complement size cells).toArray count g
  ((shuffled.toList.drop count ++ chosen).mergeSort (· ≤ ·), g)

/-- The active cells, a fraction of them moved to inactive places, no more than there are of
these. -/
def noisyValue (id : NodeId) (fraction : Float) : Drawing α G Cache := do
  let n ← still (mutable id .addNoise)
  still (checked (Fraction.check "noise fraction" fraction))
  let cells ← still (sparse id)
  let count := min (Fraction.count fraction cells.length) (n.shape.size - cells.length)
  return .ofSparse (← draw (displaced n.shape.size cells count))

/-- Move a fraction of the active cells to inactive places. -/
def addNoise (react : Reaction α) (id : NodeId) (fraction : Float) : Drawing α G Unit := do
  let value ← noisyValue id fraction
  still (modify (store react id value))

/-! ## Combining nodes -/

/-- The cells of the inputs of a set operation, one list per input, each of the size of `n`. -/
def inputCells (n : Node α) : List NodeId → Call α (List Sparse)
  | [] => return []
  | input :: rest => do
    ensureSameSize n (← lent input)
    let cells ← sparse input
    return cells :: (← inputCells n rest)

/-- What combining the cells of the inputs comes to. -/
def combinedValue (id : NodeId) (mutator : Mutator) (op : Sparse → Sparse → Sparse)
    (inputs : List NodeId) : Call α Cache := do
  let n ← mutable id mutator
  match ← inputCells n inputs with
  | [] => throw (.argument (.invalidValue .noInputs))
  | first :: rest => return .ofSparse (rest.foldl op first)

/-- Activate the cells that are active in every input. -/
def intersection (react : Reaction α) (id : NodeId) (inputs : List NodeId) : Call α Unit :=
  replace react id (combinedValue id .intersection CellSet.intersect inputs)

/-- Activate the cells that are active in at least one input. -/
def union (react : Reaction α) (id : NodeId) (inputs : List NodeId) : Call α Unit :=
  replace react id (combinedValue id .setUnion CellSet.unite inputs)

/-- Check that a shape fits another in every dimension but one, and add its extent along that
one to `extent`. -/
def fitAlong (shape : Shape) (axis : Nat) (extent : Nat) (input : Shape) : Except ArgumentFault Nat :=
  if input.rank ≠ shape.rank then .error (.invalidLength shape.rank input.rank)
  else
    match (shape.dims.zip input.dims).zipIdx.find? fun ((mine, theirs), i) =>
        i ≠ axis && mine ≠ theirs with
    | some ((mine, theirs), _) =>
      .error (.dimensionMismatch mine.toNat theirs.toNat)
    | none => .ok (extent + (input.dims.getD axis 0).toNat)

/-- Check that the extents of some shapes along an axis add up to that of a shape. -/
def checkExtents (shape : Shape) (axis : Nat) (inputs : List Shape) : Except ArgumentFault Unit := do
  let extent ← inputs.foldlM (fitAlong shape axis) 0
  let own := (shape.dims.getD axis 0).toNat
  if extent = own then return () else throw (.dimensionMismatch own extent)

/-- The bits of the inputs of a concatenation, and how many of each belong together. -/
def inputBits (axis : Nat) : List NodeId → Call α (List (Dense × Nat))
  | [] => return []
  | input :: rest => do
    let n ← lent input
    let bits ← dense input
    return (bits, product (n.shape.dims.drop axis)) :: (← inputBits axis rest)

/-- The bits of `count` rows, each of them the rows of the blocks one behind the other. -/
def joinRows (count : Nat) (blocks : List (Dense × Nat)) : Dense :=
  ((List.range count).flatMap fun row =>
    blocks.flatMap fun (bits, width) =>
      (bits.extract (row * width) ((row + 1) * width)).toList).toArray

/-- The inputs joined end to end along an axis. -/
def joinedValue (id : NodeId) (inputs : List NodeId) (axis : Nat) : Call α Cache := do
  let n ← mutable id .concatenate
  if n.shape.rank ≤ axis then throw (.argument (.invalidValue (.axis axis n.shape.rank)))
  if inputs.isEmpty then throw (.argument (.invalidValue .noConcatenationInputs))
  let shapes ← inputs.mapM fun input => return (← lent input).shape
  checked (checkExtents n.shape axis shapes)
  let blocks ← inputBits axis inputs
  return .ofDense (joinRows (product (n.shape.dims.take axis)) blocks)

/-- Join the inputs end to end along an axis. -/
def concatenate (react : Reaction α) (id : NodeId) (inputs : List NodeId) (axis : Nat) :
    Call α Unit :=
  replace react id (joinedValue id inputs axis)

end SparseTensor.Forest
