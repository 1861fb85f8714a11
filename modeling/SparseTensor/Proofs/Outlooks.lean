/-
# Outlooks

An outlook is all that can be seen of a forest from outside: of each node its shape, whether it
is a view or an orphan, and the cells that reading it comes to.  There are no encodings in it and
no registrations.

`Question.said` and `Mutation.said` say what every question and every change of a value comes to
by the outlook alone, and `Command.said` says so of every command.
-/
import SparseTensor.Proofs.Commands
import SparseTensor.Proofs.Reading

namespace SparseTensor

/-- What can be seen of a node. -/
structure Sight where
  shape : Shape
  isView : Bool
  orphaned : Bool
  cells : Except Fault Sparse

/-- What can be seen of each node, if it is lent out. -/
abbrev Outlook := NodeId → Except Fault Sight

/-- What can be seen of a node from its forest. -/
def Forest.sight {α : Type} (f : Forest α) (id : NodeId) (n : Node α) : Sight :=
  ⟨n.shape, n.role.isView, n.orphaned, f.shown id⟩

/-- The outlook on a forest. -/
def Forest.outlook {α : Type} (f : Forest α) : Outlook := fun id =>
  match f.available? id with
  | some n => .ok (f.sight id n)
  | none => .error .unknownNode

theorem Forest.outlook_of_some {α : Type} {f : Forest α} {id : NodeId} {n : Node α}
    (h : f.available? id = some n) : f.outlook id = .ok (f.sight id n) := by
  unfold Forest.outlook
  rw [h]

theorem Forest.outlook_of_none {α : Type} {f : Forest α} {id : NodeId}
    (h : f.available? id = none) : f.outlook id = .error .unknownNode := by
  unfold Forest.outlook
  rw [h]

/-! ## Questions -/

/-- Refuse an orphan. -/
def Sight.ensureLive (n : Sight) : Except Fault Unit :=
  if n.orphaned then throw .orphaned else return ()

/-- Refuse nodes of different sizes. -/
def Sight.ensureSameSize (n other : Sight) : Except Fault Unit :=
  if other.shape.size ≠ n.shape.size then
    throw (.argument (.dimensionMismatch n.shape.size other.shape.size))
  else return ()

/-- Whether the cell at some coordinates is active. -/
def Sight.isActive (n : Sight) (coords : List UInt32) : Except Fault Bool := do
  n.ensureLive
  match n.shape.checkCoordinates coords with
  | .error fault => throw (.argument fault)
  | .ok () => return (← n.cells).contains (n.shape.ravel coords)

/-- The number of cells that are active in both of two nodes. -/
def Sight.overlap (n other : Sight) : Except Fault Nat := do
  n.ensureLive
  other.ensureLive
  n.ensureSameSize other
  return (CellSet.intersect (← n.cells) (← other.cells)).length

/-- Whether two nodes have the same dimensions and can be read and have the same cells. -/
def Sight.equal (n other : Sight) : Bool :=
  if n.shape.dims ≠ other.shape.dims then false
  else n.cells.toOption.isSome && n.cells.toOption == other.cells.toOption

/-- The dimensions and the active cells as text. -/
def Sight.display (n : Sight) : String :=
  s!"SDR({listed n.shape.dims} )" ++
    match n.cells.toOption with
    | some cells => listed cells
    | none => " <orphaned>"

/-- What a record keeps of a node. -/
def Sight.snapshot (n : Sight) : Except Fault Snapshot := do
  return ⟨n.shape, ← n.cells⟩

/-- The answer to a question. -/
def Question.said {G : Type} (o : Outlook) : Question → Except Fault (Answer G)
  | facts id => do
    let n ← o id
    return .facts n.shape n.isView n.orphaned
  | dense id => do
    let n ← o id
    return .bits (Dense.ofSparse n.shape.size (← n.cells))
  | sparse id => do
    let n ← o id
    return .cells (← n.cells)
  | coordinates id => do
    let n ← o id
    return .coordinates (Coordinates.ofSparse n.shape (← n.cells))
  | sum id => do
    let n ← o id
    return .number (← n.cells).length
  | sparsity id => do
    let n ← o id
    return .fraction ((← n.cells).length.toFloat / n.shape.size.toFloat)
  | isActive id coords => do
    let n ← o id
    return .flag (← n.isActive coords)
  | overlap id other => do
    let n ← o id
    let m ← o other
    return .number (← n.overlap m)
  | equal id other => do
    let n ← o id
    let m ← o other
    return .flag (n.equal m)
  | display id => do
    let n ← o id
    return .text n.display
  | archive id => do
    let n ← o id
    return .archive (← n.snapshot).toArchive
  | save id format settings sink => do
    let n ← o id
    let (accepted, result) := Record.write format settings sink (← n.snapshot).toArchive
    result
    return .record accepted

/-! ## Changes -/

namespace Outlook

/-- A node that can be changed. -/
def mutable (o : Outlook) (id : NodeId) (mutator : Mutator) : Except Fault Sight := do
  let n ← o id
  if n.isView then throw (.readOnlyView mutator) else return n

/-- What a check admits. -/
def accept {β : Type} : Except ArgumentFault β → Except Fault β
  | .ok b => return b
  | .error fault => throw (.argument fault)

/-- The cells of the inputs of a set operation, each of the size of `n`. -/
def inputCells (o : Outlook) (n : Sight) : List NodeId → Except Fault (List Sparse)
  | [] => return []
  | input :: rest => do
    let m ← o input
    n.ensureSameSize m
    let cells ← m.cells
    return cells :: (← o.inputCells n rest)

/-- What combining the cells of the inputs comes to. -/
def combined (o : Outlook) (id : NodeId) (mutator : Mutator) (op : Sparse → Sparse → Sparse)
    (inputs : List NodeId) : Except Fault Sparse := do
  let n ← o.mutable id mutator
  match ← o.inputCells n inputs with
  | [] => throw (.argument (.invalidValue .noInputs))
  | first :: rest => return rest.foldl op first

/-- The bits of the inputs of a concatenation, and how many of each belong together. -/
def inputBits (o : Outlook) (axis : Nat) : List NodeId → Except Fault (List (Dense × Nat))
  | [] => return []
  | input :: rest => do
    let n ← o input
    let cells ← n.cells
    return (Dense.ofSparse n.shape.size cells, product (n.shape.dims.drop axis)) ::
      (← o.inputBits axis rest)

/-- The cells of the inputs joined end to end along an axis. -/
def joined (o : Outlook) (id : NodeId) (inputs : List NodeId) (axis : Nat) :
    Except Fault Sparse := do
  let n ← o.mutable id .concatenate
  if n.shape.rank ≤ axis then throw (.argument (.invalidValue (.axis axis n.shape.rank)))
  if inputs.isEmpty then throw (.argument (.invalidValue .noConcatenationInputs))
  let shapes ← inputs.mapM fun input => return (← o input).shape
  accept (Forest.checkExtents n.shape axis shapes)
  let blocks ← o.inputBits axis inputs
  return (Forest.joinRows (product (n.shape.dims.take axis)) blocks).toSparse

end Outlook

/-- The cells that a change comes to, and the answer to it. -/
def Mutation.said {G : Type} [RandomSource G] (o : Outlook) (id : NodeId) :
    Mutation G → Except Fault (Sparse × Answer G)
  | setDense bytes => do
    let n ← o.mutable id .setDense
    let d ← Outlook.accept (Dense.ofBytes n.shape.size bytes)
    return (d.toSparse, .done)
  | setSparse cells => do
    let n ← o.mutable id .setSparse
    Outlook.accept (Sparse.check n.shape.size cells)
    return (cells, .done)
  | setCoordinates coords => do
    let n ← o.mutable id .setCoordinates
    Outlook.accept (Coordinates.check n.shape coords)
    return (coords.toSparse n.shape, .done)
  | zero => do
    let _ ← o.mutable id .setSparse
    return ([], .done)
  | copyFrom other => do
    let n ← o.mutable id .setSdr
    let m ← o other
    n.ensureSameSize m
    return (← m.cells, .done)
  | randomize sparsity g => do
    let n ← o.mutable id .randomize
    Outlook.accept (Fraction.check "sparsity" sparsity)
    let count := Fraction.count sparsity n.shape.size
    let (chosen, g) := choose (CellSet.all n.shape.size).toArray count g
    return (chosen.mergeSort (· ≤ ·), .source g)
  | addNoise fraction g => do
    let n ← o.mutable id .addNoise
    Outlook.accept (Fraction.check "noise fraction" fraction)
    let cells ← n.cells
    let count := min (Fraction.count fraction cells.length) (n.shape.size - cells.length)
    let (cells, g) := Forest.displaced n.shape.size cells count g
    return (cells, .source g)
  | intersection inputs =>
    return (← o.combined id .intersection CellSet.intersect inputs, .done)
  | union inputs => return (← o.combined id .setUnion CellSet.unite inputs, .done)
  | concatenate inputs axis => return (← o.joined id inputs axis, .done)

/-! ## Commands -/

/-- What a command changes that can be seen. -/
inductive Happening
  | nothing
  /-- A canonical node is created. -/
  | found (shape : Shape) (cells : Sparse)
  /-- A view is created. -/
  | branch (parent : NodeId) (shape : Shape)
  /-- A node gets another value. -/
  | stored (id : NodeId) (cells : Sparse)
  /-- A node is destroyed. -/
  | gone (id : NodeId)

/-- The shape of a view with the given dimensions. -/
def Sight.reshape (n : Sight) (dims : List UInt32) : Except Fault Shape := do
  if n.orphaned then throw .orphaned
  Outlook.accept (n.shape.reshape dims)

/-- The answer to a command and what it changes; the next node to be created is named `next`.
Of registrations nothing can be seen, so tokens are not told. -/
def Command.said {α G : Type} [RandomSource G] (o : Outlook) (next : NodeId) :
    Command α G → Except Fault (Answer G × Happening)
  | ask question => return (← question.said o, .nothing)
  | create dims => do
    let shape ← Outlook.accept (Shape.ofDims dims)
    return (.node next, .found shape [])
  | reshape parent dims => do
    let p ← o parent
    return (.node next, .branch parent (← p.reshape dims))
  | view parent => do
    let p ← o parent
    return (.node next, .branch parent (← p.reshape p.shape.dims))
  | adopt a => do
    let s ← Snapshot.ofArchive a
    return (.node next, .found s.shape s.cells)
  | load format settings source => do
    let (a, rest) ← Record.read format settings source
    let s ← Snapshot.ofArchive a
    return (.loaded next rest, .found s.shape s.cells)
  | subscribe id _ => do
    let _ ← o id
    return (.done, .nothing)
  | unsubscribe id _ => do
    let _ ← o id
    return (.done, .nothing)
  | destroy id => do
    let _ ← o id
    return (.done, .gone id)
  | mutate id mutation => do
    let (cells, answer) ← mutation.said o id
    return (answer, .stored id cells)

/-- An answer without what it tells about registrations. -/
def Answer.plain {G : Type} : Answer G → Answer G
  | token _ => done
  | removed _ => done
  | answer => answer

end SparseTensor
