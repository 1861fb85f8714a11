/-
# Questions about nodes

Everything that can be asked of one node or of two.  A question may derive encodings, which are
kept, and changes nothing else.
-/
import SparseTensor.CellSet
import SparseTensor.Forest.Lifetime

namespace SparseTensor.Forest

variable {α : Type}

/-- Refuse a node that is orphaned. -/
def ensureLive (n : Node α) : Call α Unit :=
  if n.orphaned then throw .orphaned else return ()

/-- Refuse nodes of different sizes. -/
def ensureSameSize (n other : Node α) : Call α Unit :=
  if other.shape.size ≠ n.shape.size then
    throw (.argument (.dimensionMismatch n.shape.size other.shape.size))
  else return ()

/-- The fraction of the cells of a node that are active. -/
def sparsity (id : NodeId) : Call α Float := do
  let n ← lent id
  return (← sum id).toFloat / n.shape.size.toFloat

/-- Whether the cell at some coordinates is active. -/
def isActive (id : NodeId) (coords : List UInt32) : Call α Bool := do
  let n ← lent id
  ensureLive n
  match n.shape.checkCoordinates coords with
  | .error fault => throw (.argument fault)
  | .ok () => return (← sparse id).contains (n.shape.ravel coords)

/-- The number of cells that are active in both of two nodes. -/
def overlap (id other : NodeId) : Call α Nat := do
  let n ← lent id
  let o ← lent other
  ensureLive n
  ensureLive o
  ensureSameSize n o
  let mine ← sparse id
  let theirs ← sparse other
  return (CellSet.intersect mine theirs).length

/-- The cells of a node, if it can be read. -/
def sparse? (id : NodeId) : Call α (Option Sparse) := fun f =>
  match sparse id f with
  | .ok cells f => .ok (some cells) f
  | .error _ f => .ok none f

/-- Whether two nodes have the same dimensions and the same active cells.  A node that cannot be
read equals none, not even itself. -/
def equal (id other : NodeId) : Call α Bool := do
  let n ← lent id
  let o ← lent other
  if n.shape.dims ≠ o.shape.dims then return false
  let mine ← sparse? id
  let theirs ← sparse? other
  return mine.isSome && mine == theirs

end SparseTensor.Forest
