/-
# The life of nodes and registrations

Nodes are created canonical or as views of other nodes, and listeners come and go.  A view is
registered with its parent from its creation on.
-/
import SparseTensor.Forest.Delivery

namespace SparseTensor.Forest

variable {α : Type}

/-- Add a node, whose name is the number of nodes before it. -/
def push (f : Forest α) (n : Node α) : Forest α :=
  { f with nodes := f.nodes.push n }

/-- Create a canonical node without active cells. -/
def create (dims : List UInt32) : Call α NodeId := fun f =>
  match Shape.ofDims dims with
  | .error fault => .error (.argument fault) f
  | .ok shape => .ok f.nodes.size (f.push (.canonical shape))

/-- Create a view of a node with other dimensions of the same size. -/
def reshape (parent : NodeId) (dims : List UInt32) : Call α NodeId := do
  let p ← lent parent
  if p.orphaned then throw .orphaned
  match p.shape.reshape dims with
  | .error fault => throw (.argument fault)
  | .ok shape =>
    let child := (← get).nodes.size
    modify fun f =>
      ((f.update parent fun p => p.subscribe (.view child)).push
        (.view shape ⟨parent, p.nextToken⟩)).noteAll [.createdView dims p.shape.dims]
    return child

/-- Create a view of a node with its own dimensions. -/
def view (parent : NodeId) : Call α NodeId := do
  reshape parent (← lent parent).shape.dims

/-- Register a listener with a node. -/
def subscribe (id : NodeId) (listener : α) : Call α Token := do
  let n ← lent id
  modify fun f => f.update id fun n => n.subscribe (.listener listener)
  return n.nextToken

/-- Remove the registration with a token from a node; the answer says whether there was one. -/
def unsubscribe (id : NodeId) (token : Token) : Call α Bool := do
  let n ← lent id
  modify fun f => f.update id fun n => n.unsubscribe token
  return n.hasToken token

end SparseTensor.Forest
