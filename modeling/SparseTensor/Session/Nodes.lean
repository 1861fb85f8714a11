/-
# The nodes of a session

Creating, destroying, reading and changing nodes by their names.
-/
import SparseTensor.Forest.Change
import SparseTensor.Forest.Describe
import SparseTensor.Session.Basic

namespace SparseTensor.Session

variable {β : Type}

/-! ## Names -/

/-- Let a call change a node; listeners react by their rules. -/
def change (name : String) (c : Reaction Listener → NodeId → Forest.Call Listener β) :
    Call β := do
  let id ← node name
  let s ← get
  onForest (c s.reaction id)

/-- Ask about a node. -/
def ask (name : String) (question : NodeId → Forest.Call Listener β) : Call β := do
  onForest (question (← node name))

/-- Ask about two nodes. -/
def askBoth (name other : String) (question : NodeId → NodeId → Forest.Call Listener β) :
    Call β := do
  let id ← node name
  onForest (question id (← node other))

/-- Give a name to a node.  A node that had the name is destroyed. -/
def assign (name : String) (id : NodeId) : Call Unit := do
  let s ← get
  modify fun s => { s with nodes := s.nodes.set name id }
  match s.nodes.get? name with
  | none => return ()
  | some former =>
    if (s.forest.available? former).isSome then
      onForest (Forest.destroy (← get).reaction former)

/-- Create a node with a name. -/
def create (name : String) (c : Forest.Call Listener NodeId) : Call Unit := do
  assign name (← onForest c)

/-! ## The life of nodes -/

/-- Create a canonical node. -/
def createNode (name : String) (dims : List UInt32) : Call Unit :=
  create name (Forest.create dims)

/-- Create a view of a node with other dimensions. -/
def reshape (name parent : String) (dims : List UInt32) : Call Unit := do
  let id ← node parent
  create name (Forest.reshape id dims)

/-- Create a view of a node with its dimensions. -/
def view (name parent : String) : Call Unit := do
  let id ← node parent
  create name (Forest.view id)

/-- Destroy a node. -/
def destroy (name : String) : Call Unit :=
  change name Forest.destroy

/-- Register a listener with a node and name its token. -/
def subscribe (name : String) (listener : Listener) : Call Token := do
  let token ← ask name fun id => Forest.subscribe id listener
  modify fun s => { s with tokens := s.tokens.set listener.name token }
  return token

/-- Remove the registration with a token from a node; the answer says whether there was one. -/
def unsubscribe (name token : String) : Call Bool := do
  let number ← resolve token ((← get).tokens.get? token)
  ask name fun id => Forest.unsubscribe id number

/-! ## Questions -/

/-- A node as it is. -/
def facts (name : String) : Call (Node Listener) :=
  ask name Forest.lent

/-- The state of a node as text. -/
def summary (name : String) : Call String := do
  return (← facts name).summary

/-! ## Combining nodes -/

/-- Let a call change a node by means of others. -/
def changeFrom (name : String) (inputs : List String)
    (c : Reaction Listener → NodeId → List NodeId → Forest.Call Listener β) : Call β := do
  let inputs ← inputs.mapM node
  change name fun react id => c react id inputs

/-- Replace the value of a node by that of another. -/
def copyFrom (name other : String) : Call Unit := do
  let source ← node other
  change name fun react id => Forest.copyFrom react id source

/-! ## Random values -/

/-- Let a call change a node and draw from a generator, which goes on from where the call has left
it, whether this answers or fails. -/
def changeAtRandom (name source : String)
    (c : Reaction Listener → NodeId → Forest.Drawing Listener Generator β) : Call β := do
  let id ← node name
  let g ← generator source
  fun s =>
    match c s.reaction id (s.forest, g) with
    | .ok b (forest, g) => .ok b { s with forest, generators := s.generators.set source g }
    | .error fault (forest, g) =>
      .error (.failed fault) { s with forest, generators := s.generators.set source g }

end SparseTensor.Session
