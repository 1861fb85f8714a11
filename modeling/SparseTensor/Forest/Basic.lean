/-
# Forests

A forest holds nodes.  A canonical node has a value of its own; a view shows the value of
another node, its parent, in another shape.  Listeners are registered with nodes and hear when
the value of a node changes and when the node is destroyed; a view hears its parent through a
registration of its own, which nobody sees.

`α` is what is known about a listener that is not a view.

A node is kept alive by its holders: its owner, until its destruction is over, and every
delivery that is under way in it.  A parent that nobody holds cannot be reached by its views.
-/
import SparseTensor.Cache

namespace SparseTensor

/-- The name of a node.  A node created later has a greater one. -/
abbrev NodeId := Nat

/-- The name of a registration within its node. -/
abbrev Token := Nat

/-- What listeners hear. -/
inductive Event
  | valueChanged
  | destroyed
  deriving DecidableEq, Repr

/-- Who hears the events of a node. -/
inductive Target (α : Type)
  | view (child : NodeId)
  | listener (listener : α)
  deriving DecidableEq, Repr

/-- A listener of a node. -/
structure Registration (α : Type) where
  token : Token
  target : Target α
  deriving DecidableEq, Repr

/-- How a view finds its parent, and the registration by which it hears it. -/
structure Link where
  parent : NodeId
  token : Token
  deriving DecidableEq, Repr

/-- What a node is.  A view has no link once it is orphaned or destroyed. -/
inductive Role
  | canonical
  | view (link : Option Link)
  deriving DecidableEq, Repr

/-- Whether a role is that of a view. -/
def Role.isView : Role → Bool
  | canonical => false
  | view _ => true

/-- The role after the link to the parent is dropped. -/
def Role.unlinked : Role → Role
  | canonical => canonical
  | view _ => view none

/-- The link to the parent, if there is one. -/
def Role.link? : Role → Option Link
  | canonical => none
  | view link => link

/-- A node. -/
structure Node (α : Type) where
  shape : Shape
  role : Role
  orphaned : Bool
  cache : Cache
  nextToken : Token
  registrations : List (Registration α)
  /-- Whether the owner lends it out: not while it is being changed, and not from the start of
  its destruction on. -/
  available : Bool
  /-- How many hold on to it. -/
  holders : Nat

namespace Node

variable {α : Type}

/-- A new canonical node without active cells. -/
def canonical (shape : Shape) : Node α where
  shape
  role := .canonical
  orphaned := false
  cache := .empty
  nextToken := 0
  registrations := []
  available := true
  holders := 1

/-- A new view, which has not read its parent yet. -/
def view (shape : Shape) (link : Link) : Node α :=
  { canonical shape with role := .view (some link), cache := .stale }

/-- Register a target behind all others. -/
def subscribe (n : Node α) (target : Target α) : Node α :=
  { n with
    nextToken := n.nextToken + 1
    registrations := n.registrations ++ [⟨n.nextToken, target⟩] }

/-- Remove the registration with a token. -/
def unsubscribe (n : Node α) (token : Token) : Node α :=
  { n with registrations := n.registrations.filter (·.token ≠ token) }

/-- Whether a registration has a token. -/
def hasToken (n : Node α) (token : Token) : Bool :=
  n.registrations.any (·.token = token)

end Node

/-! ## What listeners do -/

/-- What a listener can do to a node when it hears an event. -/
inductive Deed (α : Type)
  /-- Read its cells. -/
  | read
  /-- Ask whether it is orphaned. -/
  | askOrphaned
  /-- Register another listener with it. -/
  | subscribe (listener : α)
  /-- Remove a registration from it, if the listener knows one. -/
  | unsubscribe (token : Option Token)
  | destroy
  deriving DecidableEq, Repr

/-- A deed, and the node it is done to, if the listener knows one. -/
structure Action (α : Type) where
  node : Option NodeId
  deed : Deed α
  deriving DecidableEq, Repr

/-- What comes of an action. -/
inductive Outcome
  /-- The node or the registration is not there. -/
  | absent
  | cells (result : Except Fault Sparse)
  | flag (b : Bool)
  | token (token : Token)
  | destroyed

/-- What happens to the listeners that are not views. -/
inductive Occurrence (α : Type)
  /-- A listener hears an event of the node `source`, where it is registered under `token`. -/
  | heard (source : NodeId) (token : Token) (listener : α) (event : Event)
  /-- An action of a listener is over. -/
  | acted (listener : α) (action : Action α) (outcome : Outcome)

/-! ## Forests -/

/-- The nodes, what has happened to listeners, and what has been noted. -/
structure Forest (α : Type) where
  nodes : Array (Node α)
  trace : List (Occurrence α)
  log : List Note

namespace Forest

variable {α β : Type}

/-- The forest without nodes. -/
def empty : Forest α := ⟨#[], [], []⟩

/-- A call that may fail; the forest is kept when it does. -/
abbrev Call (α β : Type) : Type :=
  EStateM Fault (Forest α) β

/-- Change a node. -/
def update (f : Forest α) (id : NodeId) (g : Node α → Node α) : Forest α :=
  { f with nodes := f.nodes.modify id g }

/-- Add an occurrence to the trace. -/
def record (f : Forest α) (o : Occurrence α) : Forest α :=
  { f with trace := f.trace ++ [o] }

/-- Add entries to the log. -/
def noteAll (f : Forest α) (notes : List Note) : Forest α :=
  { f with log := f.log ++ notes }

/-- Whether somebody holds on to a node. -/
def isAlive (f : Forest α) (id : NodeId) : Bool :=
  f.nodes[id]?.any fun n => 0 < n.holders

/-- A node that its owner lends out. -/
def available? (f : Forest α) (id : NodeId) : Option (Node α) :=
  f.nodes[id]?.filter (·.available)

/-- A node that its owner lends out; any other is unknown. -/
def lent (id : NodeId) : Call α (Node α) := do
  match (← get).available? id with
  | some n => return n
  | none => throw .unknownNode

@[simp] theorem size_update (f : Forest α) (id : NodeId) (g : Node α → Node α) :
    (f.update id g).nodes.size = f.nodes.size := by
  simp [update]

@[simp] theorem nodes_record (f : Forest α) (o : Occurrence α) :
    (f.record o).nodes = f.nodes := rfl

@[simp] theorem nodes_noteAll (f : Forest α) (notes : List Note) :
    (f.noteAll notes).nodes = f.nodes := rfl

end Forest

end SparseTensor
