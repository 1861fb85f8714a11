/-
# Sessions

A session is a forest whose nodes go by names, together with named generators, byte buffers and
tokens.  Its listeners are described by data: a listener has a name and may have a rule that
says what it does when it hears an event.  Rules speak of nodes and tokens by their names, which
are resolved when the rule is followed.

A session proceeds in steps.  A step answers, or refuses, and tells what has happened to
listeners and what has been noted meanwhile.
-/
import SparseTensor.Forest.Persistence
import SparseTensor.Names
import SparseTensor.Random.Generator

namespace SparseTensor

/-! ## Listeners -/

/-- What a rule does to the node that it names. -/
inductive RuleDeed
  | read
  | askOrphaned
  /-- Register a listener without a rule and give its token a name. -/
  | subscribe (token : String)
  | unsubscribe (token : String)
  | destroy
  deriving DecidableEq, Repr

/-- What to do on an event. -/
structure Rule where
  event : Event
  node : String
  deed : RuleDeed
  deriving DecidableEq, Repr

/-- A listener, by the name of its token. -/
structure Listener where
  name : String
  rule : Option Rule
  deriving DecidableEq, Repr

/-- The action that a rule demands, its names resolved. -/
def Rule.action (r : Rule) (nodes : Names NodeId) (tokens : Names Token) : Action Listener where
  node := nodes.get? r.node
  deed :=
    match r.deed with
    | .read => .read
    | .askOrphaned => .askOrphaned
    | .subscribe token => .subscribe ⟨token, none⟩
    | .unsubscribe token => .unsubscribe (tokens.get? token)
    | .destroy => .destroy

/-- The names of tokens after what has happened to listeners. -/
def Names.afterTrace (tokens : Names Token) (trace : List (Occurrence Listener)) : Names Token :=
  trace.foldl
    (fun tokens occurrence =>
      match occurrence with
      | .acted _ ⟨_, .subscribe l⟩ (.token n) => tokens.set l.name n
      | _ => tokens)
    tokens

/-! ## Sessions -/

/-- A forest and what goes by a name. -/
structure Session where
  forest : Forest Listener
  nodes : Names NodeId
  tokens : Names Token
  generators : Names Generator
  buffers : Names (List UInt8)

/-- Why a step does not answer. -/
inductive Refusal
  /-- Nothing goes by this name. -/
  | unknown (name : String)
  | failed (fault : Fault)
  deriving DecidableEq

namespace Session

variable {β : Type}

/-- The session at its start. -/
def empty : Session := ⟨.empty, .empty, .empty, .empty, .empty⟩

/-- A call that may be refused. -/
abbrev Call (β : Type) : Type :=
  EStateM Refusal Session β

/-- What listeners do when they hear an event: what their rule says, if it is about the event.
Tokens that were named since the trace began go before those named earlier. -/
def reaction (s : Session) : Reaction Listener := fun f l event =>
  match l.rule with
  | some r =>
    if r.event = event then [r.action s.nodes (s.tokens.afterTrace f.trace)] else []
  | none => []

/-- A call on the forest. -/
def onForest (c : Forest.Call Listener β) : Call β := fun s =>
  match c s.forest with
  | .ok b forest => .ok b { s with forest }
  | .error fault forest => .error (.failed fault) { s with forest }

/-- The value that something without effect comes to. -/
def settle : Except Fault β → Call β
  | .ok b => return b
  | .error fault => throw (.failed fault)

/-- What a name stands for. -/
def resolve (name : String) : Option β → Call β
  | some b => return b
  | none => throw (.unknown name)

/-- The node with a name. -/
def node (name : String) : Call NodeId := do
  resolve name ((← get).nodes.get? name)

/-- The generator with a name. -/
def generator (name : String) : Call Generator := do
  resolve name ((← get).generators.get? name)

/-! ## Steps -/

/-- What a step comes to. -/
structure Step (β : Type) where
  answer : Except Refusal β
  trace : List (Occurrence Listener)
  log : List Note

/-- Take a step.  The trace and the log start anew, and tokens that listeners have named keep
their names. -/
def step (c : Call β) (s : Session) : Step β × Session :=
  let start := { s with forest := { s.forest with trace := [], log := [] } }
  let finish (answer : Except Refusal β) (s : Session) :=
    (⟨answer, s.forest.trace, s.forest.log⟩,
      { s with tokens := s.tokens.afterTrace s.forest.trace })
  match c start with
  | .ok b s => finish (.ok b) s
  | .error refusal s => finish (.error refusal) s

end Session

end SparseTensor
