/-
# The generators of a session

Creating generators and drawing from them by their names.
-/
import SparseTensor.Random.Sample
import SparseTensor.Session.Basic

namespace SparseTensor.Session

variable {β : Type}

/-- Give a name to a generator. -/
def keep (name : String) (g : Generator) : Call Generator := do
  modify fun s => { s with generators := s.generators.set name g }
  return g

/-- A call on a generator, which goes on from where the call has left it, whether this answers or
fails. -/
def onGenerator (name : String) (c : EStateM Fault Generator β) : Call β := do
  let g ← generator name
  fun s =>
    match c g with
    | .ok b g => .ok b { s with generators := s.generators.set name g }
    | .error fault g => .error (.failed fault) { s with generators := s.generators.set name g }

/-- Draw from a generator. -/
def draw (name : String) (d : Generator → β × Generator) : Call β :=
  onGenerator name (modifyGet d)

/-- Draw some elements of a population from a generator. -/
def sample (name : String) (population : Array UInt32) (count : Nat) : Call (List UInt32) :=
  onGenerator name (Generator.sample population count)

end SparseTensor.Session
