/-
# Saving and loading nodes

A node is saved as its dimensions and active cells, whether it is canonical or a view, and
loaded as a canonical node.  Saving reads the node, so an orphan cannot be saved; loading
creates a node only when the record describes one.

Every record that is written or read completely is noted in the log, also when what is read
turns out to describe no node.
-/
import SparseTensor.Forest.Lifetime
import SparseTensor.Record
import SparseTensor.Snapshot

namespace SparseTensor.Forest

variable {α : Type}

/-- The value that something without effect comes to. -/
def settle {β : Type} : Except Fault β → Call α β
  | .ok b => return b
  | .error fault => throw fault

/-! ## Archives -/

/-- Save an archive: the record that was written. -/
def saveArchive (format : Format) (settings : Settings) (sink : Sink) (a : Archive) :
    Call α (List UInt8) := do
  let (accepted, result) := Record.write format settings sink a
  settle result
  modify fun f => f.noteAll [.savedRecord a.kind a.fields.length format]
  return accepted

/-- Load an archive: what the record holds, and the source behind it. -/
def loadArchive (format : Format) (settings : Settings) (source : Source) :
    Call α (Archive × Source) := do
  let (a, rest) ← settle (Record.read format settings source)
  modify fun f => f.noteAll [.loadedRecord a.kind a.fields.length format]
  return (a, rest)

/-! ## Nodes -/

/-- What a record keeps of a node. -/
def snapshot (id : NodeId) : Call α Snapshot := do
  let n ← lent id
  return ⟨n.shape, ← sparse id⟩

/-- Create the canonical node that a snapshot describes. -/
def restore (s : Snapshot) : Call α NodeId := fun f =>
  .ok f.nodes.size (f.push { Node.canonical s.shape with cache := .ofSparse s.cells })

/-- Create the canonical node that an archive describes. -/
def adopt (a : Archive) : Call α NodeId := do
  restore (← settle (Snapshot.ofArchive a))

/-- Save a node: the record that was written. -/
def save (id : NodeId) (format : Format) (settings : Settings) (sink : Sink) :
    Call α (List UInt8) := do
  saveArchive format settings sink (← snapshot id).toArchive

/-- Load a node: its name, and the source behind its record. -/
def load (format : Format) (settings : Settings) (source : Source) :
    Call α (NodeId × Source) := do
  let (a, rest) ← loadArchive format settings source
  return (← adopt a, rest)

end SparseTensor.Forest
