/-
# The records of a session

Nodes and generators are saved to buffers and loaded from them.  A load takes its record from
the front of a buffer; a load that fails loses the buffer.
-/
import SparseTensor.Session.Generators
import SparseTensor.Session.Nodes

namespace SparseTensor.Session

variable {β : Type}

/-- How a record is saved or loaded: the code of its format, and the settings. -/
structure Manner where
  code : UInt32
  settings : Settings

/-! ## Saving -/

/-- Append to a buffer, if one is given. -/
def append (buffer : Option String) (bytes : List UInt8) : Call Unit :=
  match buffer with
  | none => return ()
  | some name =>
    modify fun s =>
      { s with buffers := s.buffers.set name ((s.buffers.get? name).getD [] ++ bytes) }

/-- Save a node: the record. -/
def saveNode (name : String) (manner : Manner) (sink : Sink) (buffer : Option String) :
    Call (List UInt8) := do
  let id ← node name
  let format ← settle (Record.formatOfCode manner.code)
  let bytes ← onForest (Forest.save id format manner.settings sink)
  append buffer bytes
  return bytes

/-- Save a generator: the record. -/
def saveGenerator (name : String) (manner : Manner) (sink : Sink) (buffer : Option String) :
    Call (List UInt8) := do
  let g ← generator name
  let format ← settle (Record.formatOfCode manner.code)
  let bytes ← onForest (Forest.saveArchive format manner.settings sink g.toArchive)
  append buffer bytes
  return bytes

/-! ## Loading -/

/-- Load from a buffer, which is empty if it does not exist. -/
def take (buffer : String) (load : Source → Call (β × Source)) : Call β := do
  let bytes := ((← get).buffers.get? buffer).getD []
  modify fun s => { s with buffers := s.buffers.erase buffer }
  let (b, rest) ← load (Source.ofBytes bytes)
  append (some buffer) rest.bytes
  return b

/-- The number of bytes in a buffer. -/
def bufferLength (buffer : String) : Call Nat := do
  return (((← get).buffers.get? buffer).getD []).length

/-- Load a node from the front of a source and give it a name. -/
def loadNode (name : String) (manner : Manner) (source : Source) : Call (Unit × Source) := do
  let format ← settle (Record.formatOfCode manner.code)
  let (id, rest) ← onForest (Forest.load format manner.settings source)
  assign name id
  return ((), rest)

/-- Load a generator from the front of a source and give it a name. -/
def loadGenerator (name : String) (manner : Manner) (source : Source) :
    Call (Generator × Source) := do
  let format ← settle (Record.formatOfCode manner.code)
  let (a, rest) ← onForest (Forest.loadArchive format manner.settings source)
  let g ← keep name (← settle (Generator.ofArchive a))
  return (g, rest)

/-! ## Files -/

/-- Load a node from a file, given what is in it if it exists, and give it a name. -/
def loadFile (name : String) (manner : Manner) (file : Option (List UInt8)) : Call Unit := do
  let _ ← settle (Record.formatOfCode manner.code)
  match file with
  | none => throw (.failed (.io .notFound))
  | some bytes =>
    let _ ← loadNode name manner (Source.ofBytes bytes)

end SparseTensor.Session
