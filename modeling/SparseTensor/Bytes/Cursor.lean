/-
# Cursors

A cursor is a place in some bytes from which the next read starts.  Its calls either ask about
the place or read from it; `perform` says what a call answers and where it leaves the cursor.
-/
import SparseTensor.Bytes.Reader

namespace SparseTensor

/-- A place in some bytes: all of them, and those from the place on. -/
structure Cursor where
  data : List UInt8
  rest : List UInt8

namespace Cursor

/-- The cursor at the start of some bytes. -/
def start (data : List UInt8) : Cursor := ⟨data, data⟩

/-- The number of bytes in front of the place. -/
def position (c : Cursor) : Nat := c.data.length - c.rest.length

/-- The widths in bytes of the machine words that can be read. -/
inductive Width
  | one
  | two
  | four
  | eight
  deriving DecidableEq, Repr

/-- A width as a number of bytes. -/
def Width.bytes : Width → Nat
  | one => 1
  | two => 2
  | four => 4
  | eight => 8

/-- What can be asked of a cursor. -/
inductive Call
  /-- The number of bytes there are. -/
  | length
  /-- Whether there are no bytes. -/
  | isEmpty
  /-- Whether there are bytes from the place on. -/
  | hasMore
  /-- The number of bytes from the place on. -/
  | remaining
  | word (width : Width)
  | varint
  | count
  | text
  | bytes (n : Nat)
  deriving DecidableEq, Repr

/-- What a cursor answers. -/
inductive Answer
  | size (n : Nat)
  | flag (b : Bool)
  /-- An integer that was read. -/
  | integer (n : Nat)
  | text (s : String)
  | bytes (bs : List UInt8)
  deriving DecidableEq, Repr

/-- Read from the place and move behind what was taken. -/
def read {α : Type} (r : Reader α) (answer : α → Answer) (c : Cursor) :
    EStateM.Result Fault Cursor Answer :=
  match r c.rest with
  | .ok a rest => .ok (answer a) { c with rest }
  | .error fault rest => .error fault { c with rest }

/-- What a call answers, and where it leaves the cursor. -/
def perform : Call → EStateM Fault Cursor Answer
  | .length => return .size (← get).data.length
  | .isEmpty => return .flag (← get).data.isEmpty
  | .hasMore => do
    let c ← get
    return .flag (c.position < c.data.length)
  | .remaining => do
    let c ← get
    return .size (c.data.length - c.position)
  | .word width => read (Reader.word width.bytes) .integer
  | .varint => read Reader.varint fun v => .integer v.toNat
  | .count => read Reader.count .integer
  | .text => read Reader.text .text
  | .bytes n => read (Reader.take n) .bytes

/-- The cursor that a call leaves, whether it succeeds or not. -/
def after (c : Cursor) (call : Call) : Cursor :=
  match perform call c with
  | .ok _ next => next
  | .error _ next => next

/-- The cursor after a sequence of calls, whatever they answer. -/
def afterAll (c : Cursor) (calls : List Call) : Cursor :=
  calls.foldl after c

end Cursor

end SparseTensor
