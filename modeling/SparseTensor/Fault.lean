/-
# Faults

Everything that can go wrong, as causes with their data, and the wording of each.

A fault belongs to one of three groups.  Argument faults say that a value handed to an
operation is not one it takes; they are found before anything is changed.  Lifetime faults
belong to views: a view cannot be changed, and cannot be read once its parent is gone.
Persistence faults separate damaged records (`Fault.corrupt`, `Fault.versionMismatch`) from
failing streams (`Fault.io`).
-/
import SparseTensor.Format
import SparseTensor.Text.Quoted

namespace SparseTensor

/-- The version written into every record and the only one that is read. -/
def recordVersion : UInt32 := 1

/-! ## Argument faults -/

/-- Why a value is outside its permitted domain. -/
inductive ValueFault
  /-- A node was given no dimensions. -/
  | noDimensions
  /-- A view was given no dimensions. -/
  | noViewDimensions
  /-- The dimension at `position` is zero. -/
  | zeroDimension (position : Nat)
  /-- The dimensions describe more cells than indices can count. -/
  | tooManyCells (dims : List UInt32)
  /-- A dense entry is neither zero nor one. -/
  | denseEntry (index : Nat) (value : UInt8)
  /-- A cell is listed twice. -/
  | repeatedCell (cell : UInt32)
  /-- A fraction is not within zero and one. -/
  | fraction (what : String) (value : Float)
  /-- A set operation was given no inputs. -/
  | noInputs
  /-- A concatenation was given no inputs. -/
  | noConcatenationInputs
  /-- The axis of a concatenation is not below the rank. -/
  | axis (position rank : Nat)
  /-- More elements are to be drawn than there are. -/
  | sampleSize (count population : Nat)
  /-- A binary payload does not fit its length field. -/
  | payloadSize (bytes : Nat)
  deriving DecidableEq

/-- What can be wrong with the arguments of an operation. -/
inductive ArgumentFault
  | invalidLength (expected actual : Nat)
  | indexOutOfRange (index bound : Nat)
  /-- Indices are not strictly ascending at `position`. -/
  | invalidOrder (position : Nat)
  | invalidValue (cause : ValueFault)
  | dimensionMismatch (expected actual : Nat)
  deriving DecidableEq

/-! ## Persistence faults -/

/-- The kinds of failure that a byte stream reports.  The list of kinds is open, so any further one
is known by its name.  An interruption is not among them: a call that is interrupted is made again,
and the stream goes on. -/
inductive IoKind
  | brokenPipe
  | unexpectedEof
  | invalidData
  | permissionDenied
  | notFound
  | other
  | further (name : String)
  deriving DecidableEq, Repr

/-- How a record is damaged. -/
inductive Corruption
  /-- The input ends before the record does. -/
  | truncated (format : Format)
  /-- The stream itself calls its bytes invalid. -/
  | invalid (format : Format)
  /-- A 7-bit encoded integer does not fit in 64 bits. -/
  | integerOverflow
  /-- A count is larger than what is left can hold. -/
  | countExceedsRemaining (count : UInt64) (remaining : Nat)
  /-- A length-prefixed text is not UTF-8. -/
  | invalidText
  | noBinaryMagic
  | payloadExceedsLimit (length : UInt32) (limit : UInt64)
  | payloadTruncated (actual expected : Nat)
  | payloadEndsEarly
  | unknownFieldTag (tag : UInt8) (name : String)
  | unusedPayload (bytes : Nat)
  | invalidKind (kind : String)
  | invalidFieldName (name : String)
  | repeatedField (name : String)
  | wrongKind (expected found : String)
  | notScalar (name : String)
  | notList (name : String)
  | missingField (name : String)
  | noPortableMagic
  | versionOutOfRange (version : UInt64)
  | noPortableKind
  | malformedPortableHeader
  | noTerminator
  | emptyLine
  | unknownFieldType (found : Option String) (name : String)
  | trailingData (name : String)
  | missingValue (what : String)
  | invalidNumber (token what : String)
  | countMismatch (name : String) (declared : UInt64) (held : Nat)
  | notJsonRecord
  | noJsonVersion
  /-- The text is not JSON, or not a record. -/
  | malformedJson
  | notXmlRecord
  | invalidXmlVersion (version : String)
  | invalidXmlCount (count name : String)
  | missingAttribute (name : String)
  /-- The attributes before the wanted one are not well-formed. -/
  | malformedAttributes
  /-- The value of the wanted attribute is not well-formed. -/
  | malformedAttribute (name : String)
  | unexpectedElement (name : String)
  | strayText
  | malformedXmlText
  | characterData
  /-- The markup is not well-formed. -/
  | malformedXml
  | dimensionOutOfRange (value : UInt64)
  | cellOutOfRange (value : UInt64)
  | invalidDimensions (cause : ArgumentFault)
  | invalidCells (cause : ArgumentFault)
  | positionWords (found : Nat)
  | positionBeyondStream (position : Nat)
  deriving DecidableEq

/-! ## Faults -/

/-- The operations that change the value of a node. -/
inductive Mutator
  | setDense
  | setSparse
  | setCoordinates
  | setSdr
  | randomize
  | addNoise
  | intersection
  | setUnion
  | concatenate
  deriving DecidableEq, Repr

/-- Everything that can go wrong. -/
inductive Fault
  | argument (fault : ArgumentFault)
  /-- A view was to be changed. -/
  | readOnlyView (mutator : Mutator)
  /-- A node that is no view was asked for its parent. -/
  | noParent
  /-- A view was used after its parent was destroyed. -/
  | orphaned
  /-- A node that does not exist, or that its owner does not lend out. -/
  | unknownNode
  | unknownFormat (code : UInt32)
  | corrupt (cause : Corruption)
  | versionMismatch (found : UInt32)
  /-- A read past the end of some bytes. -/
  | outOfBounds
  | io (kind : IoKind)
  deriving DecidableEq

end SparseTensor
