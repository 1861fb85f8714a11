/-
# The wording of faults

One text per cause.  Texts of damaged records that a lower layer would continue with details
end at the point where those details would start.
-/
import SparseTensor.Fault
import SparseTensor.Real.Shortest

namespace SparseTensor

/-- A list of numbers between square brackets. -/
def bracketed (ns : List UInt32) : String :=
  "[" ++ ", ".intercalate (ns.map fun n => toString n.toNat) ++ "]"

/-- The wording of a value outside its permitted domain. -/
def ValueFault.message : ValueFault → String
  | noDimensions => "an SDR needs at least one dimension"
  | noViewDimensions => "a view needs at least one dimension"
  | zeroDimension position => s!"dimension {position} is zero"
  | tooManyCells dims => s!"dimensions {bracketed dims} exceed the u32 cell limit"
  | denseEntry index value => s!"dense entry {index} is {value}, expected 0 or 1"
  | repeatedCell cell => s!"cell {cell} is listed more than once"
  | fraction what value => s!"{what} must be within [0, 1], got {Decimal.ofFloat value}"
  | noInputs => "at least one input is required"
  | noConcatenationInputs => "concatenate needs at least one input"
  | axis position rank => s!"axis {position} is out of range for {rank} dimensions"
  | sampleSize count population =>
    s!"cannot sample {count} elements from a population of {population}"
  | payloadSize bytes => s!"binary record payload of {bytes} bytes exceeds the format limit"

/-- The wording of an argument fault. -/
def ArgumentFault.message : ArgumentFault → String
  | invalidLength expected actual => s!"Invalid length - expected {expected}, got {actual}"
  | indexOutOfRange index bound => s!"Index {index} is out of range for bound {bound}"
  | invalidOrder position =>
    s!"Sparse indices must be strictly ascending - violated at position {position}"
  | invalidValue cause => s!"Invalid value - {cause.message}"
  | dimensionMismatch expected actual =>
    s!"Dimension mismatch - expected size {expected}, got {actual}"

/-- The name of a mutator. -/
def Mutator.name : Mutator → String
  | setDense => "set_dense"
  | setSparse => "set_sparse"
  | setCoordinates => "set_coordinates"
  | setSdr => "set_sdr"
  | randomize => "randomize"
  | addNoise => "add_noise"
  | intersection => "intersection"
  | setUnion => "set_union"
  | concatenate => "concatenate"

/-- The name of a kind of stream failure. -/
def IoKind.name : IoKind → String
  | brokenPipe => "BrokenPipe"
  | unexpectedEof => "UnexpectedEof"
  | invalidData => "InvalidData"
  | permissionDenied => "PermissionDenied"
  | notFound => "NotFound"
  | other => "Other"
  | further name => name

/-- The spelling of a field type inside a message: quoted if there is one. -/
def shownFieldType : Option String → String
  | none => "None"
  | some found => "Some(" ++ String.ofList (Text.quoted found.toList) ++ ")"

/-- The wording of a damage. -/
def Corruption.message : Corruption → String
  | truncated format => s!"truncated {format.title} record"
  | invalid format => s!"invalid {format.title} record"
  | integerOverflow => "7-bit encoded integer overflow: value exceeds u64 capacity"
  | countExceedsRemaining count remaining =>
    s!"element count {count} exceeds the {remaining} remaining bytes"
  | invalidText => "invalid UTF-8 in length-prefixed string"
  | noBinaryMagic => "binary record does not start with SDRB"
  | payloadExceedsLimit length limit =>
    s!"binary record payload of {length} bytes exceeds the limit of {limit}"
  | payloadTruncated actual expected =>
    s!"truncated binary record: {actual} of {expected} payload bytes"
  | payloadEndsEarly => "binary record payload ends early"
  | unknownFieldTag tag name => s!"unknown field tag {tag} for '{name}'"
  | unusedPayload bytes => s!"{bytes} unused bytes after the last field"
  | invalidKind kind => s!"invalid record kind '{kind}'"
  | invalidFieldName name => s!"invalid field name '{name}'"
  | repeatedField name => s!"field '{name}' appears twice"
  | wrongKind expected found => s!"expected a '{expected}' record, found '{found}'"
  | notScalar name => s!"field '{name}' is not a scalar"
  | notList name => s!"field '{name}' is not a list"
  | missingField name => s!"missing field '{name}'"
  | noPortableMagic => "portable record does not start with sdrscope-portable"
  | versionOutOfRange version => s!"record version {version} out of range"
  | noPortableKind => "portable record header has no kind"
  | malformedPortableHeader => "malformed portable record header"
  | noTerminator => "portable record has no terminator"
  | emptyLine => "empty line inside portable record"
  | unknownFieldType found name => s!"unknown field type {shownFieldType found} for '{name}'"
  | trailingData name => s!"unexpected trailing data after '{name}'"
  | missingValue what => s!"missing value for '{what}'"
  | invalidNumber token what => s!"invalid number '{token}' for '{what}'"
  | countMismatch name declared held =>
    s!"list '{name}' declares {declared} values but holds {held}"
  | notJsonRecord => "JSON value is not a sdrscope/json record"
  | noJsonVersion => "JSON record has no version"
  | malformedJson => "malformed JSON record"
  | notXmlRecord => "XML element is not a sdrscope/xml record"
  | invalidXmlVersion version => s!"invalid XML record version '{version}'"
  | invalidXmlCount count name => s!"invalid count '{count}' for '{name}'"
  | missingAttribute name => s!"missing XML attribute '{name}'"
  | malformedAttributes => "malformed XML attribute"
  | malformedAttribute name => s!"malformed XML attribute '{name}'"
  | unexpectedElement name => s!"unexpected XML element <{name}>"
  | strayText => "text outside of a field element"
  | malformedXmlText => "malformed XML text"
  | characterData => "CDATA is not allowed in XML records"
  | malformedXml => "malformed XML record"
  | dimensionOutOfRange value => s!"dimension {value} out of range"
  | cellOutOfRange value => s!"sparse index {value} out of range"
  | invalidDimensions cause => s!"invalid SDR dimensions: {cause.message}"
  | invalidCells cause => s!"invalid SDR value: {cause.message}"
  | positionWords found => s!"random stream position must have 2 words, found {found}"
  | positionBeyondStream position =>
    s!"random stream position {position} is beyond the end of the stream"

/-- The wording of a fault. -/
def Fault.message : Fault → String
  | argument fault => fault.message
  | readOnlyView mutator => s!"Unsupported operation - {mutator.name}"
  | noParent => "Unsupported operation - a canonical SDR has no parent"
  | orphaned => "The parent of this view has been destroyed"
  | unknownNode => "There is no such node"
  | unknownFormat code => s!"Configuration error - unknown serialization format code {code}"
  | corrupt cause => cause.message
  | versionMismatch found =>
    s!"Unsupported record version {found}, this library reads version {recordVersion}"
  | outOfBounds => "Out of Bound read would have occurred!"
  | io kind => kind.name

end SparseTensor
