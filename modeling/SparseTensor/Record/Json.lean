/-
# JSON records

A record is one JSON object with the members `format`, `version`, `kind` and `fields`, and a
line end behind it.  Fields that are one number are written as JSON numbers, lists as arrays.

A reader takes exactly the object and leaves the line end.  It looks at the format and the
version before anything else in the object, so a record of another version is known as such
whatever it holds.
-/
import SparseTensor.Archive
import SparseTensor.Json
import SparseTensor.Record.Settings
import SparseTensor.Text.Numeral

namespace SparseTensor.JsonRecord

/-- The text by which the format is known. -/
def formatTag : String := "sdrscope/json"

/-! ## Writing -/

/-- The bytes between an item and the one before it, at some level: nothing, or a line end and
two blanks for each level. -/
def lineBreak (pretty : Bool) (level : Nat) : List UInt8 :=
  if pretty then Text.bytes "\n" ++ List.replicate (2 * level) 0x20 else []

/-- Items between brackets, with commas between them.  Indented items stand on lines of their
own, one level below the brackets; brackets without items stand together. -/
def bracketed (pretty : Bool) (level : Nat) (opening closing : UInt8) :
    List (List UInt8) → List UInt8
  | [] => [opening, closing]
  | items =>
    let separator := ','.toUInt8 :: lineBreak pretty (level + 1)
    opening :: lineBreak pretty (level + 1) ++ separator.intercalate items ++
      lineBreak pretty level ++ [closing]

/-- An array of items that are written already. -/
def arrayBytes (pretty : Bool) (level : Nat) (items : List (List UInt8)) : List UInt8 :=
  bracketed pretty level '['.toUInt8 ']'.toUInt8 items

/-- An object whose values are written already. -/
def objectBytes (pretty : Bool) (level : Nat) (members : List (String × List UInt8)) :
    List UInt8 :=
  bracketed pretty level '\x7b'.toUInt8 '\x7d'.toUInt8 (members.map fun (name, value) =>
    Json.stringBytes name ++ Text.bytes (if pretty then ": " else ":") ++ value)

/-- A number. -/
def numberBytes (n : Nat) : List UInt8 :=
  Text.bytes (String.ofList (Numeral.render n))

/-- A field, two levels inside the record. -/
def fieldBytes (pretty : Bool) : Field → List UInt8
  | .scalar value => numberBytes value.toNat
  | .list values => arrayBytes pretty 2 (values.map fun v => numberBytes v.toNat)

/-- The object of an archive. -/
def object (pretty : Bool) (a : Archive) : List UInt8 :=
  objectBytes pretty 0
    [("format", Json.stringBytes formatTag),
      ("version", numberBytes recordVersion.toNat),
      ("kind", Json.stringBytes a.kind),
      ("fields", objectBytes pretty 1 (a.fields.map fun (name, field) =>
        (name, fieldBytes pretty field)))]

/-- The record of an archive. -/
def encode (settings : Settings) (a : Archive) : List UInt8 :=
  object settings.pretty a ++ Text.bytes "\n"

/-! ## Reading -/

/-- The number that a value is, if it is a natural number below 2 ^ 64. -/
def natural? : Json → Option UInt64
  | .natural n => some n
  | _ => none

/-- The field that a value is. -/
def field? : Json → Option Field
  | .natural n => some (.scalar n)
  | .array items => (items.mapM natural?).map .list
  | _ => none

/-- The fields that some members are, in the order of their names; of members with one name the
last one counts. -/
def fields? (members : List (String × Json)) : Option (List (String × Field)) :=
  let ordered := members.foldl (fun entries (name, value) => place name value entries) []
  ordered.mapM fun (name, value) => (field? value).map fun field => (name, field)

/-- The members of a record. -/
def memberNames : List String := ["format", "version", "kind", "fields"]

/-- The kind and the fields that the members of a record give. -/
def body? (members : List (String × Json)) : Option (String × List (String × Field)) :=
  if !members.all fun (name, _) => memberNames.contains name then none
  else
    match Json.member? members "kind", Json.member? members "fields" with
    | some (.string kind), some (.object fields) => (fields? fields).map fun fs => (kind, fs)
    | _, _ => none

/-- The members of a record of this format and version. -/
def checkedMembers (value : Json) : Except Fault (List (String × Json)) :=
  match value with
  | .object members =>
    match Json.member? members "format" with
    | some (.string tag) =>
      if tag ≠ formatTag then .error (.corrupt .notJsonRecord)
      else
        match (Json.member? members "version").bind natural? with
        | none => .error (.corrupt .noJsonVersion)
        | some version =>
          if version = recordVersion.toUInt64 then .ok members
          else .error (.versionMismatch (min version.toNat (UInt32.size - 1)).toUInt32)
    | _ => .error (.corrupt .notJsonRecord)
  | _ => .error (.corrupt .notJsonRecord)

/-- The archive that a value is. -/
def ofJson (value : Json) : Except Fault Archive := do
  let members ← checkedMembers value
  match body? members with
  | none => throw (.corrupt .malformedJson)
  | some (kind, fields) =>
    if !isValidName kind then throw (.corrupt (.invalidKind kind))
    fields.foldlM (fun a (name, field) => a.add name field) (Archive.empty kind)

/-- The record at the front of a source, and what is left behind it. -/
def decode (s : Source) : Except Fault (Archive × List UInt8) :=
  match (Json.value s.ending Json.maxLevels).scan s.bytes, s.ending with
  | .done value rest, _ => do return (← ofJson value, rest)
  | .malformed, _ => .error (.corrupt .malformedJson)
  | .starved, .ends => .error (.corrupt (.truncated .json))
  | .starved, .fails kind => .error (.io kind)

end SparseTensor.JsonRecord
