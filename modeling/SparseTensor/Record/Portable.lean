/-
# Portable records

A record is a sequence of lines.  The first holds the magic word, the version and the kind;
every other one holds a field: its name, a letter for its type and its numbers, the count of a
list before its elements.  A line with a single word ends the record.

White space around and between words is free, and blank lines may stand in front of a record,
so a reader works on the words of a line.
-/
import SparseTensor.Archive
import SparseTensor.Record.Settings
import SparseTensor.Stream
import SparseTensor.Text.Blank
import SparseTensor.Text.Numeral
import SparseTensor.Text.Utf8

namespace SparseTensor.Portable

/-- The word that a record starts with. -/
def magic : List Char := "sdrscope-portable".toList

/-- The word that ends a record. -/
def terminator : List Char := "end".toList

/-! ## Writing -/

/-- The words of a field behind its name. -/
def fieldWords : Field → List (List Char)
  | .scalar value => [['s'], Numeral.render value.toNat]
  | .list values =>
    ['l'] :: Numeral.render values.length :: values.map fun v => Numeral.render v.toNat

/-- Words with single blanks between them and a line end behind them. -/
def line (words : List (List Char)) : List Char :=
  [' '].intercalate words ++ ['\n']

/-- The text of an archive. -/
def text (a : Archive) : List Char :=
  line [magic, Numeral.render recordVersion.toNat, a.kind.toList] ++
    (a.fields.flatMap fun (name, field) => line (name.toList :: fieldWords field)) ++
    line [terminator]

/-- The record of an archive. -/
def encode (a : Archive) : List UInt8 :=
  Text.bytes (String.ofList (text a))

/-! ## Lines -/

/-- The byte that ends a line. -/
def newline : UInt8 := 10

/-- What is found where a line should start. -/
inductive NextLine
  /-- A line without its line end, and what is left behind the line end. -/
  | line (bytes rest : List UInt8)
  /-- The last line, without a line end. -/
  | lastLine (bytes : List UInt8)
  /-- No bytes at all. -/
  | nothing

/-- The line at the front of some bytes. -/
def nextLine (bytes : List UInt8) : NextLine :=
  match bytes.dropWhile (· ≠ newline) with
  | _ :: rest => .line (bytes.takeWhile (· ≠ newline)) rest
  | [] => if bytes.isEmpty then .nothing else .lastLine bytes

/-- The words of a line, if it is text. -/
def lineWords (bytes : List UInt8) : Except Fault (List (List Char)) :=
  match Text.ofBytes? bytes with
  | some s => .ok (Text.words s.toList)
  | none => .error (.corrupt (.invalid .portable))

/-- What is left behind a line is shorter than what there was. -/
theorem length_rest_lt {bytes front rest : List UInt8} (h : nextLine bytes = .line front rest) :
    rest.length < bytes.length := by
  unfold nextLine at h
  split at h
  · rename_i behind
    cases h
    have suffix := (List.dropWhile_suffix (l := bytes) (· ≠ newline)).length_le
    rw [behind] at suffix
    exact Nat.lt_of_succ_le suffix
  · split at h <;> cases h

/-! ## Reading -/

/-- The number that a word denotes; `what` is the word's meaning in messages. -/
def number (token : Option (List Char)) (what : String) : Except Fault UInt64 :=
  match token with
  | none => .error (.corrupt (.missingValue what))
  | some word =>
    match Numeral.word64? word with
    | some n => .ok n
    | none => .error (.corrupt (.invalidNumber (String.ofList word) what))

/-- The kind that a first line announces. -/
def headerKind (words : List (List Char)) : Except Fault String := do
  if words.head? ≠ some magic then throw (.corrupt .noPortableMagic)
  let version ← number words[1]? "record version"
  if UInt32.size ≤ version.toNat then throw (.corrupt (.versionOutOfRange version))
  if version.toNat ≠ recordVersion.toNat then throw (.versionMismatch version.toUInt32)
  match words.drop 2 with
  | [] => throw (.corrupt .noPortableKind)
  | [kind] =>
    let kind := String.ofList kind
    if isValidName kind then return kind else throw (.corrupt .malformedPortableHeader)
  | _ => throw (.corrupt .malformedPortableHeader)

/-- The numbers that some words denote. -/
def numbers (words : List (List Char)) (what : String) : Except Fault (List UInt64) :=
  words.mapM fun word => number (some word) what

/-- The field behind a name. -/
def field (name : String) : List (List Char) → Except Fault Field
  | ['s'] :: words => do
    let value ← number words.head? name
    if words.length ≤ 1 then return .scalar value else throw (.corrupt (.trailingData name))
  | ['l'] :: words => do
    let count ← number words.head? name
    let values ← numbers words.tail name
    if values.length = count.toNat then return .list values
    else throw (.corrupt (.countMismatch name count values.length))
  | words => .error (.corrupt (.unknownFieldType (words.head?.map String.ofList) name))

/-- An archive with the field of a line put into it. -/
def entry (a : Archive) (words : List (List Char)) : Except Fault Archive :=
  match words with
  | [] => .error (.corrupt .emptyLine)
  | name :: rest => do
    let name := String.ofList name
    a.add name (← field name rest)

/-- The fields of the lines up to the terminator put into an archive, and what is left. -/
def entries (ending : Ending) (a : Archive) (bytes : List UInt8) :
    Except Fault (Archive × List UInt8) :=
  match h : nextLine bytes, ending with
  | .line front rest, _ => do
    let words ← lineWords front
    if words = [terminator] then return (a, rest)
    have := length_rest_lt h
    entries ending (← entry a words) rest
  | .lastLine front, .ends => do
    let words ← lineWords front
    if words = [terminator] then return (a, [])
    let _ ← entry a words
    throw (.corrupt .noTerminator)
  | .nothing, .ends => .error (.corrupt .noTerminator)
  | _, .fails _ => .error (readFailure .portable ending)
termination_by bytes.length

/-- The record behind any blank lines. -/
def record (s : Source) : Except Fault (Archive × List UInt8) :=
  match h : nextLine s.bytes, s.ending with
  | .line front rest, ending => do
    let words ← lineWords front
    have := length_rest_lt h
    if words.isEmpty then record { s with bytes := rest }
    else entries ending (Archive.empty (← headerKind words)) rest
  | .lastLine front, .ends => do
    let words ← lineWords front
    if words.isEmpty then throw (.corrupt (.truncated .portable))
    let _ ← headerKind words
    throw (.corrupt .noTerminator)
  | .nothing, .ends => .error (.corrupt (.truncated .portable))
  | _, .fails _ => .error (readFailure .portable s.ending)
termination_by s.bytes.length

/-- The record at the front of a source, and what is left behind it. -/
def decode (s : Source) : Except Fault (Archive × List UInt8) :=
  record s

end SparseTensor.Portable
