/-
# XML records

A record is an element `archive` with the format, the version and the kind as attributes.  A
field is an element `scalar` or `list` inside it that is named by an attribute and holds the
numbers as text; a list says how many they are.

A reader goes from piece to piece and stops behind the tag that closes the archive.  It skips a
byte order mark in front and, wherever they stand, comments, instructions and declarations.
-/
import SparseTensor.Archive
import SparseTensor.Record.Settings
import SparseTensor.Stream
import SparseTensor.Text.Numeral
import SparseTensor.Xml.Piece
import SparseTensor.Xml.Tag

namespace SparseTensor.XmlRecord

/-- The text by which the format is known. -/
def formatTag : String := "sdrscope/xml"

/-- The elements that a record is made of. -/
inductive Element
  | archive
  | scalar
  | list
  deriving DecidableEq, Repr

/-- The name of an element. -/
def Element.name : Element → String
  | archive => "archive"
  | scalar => "scalar"
  | list => "list"

/-- The element that a tag names. -/
def Element.ofTag? (tag : List UInt8) : Option Element :=
  [archive, scalar, list].find? fun e => Text.bytes e.name = Xml.tagName tag

/-! ## Writing -/

/-- The characters in front of a tag that does not follow text: nothing, or a line end and two
blanks for each level. -/
def lineBreak (pretty : Bool) (level : Nat) : List Char :=
  if pretty then '\n' :: List.replicate (2 * level) ' ' else []

/-- An attribute with the blank in front of it. -/
def attributeText (name : String) (value : List Char) : List Char :=
  ' ' :: name.toList ++ ['=', '"'] ++ Xml.escape value ++ ['"']

/-- The tag that opens an element. -/
def openingTag (e : Element) (attributes : List (String × List Char)) : List Char :=
  '<' :: e.name.toList ++ (attributes.flatMap fun (name, value) => attributeText name value) ++
    ['>']

/-- The tag that closes an element. -/
def closingTag (e : Element) : List Char :=
  ['<', '/'] ++ e.name.toList ++ ['>']

/-- Numbers with single blanks between them. -/
def numbersText (values : List UInt64) : List Char :=
  [' '].intercalate (values.map fun v => Numeral.render v.toNat)

/-- The element of a field. -/
def fieldText (pretty : Bool) (name : String) : Field → List Char
  | .scalar value =>
    lineBreak pretty 1 ++ openingTag .scalar [("name", name.toList)] ++
      Numeral.render value.toNat ++ closingTag .scalar
  | .list values =>
    lineBreak pretty 1 ++
      openingTag .list [("name", name.toList), ("count", Numeral.render values.length)] ++
      (if values.isEmpty then lineBreak pretty 1 else numbersText values) ++ closingTag .list

/-- The declaration at the front of a record. -/
def declarationText : List Char :=
  "<?xml version=\"1.0\" encoding=\"UTF-8\"?>".toList

/-- The text of an archive. -/
def text (pretty : Bool) (a : Archive) : List Char :=
  declarationText ++ lineBreak pretty 0 ++
    openingTag .archive
      [("format", formatTag.toList), ("version", Numeral.render recordVersion.toNat),
        ("kind", a.kind.toList)] ++
    (a.fields.flatMap fun (name, field) => fieldText pretty name field) ++
    lineBreak pretty 0 ++ closingTag .archive

/-- The element of an archive. -/
def element (settings : Settings) (a : Archive) : List UInt8 :=
  Text.bytes (String.ofList (text settings.pretty a))

/-- The record of an archive. -/
def encode (settings : Settings) (a : Archive) : List UInt8 :=
  element settings a ++ Text.bytes "\n"

/-! ## Elements -/

/-- The archive without fields that a tag opens. -/
def openArchive (tag : List UInt8) : Except Fault Archive := do
  if (← Xml.attributeValue tag "format") ≠ formatTag.toList then
    throw (.corrupt .notXmlRecord)
  let version ← Xml.attributeValue tag "version"
  match Numeral.word32? (Text.trim version) with
  | none => throw (.corrupt (.invalidXmlVersion (String.ofList version)))
  | some found =>
    if found ≠ recordVersion then throw (.versionMismatch found)
    let kind := String.ofList (← Xml.attributeValue tag "kind")
    if isValidName kind then return Archive.empty kind else throw (.corrupt (.invalidKind kind))

/-- A field whose element is open: its name, the announced length if it is a list, and the text
so far. -/
structure OpenField where
  name : String
  count : Option UInt64
  text : List Char

/-- The element of an open field. -/
def OpenField.element (f : OpenField) : Element :=
  if f.count.isSome then .list else .scalar

/-- The field that a tag opens. -/
def openField (e : Element) (tag : List UInt8) : Except Fault OpenField := do
  let name := String.ofList (← Xml.attributeValue tag "name")
  if e ≠ .list then return ⟨name, none, []⟩
  let count ← Xml.attributeValue tag "count"
  match Numeral.word64? (Text.trim count) with
  | some n => return ⟨name, some n, []⟩
  | none => throw (.corrupt (.invalidXmlCount (String.ofList count) name))

/-- The number that a word denotes; `name` is the field's name in messages. -/
def number (name : String) (word : List Char) : Except Fault UInt64 :=
  match Numeral.word64? word with
  | some n => .ok n
  | none => .error (.corrupt (.invalidNumber (String.ofList word) name))

/-- What an open field holds once its element is closed. -/
def OpenField.field (f : OpenField) : Except Fault Field :=
  match f.count with
  | none => (number f.name (Text.trim f.text)).map .scalar
  | some count => do
    let values ← (Text.words f.text).mapM (number f.name)
    if values.length = count.toNat then return .list values
    else throw (.corrupt (.countMismatch f.name count values.length))

/-- An archive with the field of an element put into it. -/
def closeField (a : Archive) (f : OpenField) : Except Fault Archive := do
  a.add f.name (← f.field)

/-! ## Reading -/

/-- How far a record has been read. -/
inductive Progress
  | outside
  | inArchive (a : Archive)
  | inField (a : Archive) (f : OpenField)

/-- What a piece leads to: reading on, or a complete archive. -/
inductive Outcome
  | goOn (p : Progress)
  | complete (a : Archive)

/-- An element where it must not stand. -/
def unexpected (name : List UInt8) : Except Fault Outcome :=
  .error (.corrupt (.unexpectedElement (Text.ofBytesLossy name)))

/-- Go on behind a tag that opens an element. -/
def onOpening (tag : List UInt8) : Progress → Except Fault Outcome
  | .outside =>
    match Element.ofTag? tag with
    | some .archive => do return .goOn (.inArchive (← openArchive tag))
    | _ => unexpected (Xml.tagName tag)
  | .inArchive a =>
    match Element.ofTag? tag with
    | some .scalar => do return .goOn (.inField a (← openField .scalar tag))
    | some .list => do return .goOn (.inField a (← openField .list tag))
    | _ => unexpected (Xml.tagName tag)
  | .inField _ _ => unexpected (Xml.tagName tag)

/-- Go on behind a tag that opens an element and closes it. -/
def onEmpty (tag : List UInt8) : Progress → Except Fault Outcome
  | .outside =>
    match Element.ofTag? tag with
    | some .archive => do return .complete (← openArchive tag)
    | some _ => unexpected (Text.bytes Element.list.name)
    | none => unexpected (Xml.tagName tag)
  | .inArchive a =>
    match Element.ofTag? tag with
    | some .scalar => do return .goOn (.inArchive (← closeField a (← openField .scalar tag)))
    | some .list => do return .goOn (.inArchive (← closeField a (← openField .list tag)))
    | _ => unexpected (Xml.tagName tag)
  | .inField _ _ => unexpected (Xml.tagName tag)

/-- Go on behind a tag that closes the element of a name. -/
def onClosing (name : List UInt8) : Progress → Except Fault Outcome
  | .outside => .error (.corrupt .malformedXml)
  | .inArchive a =>
    if name = Text.bytes Element.archive.name then .ok (.complete a)
    else .error (.corrupt .malformedXml)
  | .inField a f =>
    if name = Text.bytes f.element.name then do return .goOn (.inArchive (← closeField a f))
    else .error (.corrupt .malformedXml)

/-- Go on behind text. -/
def onText (bytes : List UInt8) : Progress → Except Fault Outcome
  | .inField a f =>
    match Xml.text? bytes with
    | some s => .ok (.goOn (.inField a { f with text := f.text ++ s }))
    | none => .error (.corrupt .malformedXmlText)
  | _ => .error (.corrupt .strayText)

/-- Go on behind a piece. -/
def onPiece : Xml.Piece → Progress → Except Fault Outcome
  | .text bytes, p => onText bytes p
  | .opening tag, p => onOpening tag p
  | .empty tag, p => onEmpty tag p
  | .closing name, p => onClosing name p
  | .characterData, _ => .error (.corrupt .characterData)
  | .ignored, p => .ok (.goOn p)

/-- The archive that some pieces complete, and what is left. -/
def pieces (ending : Ending) (p : Progress) (bytes : List UInt8) :
    Except Fault (Archive × List UInt8) :=
  match h : Xml.next bytes, ending with
  | .piece piece rest, _ => do
    have := Xml.length_next_lt h
    match ← onPiece piece p with
    | .goOn further => pieces ending further rest
    | .complete a => return (a, rest)
  | .malformed, _ => .error (.corrupt .malformedXml)
  | .lastText text, .ends => do
    let _ ← onText text p
    throw (.corrupt (.truncated .xml))
  | .nothing, .ends => .error (.corrupt (.truncated .xml))
  | .unfinished, .ends => .error (.corrupt .malformedXml)
  | _, .fails kind => .error (.io kind)
termination_by bytes.length

/-- The byte order mark. -/
def byteOrderMark : List UInt8 := Text.bytes "\uFEFF"

/-- The bytes behind a byte order mark, if there is one. -/
def dropMark (bytes : List UInt8) : List UInt8 :=
  if byteOrderMark.isPrefixOf bytes then bytes.drop byteOrderMark.length else bytes

/-- The record at the front of a source, and what is left behind it. -/
def decode (s : Source) : Except Fault (Archive × List UInt8) :=
  pieces s.ending .outside (dropMark s.bytes)

end SparseTensor.XmlRecord
