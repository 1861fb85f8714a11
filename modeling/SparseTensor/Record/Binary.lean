/-
# Binary records

A record starts with four letters, its version in two bytes and the length of its payload in
four.  The payload holds the kind, the number of fields and the fields: a name, a tag and
either one integer or a count and that many integers.  Texts stand behind their length;
lengths, counts and values are written in groups of seven bits.

The length in front lets a reader take exactly one record from a stream.
-/
import SparseTensor.Archive
import SparseTensor.Bytes.Reader
import SparseTensor.Record.Settings
import SparseTensor.Stream

namespace SparseTensor.Binary

/-- The letters that a record starts with. -/
def magic : List UInt8 := Text.bytes "SDRB"

/-- The number of bytes in front of the payload. -/
def headerSize : Nat := 10

/-- The tag of a field that is one number. -/
def scalarTag : UInt8 := 0

/-- The tag of a field that is a list. -/
def listTag : UInt8 := 1

/-! ## Writing -/

/-- The bytes of a field. -/
def fieldBytes : Field → List UInt8
  | .scalar value => scalarTag :: Reader.varintBytes value
  | .list values =>
    listTag :: Reader.varintGroups values.length ++ values.flatMap Reader.varintBytes

/-- The bytes behind the header. -/
def payload (a : Archive) : List UInt8 :=
  Reader.textBytes a.kind ++ Reader.varintGroups a.fields.length ++
    a.fields.flatMap fun (name, field) => Reader.textBytes name ++ fieldBytes field

/-- The bytes in front of a payload of some length. -/
def header (length : Nat) : List UInt8 :=
  magic ++ Reader.littleEndian 2 recordVersion.toNat ++ Reader.littleEndian 4 length

/-- The record of an archive.  A payload too long for its length field is refused. -/
def encode (a : Archive) : Except Fault (List UInt8) :=
  let body := payload a
  if body.length < UInt32.size then .ok (header body.length ++ body)
  else .error (.argument (.invalidValue (.payloadSize body.length)))

/-! ## Reading -/

/-- The next `n` integers, behind those in `before`, which are held last to first. -/
def varints : Nat → List UInt64 → Reader (List UInt64)
  | 0, before, bs => .ok before.reverse bs
  | n + 1, before, bs =>
    match Reader.varint bs with
    | .ok value rest => varints n (value :: before) rest
    | .error fault rest => .error fault rest

/-- A field behind its name. -/
def field (name : String) : Reader Field := do
  let tag ← Reader.byte
  if tag = scalarTag then
    return .scalar (← Reader.varint)
  else if tag = listTag then
    return .list (← varints (← Reader.count) [])
  else
    throw (.corrupt (.unknownFieldTag tag name))

/-- The next field, put into an archive. -/
def entry (a : Archive) : Reader Archive := do
  let name ← Reader.text
  let value ← field name
  match a.add name value with
  | .ok extended => return extended
  | .error fault => throw fault

/-- The next `n` fields, put into an archive. -/
def entries : Nat → Archive → Reader Archive
  | 0, a, bs => .ok a bs
  | n + 1, a, bs =>
    match entry a bs with
    | .ok extended rest => entries n extended rest
    | .error fault rest => .error fault rest

/-- An archive that takes up all bytes. -/
def archive : Reader Archive := do
  let kind ← Reader.text
  if !isValidName kind then throw (.corrupt (.invalidKind kind)) else
  let a ← entries (← Reader.count) (Archive.empty kind)
  let left ← Reader.remaining
  if left = 0 then return a else throw (.corrupt (.unusedPayload left))

/-- The archive of a payload.  A read past its end says that the payload is too short. -/
def ofPayload (bytes : List UInt8) : Except Fault Archive :=
  match archive bytes with
  | .ok a _ => .ok a
  | .error .outOfBounds _ => .error (.corrupt .payloadEndsEarly)
  | .error fault _ => .error fault

/-- The length of the payload that a header announces. -/
def payloadLength (limit : UInt64) (bytes : List UInt8) : Except Fault Nat :=
  let version := Reader.ofLittleEndian ((bytes.drop 4).take 2)
  let length := Reader.ofLittleEndian ((bytes.drop 6).take 4)
  if bytes.take 4 ≠ magic then .error (.corrupt .noBinaryMagic)
  else if version ≠ recordVersion.toNat then .error (.versionMismatch version.toUInt32)
  else if limit.toNat < length then
    .error (.corrupt (.payloadExceedsLimit length.toUInt32 limit))
  else .ok length

/-- The record at the front of a source, and what is left behind it. -/
def decode (settings : Settings) (s : Source) : Except Fault (Archive × List UInt8) :=
  let head := s.bytes.take headerSize
  if head.length < headerSize then .error (readFailure .binary s.ending)
  else do
    let length ← payloadLength settings.maxBytes head
    let behind := s.bytes.drop headerSize
    let body := behind.take length
    if body.length < length then
      match s.ending with
      | .ends => .error (.corrupt (.payloadTruncated body.length length))
      | .fails _ => .error (readFailure .binary s.ending)
    else
      return (← ofPayload body, behind.drop length)

end SparseTensor.Binary
