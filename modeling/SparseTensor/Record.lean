/-
# Records

A record is an archive in one of the four formats.  `encode` and `decode` work on bytes, `write`
and `read` on sinks and sources: a sink may accept only the front of a record, and a source may
fail before its end.
-/
import SparseTensor.Record.Binary
import SparseTensor.Record.Json
import SparseTensor.Record.Portable
import SparseTensor.Record.Xml

namespace SparseTensor.Record

/-! ## Writing -/

/-- The record of an archive.  Only the binary format has archives that it cannot hold. -/
def encode (format : Format) (settings : Settings) (a : Archive) : Except Fault (List UInt8) :=
  match format with
  | .binary => Binary.encode a
  | .portable => .ok (Portable.encode a)
  | .json => .ok (JsonRecord.encode settings a)
  | .xml => .ok (XmlRecord.encode settings a)

/-- The kind of failure that is reported when a sink does not accept a record.  It is the
sink's own, except that the elements of an XML record report every failure as `other`. -/
def reportedKind (format : Format) (settings : Settings) (sink : Sink) (a : Archive)
    (kind : IoKind) : IoKind :=
  match format with
  | .xml => if (sink.failure? (XmlRecord.element settings a)).isSome then .other else kind
  | _ => kind

/-- Write the record of an archive to a sink: what the sink holds then, and whether all of the
record is there. -/
def write (format : Format) (settings : Settings) (sink : Sink) (a : Archive) :
    List UInt8 × Except Fault Unit :=
  match encode format settings a with
  | .error fault => ([], .error fault)
  | .ok bytes =>
    (sink.accepted bytes,
      match sink.failure? bytes with
      | none => .ok ()
      | some kind => .error (.io (reportedKind format settings sink a kind)))

/-! ## Reading -/

/-- The archive at the front of a source, and what is left behind its record. -/
def decode (format : Format) (settings : Settings) (s : Source) :
    Except Fault (Archive × List UInt8) :=
  match format with
  | .binary => Binary.decode settings s
  | .portable => Portable.decode s
  | .json => JsonRecord.decode s
  | .xml => XmlRecord.decode s

/-- A source without its first `n` bytes. -/
def skip (s : Source) (n : Nat) : Source :=
  { s with bytes := s.bytes.drop n }

/-- Read a record from a source: its archive, and the source behind it.  Bytes beyond the limit
of the settings are not looked at. -/
def read (format : Format) (settings : Settings) (s : Source) :
    Except Fault (Archive × Source) := do
  let limited := s.limit settings.maxBytes.toNat
  let (a, rest) ← decode format settings limited
  return (a, skip s (limited.bytes.length - rest.length))

/-- The format with a code. -/
def formatOfCode (code : UInt32) : Except Fault Format :=
  match Format.ofCode? code with
  | some format => .ok format
  | none => .error (.unknownFormat code)

end SparseTensor.Record
