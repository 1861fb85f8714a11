/-
# Streams

Records come from a source and go to a sink.  A source hands out its bytes and then either
ends or fails; a sink accepts bytes, all of them or a limited number before it fails.
-/
import SparseTensor.Fault

namespace SparseTensor

/-- What a source reports after its last byte. -/
inductive Ending
  | ends
  | fails (kind : IoKind)
  deriving DecidableEq, Repr

/-- Bytes to read, and what comes after them. -/
structure Source where
  bytes : List UInt8
  ending : Ending

namespace Source

/-- A source that ends after its bytes. -/
def ofBytes (bytes : List UInt8) : Source := ⟨bytes, .ends⟩

/-- A source that hands out at most `n` bytes and then ends.  What lies behind the limit is not
touched, so a source that fails only there does not fail. -/
def limit (s : Source) (n : Nat) : Source :=
  if n ≤ s.bytes.length then ofBytes (s.bytes.take n) else s

end Source

/-- The fault of a record that is cut short: it is damaged if the input ends, and if the stream
itself reports an early end or invalid bytes; every other failure is the stream's own. -/
def readFailure (format : Format) : Ending → Fault
  | .ends => .corrupt (.truncated format)
  | .fails .unexpectedEof => .corrupt (.truncated format)
  | .fails .invalidData => .corrupt (.invalid format)
  | .fails kind => .io kind

/-- How many bytes a sink accepts, and how it fails after them.  A sink without a limit accepts
everything. -/
structure Sink where
  limit : Option (Nat × IoKind)

namespace Sink

/-- A sink that accepts everything. -/
def unlimited : Sink := ⟨none⟩

/-- The bytes that a sink accepts of some bytes. -/
def accepted (s : Sink) (bytes : List UInt8) : List UInt8 :=
  match s.limit with
  | none => bytes
  | some (n, _) => bytes.take n

/-- The failure of a sink that is handed some bytes, if it does not accept all of them. -/
def failure? (s : Sink) (bytes : List UInt8) : Option IoKind :=
  match s.limit with
  | none => none
  | some (n, kind) => if bytes.length ≤ n then none else some kind

end Sink

end SparseTensor
