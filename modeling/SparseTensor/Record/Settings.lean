/-
# Settings of a save or a load

Whether text formats are indented, and how many bytes a single load may take up.
-/

namespace SparseTensor

/-- The settings of a save or a load. -/
structure Settings where
  /-- Whether JSON and XML are indented. -/
  pretty : Bool
  /-- The greatest number of bytes that one load may take up. -/
  maxBytes : UInt64
  deriving DecidableEq, Repr

namespace Settings

/-- The smallest output, and records of at most one gibibyte. -/
def compact : Settings := ⟨false, 1073741824⟩

/-- Indented output, and records of at most one gibibyte. -/
def humanReadable : Settings := { compact with pretty := true }

/-- The settings that hold unless others are chosen. -/
def standard : Settings := compact

/-- The same settings for records of at most `n` bytes. -/
def withMaxBytes (s : Settings) (n : UInt64) : Settings := { s with maxBytes := n }

end Settings

end SparseTensor
