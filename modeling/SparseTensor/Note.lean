/-
# Notes

What a run leaves in the log: derived encodings, views created and orphaned, records saved and
loaded.  Derivations are traced, everything else is noted for debugging.
-/
import SparseTensor.Fault.Message

namespace SparseTensor

/-- An entry of the log. -/
inductive Note
  | derivedSparseFromDense (cells : Nat)
  | derivedSparseFromCoordinates (active : Nat)
  | derivedDense (active : Nat)
  | derivedCoordinates (active : Nat)
  | createdView (dims parentDims : List UInt32)
  | orphanedView (dims : List UInt32)
  | savedRecord (kind : String) (fields : Nat) (format : Format)
  | loadedRecord (kind : String) (fields : Nat) (format : Format)
  deriving DecidableEq, Repr

/-- The level and the text of an entry. -/
def Note.line : Note → String
  | derivedSparseFromDense cells => s!"TRACE deriving sparse from dense over {cells} cells"
  | derivedSparseFromCoordinates active => s!"TRACE deriving sparse from {active} coordinates"
  | derivedDense active => s!"TRACE deriving dense from {active} active cells"
  | derivedCoordinates active => s!"TRACE deriving coordinates from {active} active cells"
  | createdView dims parentDims =>
    s!"DEBUG created view {bracketed dims} over {bracketed parentDims}"
  | orphanedView dims => s!"DEBUG view {bracketed dims} orphaned"
  | savedRecord kind fields format =>
    s!"DEBUG saved {kind} record with {fields} fields as {format.name}"
  | loadedRecord kind fields format =>
    s!"DEBUG loaded {kind} record with {fields} fields as {format.name}"

end SparseTensor
