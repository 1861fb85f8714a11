/-
# Snapshots

A snapshot is what a record keeps of a node: its shape and its active cells.  `ofArchive` admits
only archives whose dimensions make a shape and whose cells are in bounds and strictly ascending.
-/
import SparseTensor.Archive
import SparseTensor.Encoding

namespace SparseTensor

/-- A shape and the active cells in it. -/
structure Snapshot where
  shape : Shape
  cells : Sparse
  deriving DecidableEq

namespace Snapshot

/-- The kind of the archive of a node. -/
def archiveKind : String := "SDR"

/-- The archive of a snapshot. -/
def toArchive (s : Snapshot) : Archive :=
  Archive.ofList archiveKind
    [("dimensions", .list (s.shape.dims.map UInt32.toUInt64)),
      ("sparse", .list (s.cells.map UInt32.toUInt64))]

/-- The 32-bit words with the given values; `damage` is what a value out of range comes to. -/
def narrow (damage : UInt64 → Corruption) (values : List UInt64) : Except Fault (List UInt32) :=
  values.mapM fun v =>
    if v.toNat < UInt32.size then .ok v.toUInt32 else .error (.corrupt (damage v))

/-- The snapshot of an archive. -/
def ofArchive (a : Archive) : Except Fault Snapshot := do
  a.expectKind archiveKind
  let dims ← narrow .dimensionOutOfRange (← a.list "dimensions")
  let cells ← narrow .cellOutOfRange (← a.list "sparse")
  match Shape.ofDims dims with
  | .error fault => throw (.corrupt (.invalidDimensions fault))
  | .ok shape =>
    match Sparse.check shape.size cells with
    | .error fault => throw (.corrupt (.invalidCells fault))
    | .ok () => return ⟨shape, cells⟩

end Snapshot

end SparseTensor
