/-
# Caches

A cache holds up to three encodings of one set of cells, and the size of the set.  Storing a
value keeps only the encoding it came in; reading an encoding that is not held derives it and
keeps it.  Dense bits and coordinates are derived from the sparse encoding, which is derived
from whichever other one is held.

A cache that holds nothing is stale: its value has to come from elsewhere before it is read.
-/
import SparseTensor.Encoding
import SparseTensor.Note

namespace SparseTensor

/-- The encodings that are held of a set of cells, and its size. -/
structure Cache where
  dense : Option Dense
  sparse : Option Sparse
  coordinates : Option Coordinates
  sum : Nat
  deriving DecidableEq

namespace Cache

/-! ## Storing -/

/-- The cache that holds nothing. -/
def stale : Cache := ⟨none, none, none, 0⟩

/-- The cache of a set that was given by its bits. -/
def ofDense (d : Dense) : Cache := ⟨some d, none, none, d.sum⟩

/-- The cache of a set that was given by its cells. -/
def ofSparse (cells : Sparse) : Cache := ⟨none, some cells, none, cells.length⟩

/-- The cache of a set that was given by its coordinates. -/
def ofCoordinates (coords : Coordinates) : Cache := ⟨none, none, some coords, coords.count⟩

/-- The cache of the empty set. -/
def empty : Cache := ofSparse []

/-- Whether nothing is held. -/
def isStale (c : Cache) : Bool :=
  c.dense.isNone && c.sparse.isNone && c.coordinates.isNone

/-! ## Reading -/

/-- A value that was read, the cache that keeps what was derived for it, and what is noted. -/
structure Reading (α : Type) where
  value : α
  cache : Cache
  notes : List Note

/-- Read the size of the set. -/
def readSum (_ : Shape) (c : Cache) : Reading Nat := ⟨c.sum, c, []⟩

/-- Read the sparse encoding. -/
def readSparse (shape : Shape) (c : Cache) : Reading Sparse :=
  match c.sparse, c.dense, c.coordinates with
  | some cells, _, _ => ⟨cells, c, []⟩
  | none, some d, _ =>
    let cells := d.toSparse
    ⟨cells, { c with sparse := some cells }, [.derivedSparseFromDense shape.size]⟩
  | none, none, some coords =>
    let cells := coords.toSparse shape
    ⟨cells, { c with sparse := some cells }, [.derivedSparseFromCoordinates c.sum]⟩
  | none, none, none => ⟨[], { c with sparse := some [] }, []⟩

/-- Read the dense encoding. -/
def readDense (shape : Shape) (c : Cache) : Reading Dense :=
  match c.dense with
  | some d => ⟨d, c, []⟩
  | none =>
    let r := c.readSparse shape
    let d := Dense.ofSparse shape.size r.value
    ⟨d, { r.cache with dense := some d }, r.notes ++ [.derivedDense r.value.length]⟩

/-- Read the coordinates. -/
def readCoordinates (shape : Shape) (c : Cache) : Reading Coordinates :=
  match c.coordinates with
  | some coords => ⟨coords, c, []⟩
  | none =>
    let r := c.readSparse shape
    let coords := Coordinates.ofSparse shape r.value
    ⟨coords, { r.cache with coordinates := some coords },
      r.notes ++ [.derivedCoordinates r.value.length]⟩

end Cache

end SparseTensor
