/-
# Encodings of a set of cells

A set of cells is written in one of three ways: densely, as one bit per cell; sparsely, as the
strictly ascending list of its cells; or by coordinates, as one list per dimension, which
together hold one column per cell.

Every encoding that comes from outside is checked first, and the check of each reports the
first entry that is wrong.  The conversions between encodings go through the sparse one.
-/
import SparseTensor.Shape

namespace SparseTensor

/-- One bit per cell. -/
abbrev Dense := Array Bool

/-- The cells in strictly ascending order. -/
abbrev Sparse := List Cell

/-- One list per dimension, each holding one coordinate of every cell. -/
abbrev Coordinates := List (List UInt32)

/-! ## Dense -/

namespace Dense

/-- The bits written as bytes, one per cell and each of them zero or one. -/
def ofBytes (size : Nat) (bytes : List UInt8) : Except ArgumentFault Dense :=
  if bytes.length ≠ size then .error (.invalidLength size bytes.length)
  else
    match bytes.zipIdx.find? fun (b, _) => 1 < b with
    | some (b, i) => .error (.invalidValue (.denseEntry i b))
    | none => .ok (bytes.map (· == 1)).toArray

/-- The number of cells in the set. -/
def sum (d : Dense) : Nat := d.count true

/-- Set the bits of the given cells, and no others. -/
def ofSparse (size : Nat) (cells : Sparse) : Dense :=
  cells.foldl (fun d c => d.setIfInBounds c.toNat true) (Array.replicate size false)

/-- The cells whose bits are set. -/
def toSparse (d : Dense) : Sparse :=
  d.toList.zipIdx.filterMap fun (b, i) => if b then some i.toUInt32 else none

end Dense

/-! ## Sparse -/

namespace Sparse

/-- Check that cells are in bounds and strictly ascending, from `position` on and after
`previous`.  Of two faults at the same place the bounds are reported. -/
def checkFrom (size : Nat) (position : Nat) (previous : Option Cell) :
    List Cell → Except ArgumentFault Unit
  | [] => .ok ()
  | c :: rest =>
    if size ≤ c.toNat then .error (.indexOutOfRange c.toNat size)
    else if previous.any (c ≤ ·) then .error (.invalidOrder position)
    else checkFrom size (position + 1) (some c) rest

/-- Check that cells are in bounds and strictly ascending. -/
def check (size : Nat) (cells : List Cell) : Except ArgumentFault Unit :=
  checkFrom size 0 none cells

end Sparse

/-! ## Coordinates -/

namespace Coordinates

/-- Exchange rows and columns; `n` is the number of columns, needed when there are no rows. -/
def transpose (n : Nat) (rows : List (List UInt32)) : List (List UInt32) :=
  rows.foldr (List.zipWith (· :: ·)) (List.replicate n [])

/-- The number of cells that some coordinate lists name. -/
def count (coords : Coordinates) : Nat :=
  match coords with
  | [] => 0
  | first :: _ => first.length

/-- The coordinates of each cell. -/
def points (coords : Coordinates) : List (List UInt32) :=
  transpose coords.count coords

/-- The numbers of the cells, ascending. -/
def toSparse (shape : Shape) (coords : Coordinates) : Sparse :=
  (coords.points.map shape.ravel).mergeSort (· ≤ ·)

/-- The coordinate lists of some cells. -/
def ofSparse (shape : Shape) (cells : Sparse) : Coordinates :=
  transpose shape.rank (cells.map shape.unravel)

/-- The same cells in the order of their numbers. -/
def rowMajor (shape : Shape) (coords : Coordinates) : Coordinates :=
  transpose shape.rank
    (coords.points.mergeSort fun p q => shape.ravel p ≤ shape.ravel q)

/-- Check that each list is as long as the first and stays below its dimension. -/
def checkLists (expected : Nat) : List (List UInt32 × UInt32) → Except ArgumentFault Unit
  | [] => .ok ()
  | (list, bound) :: rest =>
    if list.length ≠ expected then .error (.invalidLength expected list.length)
    else
      match list.find? (bound ≤ ·) with
      | some i => .error (.indexOutOfRange i.toNat bound.toNat)
      | none => checkLists expected rest

/-- The first cell of an ascending list that is followed by itself. -/
def repeated? : List Cell → Option Cell
  | a :: b :: rest => if a = b then some a else repeated? (b :: rest)
  | _ => none

/-- Check that coordinate lists fit a shape and name no cell twice. -/
def check (shape : Shape) (coords : Coordinates) : Except ArgumentFault Unit := do
  if coords.length ≠ shape.rank then
    throw (.invalidLength shape.rank coords.length)
  checkLists coords.count (coords.zip shape.dims)
  match repeated? (coords.toSparse shape) with
  | some c => throw (.invalidValue (.repeatedCell c))
  | none => return ()

end Coordinates

end SparseTensor
