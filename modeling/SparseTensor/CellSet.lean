/-
# Sets of cells

Set operations on strictly ascending lists of cells.  Each walks its arguments side by side
and looks at every cell once; the cells found so far are held last to first.
-/
import SparseTensor.Encoding

namespace SparseTensor.CellSet

/-- The cells in both lists, behind those found so far. -/
def intersectOnto (found : List Cell) : Sparse → Sparse → Sparse
  | a :: as, b :: bs =>
    if a < b then intersectOnto found as (b :: bs)
    else if b < a then intersectOnto found (a :: as) bs
    else intersectOnto (a :: found) as bs
  | _, _ => found.reverse
termination_by as bs => as.length + bs.length

/-- The cells in both lists. -/
def intersect (as bs : Sparse) : Sparse :=
  intersectOnto [] as bs

/-- The cells in at least one list, behind those found so far. -/
def uniteOnto (found : List Cell) : Sparse → Sparse → Sparse
  | [], bs => found.reverse ++ bs
  | as, [] => found.reverse ++ as
  | a :: as, b :: bs =>
    if a < b then uniteOnto (a :: found) as (b :: bs)
    else if b < a then uniteOnto (b :: found) (a :: as) bs
    else uniteOnto (a :: found) as bs
termination_by as bs => as.length + bs.length

/-- The cells in at least one list. -/
def unite (as bs : Sparse) : Sparse :=
  uniteOnto [] as bs

/-- The cells of the first list that are not in the second, behind those found so far. -/
def withoutOnto (found : List Cell) : Sparse → Sparse → Sparse
  | c :: cs, a :: as =>
    if c = a then withoutOnto found cs as else withoutOnto (c :: found) cs (a :: as)
  | cs, _ => found.reverse ++ cs

/-- All cells below `size`, ascending. -/
def all (size : Nat) : Sparse :=
  (List.range size).map Nat.toUInt32

/-- The cells below `size` that are not in the list. -/
def complement (size : Nat) (cells : Sparse) : Sparse :=
  withoutOnto [] (all size) cells

end SparseTensor.CellSet
