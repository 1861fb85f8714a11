/-
# Nodes as text

`Node.summary` tells the state of a node without deriving anything; `Forest.display` tells its
dimensions and active cells.
-/
import SparseTensor.Forest.Query

namespace SparseTensor

/-- The names of the encodings that a cache holds. -/
def Cache.held (c : Cache) : List String :=
  (if c.dense.isSome then ["DENSE"] else []) ++ (if c.sparse.isSome then ["SPARSE"] else []) ++
    (if c.coordinates.isSome then ["COORDINATES"] else [])

/-- The names of the encodings that a cache holds as one text. -/
def Cache.heldText (c : Cache) : String :=
  if c.isStale then "0x0" else " | ".intercalate c.held

/-- The state of a node. -/
def Node.summary {α : Type} (n : Node α) : String :=
  s!"Sdr \x7b dimensions: {bracketed n.shape.dims}, view: {n.role.isView}, " ++
    s!"orphaned: {n.orphaned}, valid: Representation({n.cache.heldText}), " ++
    s!"subscribers: {n.registrations.length} \x7d"

/-- Numbers behind blanks, with commas between them. -/
def listed (ns : List UInt32) : String :=
  if ns.isEmpty then "" else " " ++ ", ".intercalate (ns.map fun n => toString n.toNat)

/-- The dimensions and the active cells of a node. -/
def Forest.display {α : Type} (id : NodeId) : Forest.Call α String := do
  let n ← Forest.lent id
  let cells ← Forest.sparse? id
  return s!"SDR({listed n.shape.dims} )" ++
    match cells with
    | some cells => listed cells
    | none => " <orphaned>"

end SparseTensor
