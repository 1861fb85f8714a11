/-
# Persistence formats

The four formats a record can be written in, their numeric codes and their names.
Codes are stable: `ofCode?_code` says that every format is found again under its code,
and `ofCode?_eq_some_iff` that no other code names one.
-/

namespace SparseTensor

/-- The formats a record can be written in. -/
inductive Format
  | binary
  | portable
  | json
  | xml
  deriving DecidableEq, Repr

namespace Format

/-- The numeric code of a format. -/
def code : Format → UInt32
  | binary => 0
  | portable => 1
  | json => 2
  | xml => 3

/-- The format with a given code. -/
def ofCode? (n : UInt32) : Option Format :=
  if n = 0 then some binary
  else if n = 1 then some portable
  else if n = 2 then some json
  else if n = 3 then some xml
  else none

/-- The lower-case name of a format. -/
def name : Format → String
  | binary => "binary"
  | portable => "portable"
  | json => "json"
  | xml => "xml"

/-- The spelling of a format inside fault messages. -/
def title : Format → String
  | binary => "binary"
  | portable => "portable"
  | json => "JSON"
  | xml => "XML"

/-- A format is found again under its code. -/
theorem ofCode?_code (f : Format) : ofCode? f.code = some f := by
  cases f <;> rfl

/-- A code names a format exactly when it is that format's code. -/
theorem ofCode?_eq_some_iff {n : UInt32} {f : Format} : ofCode? n = some f ↔ n = f.code := by
  constructor
  · unfold ofCode?
    intro h
    split at h
    · cases h; assumption
    split at h
    · cases h; assumption
    split at h
    · cases h; assumption
    split at h
    · cases h; assumption
    · cases h
  · rintro rfl
    exact ofCode?_code f

end Format

end SparseTensor
