/-
# JSON values

A value is null, a truth value, a number, a string, an array or an object.  Objects keep their
members in the order in which they are written, repeated ones included; `member?` finds the
last one of a name.

Arrays and objects may be nested, but not without end: `value` takes the number of levels that
are allowed.
-/
import SparseTensor.Json.Number
import SparseTensor.Json.Text

namespace SparseTensor

/-- A value. -/
inductive Json
  | null
  | bool (b : Bool)
  /-- A number written as a natural number below 2 ^ 64. -/
  | natural (n : UInt64)
  /-- Any other number. -/
  | number
  | string (s : String)
  | array (items : List Json)
  | object (members : List (String × Json))

namespace Json

/-- The member of an object, the last one if the name is repeated. -/
def member? (members : List (String × Json)) (name : String) : Option Json :=
  members.reverse.lookup name

/-! ## Reading -/

/-- A member of an object whose values are read by `item`. -/
def memberScan (item : Scanner Json) (bytes : List UInt8) : Scan (String × Json) :=
  (expect quote (skipBlanks bytes)).andThen fun _ rest =>
  (scanText rest).andThen fun name rest =>
  (expect ':'.toUInt8 (skipBlanks rest)).andThen fun _ rest =>
  (item.scan rest).map fun value => (name, value)

/-- A member takes up at least the bytes of its value. -/
theorem length_memberScan_lt {item : Scanner Json} {bytes rest : List UInt8}
    {entry : String × Json} (h : memberScan item bytes = .done entry rest) :
    rest.length < bytes.length := by
  obtain ⟨_, _, opening, h⟩ := Scan.andThen_eq_done h
  obtain ⟨_, afterName, name, h⟩ := Scan.andThen_eq_done h
  obtain ⟨_, _, colon, h⟩ := Scan.andThen_eq_done h
  obtain ⟨_, value, -⟩ := Scan.map_eq_done h
  have := length_expect opening
  have := length_textUpToQuote_lt name
  have := length_expect colon
  have := item.shorter value
  have := length_skipBlanks_le bytes
  have := length_skipBlanks_le afterName
  omega

/-- A member of an object whose values are read by `item`. -/
def member (item : Scanner Json) : Scanner (String × Json) :=
  ⟨memberScan item, length_memberScan_lt⟩

/-- The value that starts with a byte.  What arrays and objects hold is read by `inner`; without
it they are refused. -/
def startingWith (ending : Ending) (inner : Option (Scanner Json)) (b : UInt8)
    (rest : List UInt8) : Scan Json :=
  if isDigit b ∨ b = '-'.toUInt8 then
    (scanNumber ending (b :: rest)).map fun
      | some n => .natural n
      | none => .number
  else if b = quote then (scanText rest).map .string
  else if b = '['.toUInt8 then
    match inner with
    | some item => (item.sequence ']'.toUInt8 rest).map .array
    | none => .malformed
  else if b = '\x7b'.toUInt8 then
    match inner with
    | some item => ((member item).sequence '\x7d'.toUInt8 rest).map .object
    | none => .malformed
  else if b = 'n'.toUInt8 then (literal (Text.bytes "ull") rest).map fun _ => .null
  else if b = 't'.toUInt8 then (literal (Text.bytes "rue") rest).map fun _ => .bool true
  else if b = 'f'.toUInt8 then (literal (Text.bytes "alse") rest).map fun _ => .bool false
  else .malformed

/-- The value behind any blanks. -/
def valueOver (ending : Ending) (inner : Option (Scanner Json)) (bytes : List UInt8) :
    Scan Json :=
  match skipBlanks bytes with
  | [] => .starved
  | b :: rest => startingWith ending inner b rest

/-- A value takes up at least its first byte. -/
theorem length_startingWith_le {ending : Ending} {inner : Option (Scanner Json)} {b : UInt8}
    {bytes rest : List UInt8} {value : Json}
    (h : startingWith ending inner b bytes = .done value rest) : rest.length ≤ bytes.length := by
  unfold startingWith at h
  split at h
  · obtain ⟨_, found, -⟩ := Scan.map_eq_done h
    exact Nat.le_of_lt_succ (length_scanNumber_lt found)
  split at h
  · obtain ⟨_, found, -⟩ := Scan.map_eq_done h
    exact Nat.le_of_lt (length_textUpToQuote_lt found)
  split at h
  · split at h
    · obtain ⟨_, found, -⟩ := Scan.map_eq_done h
      exact Nat.le_of_lt (Scanner.length_sequence_lt _ _ found)
    · cases h
  split at h
  · split at h
    · obtain ⟨_, found, -⟩ := Scan.map_eq_done h
      exact Nat.le_of_lt (Scanner.length_sequence_lt _ _ found)
    · cases h
  split at h
  · obtain ⟨_, found, -⟩ := Scan.map_eq_done h
    exact length_literal found ▸ Nat.le_add_right _ _
  split at h
  · obtain ⟨_, found, -⟩ := Scan.map_eq_done h
    exact length_literal found ▸ Nat.le_add_right _ _
  split at h
  · obtain ⟨_, found, -⟩ := Scan.map_eq_done h
    exact length_literal found ▸ Nat.le_add_right _ _
  · cases h

/-- A value behind blanks takes up at least its first byte. -/
theorem length_valueOver_lt {ending : Ending} {inner : Option (Scanner Json)}
    {bytes rest : List UInt8} {value : Json}
    (h : valueOver ending inner bytes = .done value rest) : rest.length < bytes.length := by
  have blanks := length_skipBlanks_le bytes
  unfold valueOver at h
  split at h
  · cases h
  · rename_i b behind left
    simp only [left, List.length_cons] at blanks
    have := length_startingWith_le h
    omega

/-- A value in which arrays and objects are nested at most as deep as the number says. -/
def value (ending : Ending) : Nat → Scanner Json
  | 0 => ⟨valueOver ending none, length_valueOver_lt⟩
  | levels + 1 => ⟨valueOver ending (some (value ending levels)), length_valueOver_lt⟩

/-- The number of levels to which arrays and objects may be nested. -/
def maxLevels : Nat := 127

end Json

end SparseTensor
