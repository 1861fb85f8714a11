/-
# JSON records are read back

The object of an archive, indented or not, is read as the value that it stands for, and this value
gives the archive again if its names are valid.  Any text can be a name in an object, so an archive
with other names is read as well, and then refused (`decode_blanks_object`).  Blanks in front of the
object are skipped, and the line end behind it is left.
-/
import SparseTensor.Proofs.Extending
import SparseTensor.Proofs.JsonValues

namespace SparseTensor.JsonRecord

open Json (Reads Takes)

/-! ## Fields -/

/-- A number is written with its digits. -/
theorem numberBytes_eq (n : Nat) : numberBytes n = Json.digitBytes n :=
  (Text.plain_render n).bytes

/-- The value that stands for a field. -/
def fieldJson : Field → Json
  | .scalar value => .natural value
  | .list values => .array (values.map .natural)

/-- A written word is a value. -/
theorem reads_word (ending : Ending) (levels : Nat) (v : UInt64) :
    Reads (Json.value ending levels) (numberBytes v.toNat) (.natural v) := by
  have read := Json.reads_number ending levels v.toNat_lt
  rwa [Nat.toUInt64, UInt64.ofNat_toNat, ← numberBytes_eq] at read

/-- A written field is a value. -/
theorem reads_field (ending : Ending) (levels : Nat) (pretty : Bool) (f : Field) :
    Reads (Json.value ending (levels + 1)) (fieldBytes pretty f) (fieldJson f) := by
  cases f with
  | scalar value => exact reads_word ending (levels + 1) value
  | list values =>
      have read := Json.takes_array ending levels
        (values.map fun v => (.natural v, numberBytes v.toNat)) (fun i hi => ?_)
        (fun i hi => ?_) pretty 2
      · rw [List.map_map, List.map_map] at read
        exact read.reads
      · obtain ⟨v, -, rfl⟩ := List.mem_map.1 hi
        exact reads_word ending levels v
      · obtain ⟨v, -, rfl⟩ := List.mem_map.1 hi
        rw [numberBytes_eq]
        exact Json.digitBytes_starts v.toNat (by decide)

/-- The value that stands for a field is read as the field. -/
theorem field?_fieldJson (f : Field) : field? (fieldJson f) = some f := by
  cases f with
  | scalar value => rfl
  | list values =>
      have all : (values.map Json.natural).mapM natural? = some values := by
        induction values with
        | nil => rfl
        | cons v values ih => simp [natural?, ih]
      simp [fieldJson, field?, all]

/-- Members in the order of their names are read as the fields that they stand for. -/
theorem fields?_map {fields : List (String × Field)}
    (ascending : fields.Pairwise fun a b => a.1 < b.1) :
    fields? (fields.map fun entry => (entry.1, fieldJson entry.2)) = some fields := by
  have ordered := @foldl_place _ (fields.map fun entry => (entry.1, fieldJson entry.2))
    (List.pairwise_map.2 ascending)
  have all : ∀ fields : List (String × Field),
      (fields.map fun entry => (entry.1, fieldJson entry.2)).mapM (fun entry =>
        (field? entry.2).map fun field => (entry.1, field)) = some fields := by
    intro fields
    induction fields with
    | nil => rfl
    | cons entry fields ih => simp [field?_fieldJson, ih]
  show ((fields.map fun entry => (entry.1, fieldJson entry.2)).foldl
    (fun entries entry => place entry.1 entry.2 entries) []).mapM (fun entry =>
      (field? entry.2).map fun field => (entry.1, field)) = some fields
  rw [ordered, all]

/-! ## Records -/

/-- The members that stand for an archive. -/
def archiveMembers (a : Archive) : List (String × Json) :=
  [("format", .string formatTag), ("version", .natural recordVersion.toUInt64),
    ("kind", .string a.kind),
    ("fields", .object (a.fields.map fun entry => (entry.1, fieldJson entry.2)))]

/-- The bytes of the object that holds the fields. -/
def fieldsBytes (pretty : Bool) (fields : List (String × Field)) : List UInt8 :=
  objectBytes pretty 1 (fields.map fun entry => (entry.1, fieldBytes pretty entry.2))

/-- The object that holds the fields is a value. -/
theorem reads_fields (fields : List (String × Field)) (ending : Ending) (levels : Nat)
    (pretty : Bool) :
    Reads (Json.value ending (levels + 2)) (fieldsBytes pretty fields)
      (.object (fields.map fun entry => (entry.1, fieldJson entry.2))) := by
  have read := Json.takes_object ending (levels + 1)
    (fields.map fun entry => (entry.1, fieldJson entry.2, fieldBytes pretty entry.2))
    (fun m hm => ?_) pretty 1
  · rw [List.map_map, List.map_map] at read
    exact read.reads
  · obtain ⟨entry, -, rfl⟩ := List.mem_map.1 hm
    exact reads_field ending levels pretty entry.2

/-- The object with a kind and fields, in any order, and repeated or not. -/
def membersBytes (pretty : Bool) (kind : String) (fields : List (String × Field)) : List UInt8 :=
  objectBytes pretty 0
    [("format", Json.stringBytes formatTag), ("version", numberBytes recordVersion.toNat),
      ("kind", Json.stringBytes kind), ("fields", fieldsBytes pretty fields)]

/-- The members that stand for a kind and fields. -/
def recordMembers (kind : String) (fields : List (String × Field)) : List (String × Json) :=
  [("format", .string formatTag), ("version", .natural recordVersion.toUInt64),
    ("kind", .string kind), ("fields", .object (fields.map fun entry => (entry.1, fieldJson entry.2)))]

/-- The object with a kind and fields is a value. -/
theorem takes_members (kind : String) (fields : List (String × Field)) (ending : Ending)
    (levels : Nat) (pretty : Bool) :
    Takes (Json.value ending (levels + 3)) (membersBytes pretty kind fields)
      (.object (recordMembers kind fields)) := by
  refine Json.takes_object ending (levels + 2)
    ([("format", .string formatTag, Json.stringBytes formatTag),
      ("version", .natural recordVersion.toUInt64, numberBytes recordVersion.toNat),
      ("kind", .string kind, Json.stringBytes kind),
      ("fields", .object (fields.map fun entry => (entry.1, fieldJson entry.2)),
        fieldsBytes pretty fields)]) (fun m hm => ?_) pretty 0
  simp only [List.mem_cons, List.not_mem_nil, or_false] at hm
  rcases hm with rfl | rfl | rfl | rfl
  · exact (Json.takes_string ending _ formatTag).reads
  · exact reads_word ending _ recordVersion.toUInt64
  · exact (Json.takes_string ending _ kind).reads
  · exact reads_fields fields ending levels pretty

/-- The object of an archive is a value. -/
theorem takes_object (a : Archive) (ending : Ending) (levels : Nat) (pretty : Bool) :
    Takes (Json.value ending (levels + 3)) (object pretty a) (.object (archiveMembers a)) :=
  takes_members a.kind a.fields ending levels pretty

/-- The value that stands for an archive is read as the archive, if that can be read. -/
theorem ofJson_archiveMembers (a : Archive) : ofJson (.object (archiveMembers a)) = a.admitted := by
  have checked : checkedMembers (.object (archiveMembers a)) = .ok (archiveMembers a) := by
    simp [checkedMembers, archiveMembers, Json.member?, List.lookup_cons, natural?]
  have body : body? (archiveMembers a) = some (a.kind, a.fields) := by
    simp [body?, archiveMembers, Json.member?, List.lookup_cons, memberNames,
      fields?_map a.ascending]
  rw [ofJson, checked, Archive.admitted]
  simp only [bind, Except.bind, body]
  by_cases kind : isValidName a.kind = true
  · rw [kind, if_neg (by decide), if_pos rfl]
    rfl
  · rw [if_neg kind, if_pos (by simpa using kind)]
    rfl

/-- Behind any blanks an object is read as its archive, if that can be read, and what stands behind
it is left. -/
theorem decode_blanks_object (a : Archive) (pretty : Bool) {blanks : List UInt8}
    (blank : ∀ b ∈ blanks, Text.isBlankByte b = true) (suffix : List UInt8) (ending : Ending) :
    decode ⟨blanks ++ (object pretty a ++ suffix), ending⟩ =
      a.admitted.map fun b => (b, suffix) := by
  have scanned : (Json.value ending Json.maxLevels).scan (blanks ++ (object pretty a ++ suffix)) =
      .done (.object (archiveMembers a)) suffix :=
    takes_object a ending 124 pretty blanks suffix blank
  rw [decode, scanned]
  simp only [ofJson_archiveMembers]
  cases a.admitted <;> rfl

end SparseTensor.JsonRecord
