/-
# Archives

An archive is what every format writes and reads: a kind and named fields, each one number or
a list of numbers.  Fields are kept in strictly ascending order of their names, so archives
with the same fields are equal whatever the order in which the fields arrived.

`get?_put` says that a field is found under its name after it has been put there and that the
others stay what they were.
-/
import SparseTensor.Fault

namespace SparseTensor

/-- A field: one number or a list of numbers. -/
inductive Field
  | scalar (value : UInt64)
  | list (values : List UInt64)
  deriving DecidableEq, Repr

/-- Names that every format can carry as they are: one or more ASCII letters, digits and
underscores. -/
def isValidName (name : String) : Bool :=
  !name.toList.isEmpty && name.toList.all fun c => c.isAlphanum || c = '_'

/-! ## Names in order -/

variable {α : Type}

/-- Put a named value in its place, in the stead of an earlier one of that name. -/
def place (name : String) (value : α) : List (String × α) → List (String × α)
  | [] => [(name, value)]
  | entry :: rest =>
    if name < entry.1 then (name, value) :: entry :: rest
    else if name = entry.1 then (name, value) :: rest
    else entry :: place name value rest

/-- Placing a value brings in no other name. -/
theorem mem_place {name : String} {value : α} {fields : List (String × α)}
    {entry : String × α} (h : entry ∈ place name value fields) :
    entry = (name, value) ∨ entry ∈ fields := by
  induction fields with
  | nil => simpa [place] using h
  | cons first rest ih =>
    unfold place at h
    split at h
    · simpa using h
    split at h
    · rcases List.mem_cons.1 h with h | h
      · exact .inl h
      · exact .inr (List.mem_cons_of_mem _ h)
    · rcases List.mem_cons.1 h with h | h
      · exact .inr (h ▸ List.mem_cons_self)
      · exact (ih h).imp_right (List.mem_cons_of_mem _)

/-- Names stay in order when a value is placed. -/
theorem pairwise_place {name : String} {value : α} {fields : List (String × α)}
    (h : fields.Pairwise fun a b => a.1 < b.1) :
    (place name value fields).Pairwise fun a b => a.1 < b.1 := by
  induction fields with
  | nil => simp [place]
  | cons first rest ih =>
    obtain ⟨firstLeast, restOrdered⟩ := List.pairwise_cons.1 h
    unfold place
    split
    · rename_i before
      refine List.pairwise_cons.2 ⟨fun entry hentry => ?_, h⟩
      rcases List.mem_cons.1 hentry with rfl | hentry
      · exact before
      · exact String.lt_trans before (firstLeast _ hentry)
    split
    · rename_i same
      exact List.pairwise_cons.2 ⟨fun entry hentry => same ▸ firstLeast _ hentry, restOrdered⟩
    · rename_i notBefore notSame
      refine List.pairwise_cons.2 ⟨fun entry hentry => ?_, ih restOrdered⟩
      rcases mem_place hentry with rfl | hentry
      · exact Std.lt_of_le_of_ne (String.not_lt.1 notBefore) (Ne.symm notSame)
      · exact firstLeast _ hentry

/-- A placed value is found, and no other is lost. -/
theorem lookup_place (name other : String) (value : α) {fields : List (String × α)}
    (h : fields.Pairwise fun a b => a.1 < b.1) :
    (place name value fields).lookup other =
      if other = name then some value else fields.lookup other := by
  induction fields with
  | nil =>
    by_cases same : other = name
    · simp [place, same]
    · simp [place, List.lookup_cons, beq_eq_false_iff_ne.2 same, same]
  | cons first rest ih =>
    obtain ⟨n, f⟩ := first
    have tail := ih (List.pairwise_cons.1 h).2
    unfold place
    by_cases before : name < n
    · rw [if_pos before]
      by_cases same : other = name
      · simp [same]
      · simp only [List.lookup_cons, beq_eq_false_iff_ne.2 same, if_neg same]
    rw [if_neg before]
    by_cases equal : name = n
    · rw [if_pos equal]
      subst equal
      by_cases same : other = name
      · simp [same]
      · simp only [List.lookup_cons, beq_eq_false_iff_ne.2 same, if_neg same]
    rw [if_neg equal]
    by_cases same : other = n
    · subst same
      simp [Ne.symm equal]
    · simp only [List.lookup_cons, beq_eq_false_iff_ne.2 same, tail]

/-! ## Archives -/

/-- A kind and fields in strictly ascending order of their names. -/
structure Archive where
  kind : String
  fields : List (String × Field)
  ascending : fields.Pairwise fun a b => a.1 < b.1
  deriving DecidableEq

namespace Archive

/-- The archive of a kind without fields. -/
def empty (kind : String) : Archive := ⟨kind, [], .nil⟩

/-- Put a field under a name, in the stead of what is there. -/
def put (a : Archive) (name : String) (field : Field) : Archive where
  kind := a.kind
  fields := place name field a.fields
  ascending := pairwise_place a.ascending

/-- The archive of a kind with the given fields, later ones in the stead of earlier ones. -/
def ofList (kind : String) (fields : List (String × Field)) : Archive :=
  fields.foldl (fun a entry => a.put entry.1 entry.2) (empty kind)

/-- The field under a name. -/
def get? (a : Archive) (name : String) : Option Field :=
  a.fields.lookup name

/-- Put a field that was read from a record.  Its name has to be valid and new. -/
def add (a : Archive) (name : String) (field : Field) : Except Fault Archive :=
  if !isValidName name then .error (.corrupt (.invalidFieldName name))
  else if (a.get? name).isSome then .error (.corrupt (.repeatedField name))
  else .ok (a.put name field)

/-- Refuse an archive of another kind. -/
def expectKind (a : Archive) (kind : String) : Except Fault Unit :=
  if a.kind = kind then .ok () else .error (.corrupt (.wrongKind kind a.kind))

/-- The number under a name. -/
def scalar (a : Archive) (name : String) : Except Fault UInt64 :=
  match a.get? name with
  | some (.scalar value) => .ok value
  | some (.list _) => .error (.corrupt (.notScalar name))
  | none => .error (.corrupt (.missingField name))

/-- The list of numbers under a name. -/
def list (a : Archive) (name : String) : Except Fault (List UInt64) :=
  match a.get? name with
  | some (.list values) => .ok values
  | some (.scalar _) => .error (.corrupt (.notList name))
  | none => .error (.corrupt (.missingField name))

/-! ## Looking up -/

/-- Archives are determined by their kind and their fields. -/
theorem ext {a b : Archive} (kind : a.kind = b.kind) (fields : a.fields = b.fields) : a = b := by
  cases a
  cases b
  cases kind
  cases fields
  rfl

/-- After a field has been put under a name it is found there, and the others are kept. -/
theorem get?_put (a : Archive) (name other : String) (field : Field) :
    (a.put name field).get? other = if other = name then some field else a.get? other :=
  lookup_place name other field a.ascending

end Archive

end SparseTensor
