/-
# Archives field by field

Every reader puts the fields of a record into an archive one after another, in the order in which
they stand.  They stand in the order of their names, so each new one goes behind the others, and in
the end the archive is the one that was written (`Archive.Awaits`).  A kind or a name that is not
valid ends the reading, so an archive is read as it is or not at all (`Archive.admitted_eq_ok_iff`).
-/
import Mathlib.Algebra.Group.Nat.Defs
import SparseTensor.Archive

namespace SparseTensor

variable {α β : Type}

/-- If two things that may fail succeed one after another, both succeed. -/
theorem exists_of_bind_eq_ok {e : Except Fault α} {k : α → Except Fault β} {b : β}
    (h : e >>= k = .ok b) : ∃ a, e = .ok a ∧ k a = .ok b := by
  cases e with
  | error fault => cases h
  | ok a => exact ⟨a, rfl, h⟩

/-- A value with the greatest name is placed behind all others. -/
theorem place_eq_append {name : String} (value : α) {fields : List (String × α)}
    (greatest : ∀ entry ∈ fields, entry.1 < name) :
    place name value fields = fields ++ [(name, value)] := by
  induction fields with
  | nil => rfl
  | cons first rest ih =>
      have before := greatest first List.mem_cons_self
      rw [place, if_neg (String.lt_asymm before), if_neg (fun same => ?_),
        ih fun entry hentry => greatest entry (List.mem_cons_of_mem _ hentry), List.cons_append]
      rw [same] at before
      exact String.lt_irrefl _ before

/-- A value with a new name is put among the others. -/
theorem place_perm {name : String} (value : α) {fields : List (String × α)}
    (new : name ∉ fields.map Prod.fst) :
    (place name value fields).Perm ((name, value) :: fields) := by
  induction fields with
  | nil => exact .refl _
  | cons first fields ih =>
      rw [List.map_cons, List.mem_cons, not_or] at new
      rw [place, if_neg new.1]
      split
      · exact .refl _
      · exact ((ih new.2).cons first).trans (.swap ..)

/-- Placing values in the order of their names leaves them as they are. -/
theorem foldl_place {fields : List (String × α)}
    (ascending : fields.Pairwise fun a b => a.1 < b.1) :
    fields.foldl (fun entries entry => place entry.1 entry.2 entries) [] = fields := by
  suffices h : ∀ before after : List (String × α),
      (before ++ after).Pairwise (fun a b => a.1 < b.1) →
        after.foldl (fun entries entry => place entry.1 entry.2 entries) before = before ++ after by
    exact h [] fields ascending
  intro before after
  induction after generalizing before with
  | nil => simp
  | cons entry after ih =>
      intro ascending
      have greatest : ∀ other ∈ before, other.1 < entry.1 := fun other hother =>
        (List.pairwise_append.1 ascending).2.2 other hother entry List.mem_cons_self
      rw [List.foldl_cons, place_eq_append entry.2 greatest, ih _ (by simpa using ascending)]
      simp

/-- The numbers that a field holds. -/
def Field.numbers : Field → List UInt64
  | .scalar value => [value]
  | .list values => values

namespace Archive

/-- Nothing is found under a name that no field has. -/
theorem get?_eq_none_iff {a : Archive} {name : String} :
    a.get? name = none ↔ name ∉ a.fields.map Prod.fst := by
  rw [get?, List.lookup_eq_none_iff, List.mem_map]
  constructor
  · rintro absent ⟨entry, hentry, rfl⟩
    simpa using absent entry hentry
  · intro new entry hentry
    rw [bne_iff_ne]
    exact fun same => new ⟨entry, hentry, same.symm⟩

/-- A field is put into an archive exactly if its name is valid and new. -/
theorem add_eq_ok_iff {a b : Archive} {name : String} {field : Field} :
    a.add name field = .ok b ↔
      isValidName name = true ∧ name ∉ a.fields.map Prod.fst ∧ b = a.put name field := by
  rw [← get?_eq_none_iff, add]
  by_cases valid : isValidName name = true
  · cases found : a.get? name with
    | some earlier => simp [valid]
    | none =>
        simp only [valid, Bool.not_true, Bool.false_eq_true, if_false, Option.isSome_none, true_and]
        exact ⟨fun h => (Except.ok.inj h).symm, fun same => congrArg Except.ok same.symm⟩
  · simp [valid]

/-- An archive without lists that are too long to be counted. -/
def Countable (a : Archive) : Prop :=
  ∀ entry ∈ a.fields, entry.2.numbers.length < 2 ^ 64

/-- An archive is still to get some fields to become another one. -/
structure Awaits (a : Archive) (fields : List (String × Field)) (b : Archive) : Prop where
  kind : a.kind = b.kind
  fields : a.fields ++ fields = b.fields

/-- An archive awaits all its fields at first. -/
theorem awaits_empty (a : Archive) : (empty a.kind).Awaits a.fields a := ⟨rfl, rfl⟩

/-- An archive that awaits nothing is complete. -/
theorem Awaits.eq {a b : Archive} (h : a.Awaits [] b) : a = b :=
  Archive.ext h.kind (by simpa using h.fields)

/-- An archive that awaits nothing is complete, and no other one is. -/
theorem awaits_nil_iff {a b : Archive} : a.Awaits [] b ↔ b = a := by
  constructor
  · intro h
    exact h.eq.symm
  · rintro rfl
    exact ⟨rfl, List.append_nil _⟩

/-- One field further, an archive awaits one field less. -/
theorem Awaits.awaits_iff {a extended b c : Archive} {entry : String × Field}
    {rest kept : List (String × Field)} (h : a.Awaits (entry :: rest) c)
    (later : extended.Awaits rest c) :
    extended.Awaits kept b ↔ a.Awaits (entry :: kept) b := by
  have kind : extended.kind = a.kind := later.kind.trans h.kind.symm
  have fields : extended.fields = a.fields ++ [entry] := by
    have same := later.fields.trans h.fields.symm
    rw [← List.append_cancel_right_eq _ rest, same, List.append_assoc, List.singleton_append]
  constructor
  · rintro ⟨hkind, hfields⟩
    exact ⟨kind ▸ hkind, by rw [← hfields, fields, List.append_assoc, List.singleton_append]⟩
  · rintro ⟨hkind, hfields⟩
    exact ⟨kind ▸ hkind, by rw [← hfields, fields, List.append_assoc, List.singleton_append]⟩

/-- The next field is put behind the others. -/
theorem Awaits.add {a b : Archive} {name : String} {field : Field}
    {rest : List (String × Field)} (h : a.Awaits ((name, field) :: rest) b)
    (valid : isValidName name = true) :
    ∃ extended, a.add name field = .ok extended ∧ extended.Awaits rest b := by
  have ascending : (a.fields ++ (name, field) :: rest).Pairwise fun a b => a.1 < b.1 :=
    h.fields ▸ b.ascending
  have greatest : ∀ entry ∈ a.fields, entry.1 < name := fun entry hentry =>
    (List.pairwise_append.1 ascending).2.2 entry hentry _ List.mem_cons_self
  have new : name ∉ a.fields.map Prod.fst := by
    rintro hname
    obtain ⟨entry, hentry, rfl⟩ := List.mem_map.1 hname
    exact String.lt_irrefl _ (greatest entry hentry)
  refine ⟨a.put name field, add_eq_ok_iff.2 ⟨valid, new, rfl⟩, h.kind, ?_⟩
  show place name field a.fields ++ rest = b.fields
  rw [← h.fields, place_eq_append field greatest, List.append_assoc, List.singleton_append]

/-- Fields are put behind the others one after another. -/
theorem Awaits.foldlM {b : Archive} {fields : List (String × Field)} {a : Archive}
    (h : a.Awaits fields b) (valid : ∀ entry ∈ fields, isValidName entry.1 = true) :
    fields.foldlM (fun a entry => a.add entry.1 entry.2) a = .ok b := by
  induction fields generalizing a with
  | nil =>
      rw [h.eq]
      rfl
  | cons first fields ih =>
      obtain ⟨extended, added, awaits⟩ := h.add (valid first List.mem_cons_self)
      rw [List.foldlM_cons, added]
      exact ih awaits fun entry hentry => valid entry (List.mem_cons_of_mem _ hentry)

/-! ## Archives that are read -/

/-- Put fields that were read into an archive, one after another. -/
def addAll (a : Archive) (fields : List (String × Field)) : Except Fault Archive :=
  fields.foldlM (fun b entry => b.add entry.1 entry.2) a

theorem addAll_nil (a : Archive) : a.addAll [] = .ok a := rfl

theorem addAll_cons (a : Archive) (entry : String × Field) (fields : List (String × Field)) :
    a.addAll (entry :: fields) = (a.add entry.1 entry.2).bind fun b => b.addAll fields := by
  rw [addAll, List.foldlM_cons]
  rfl

/-- What a reader makes of the kind and the fields of an archive. -/
def admitted (a : Archive) : Except Fault Archive :=
  if isValidName a.kind then (empty a.kind).addAll a.fields
  else .error (.corrupt (.invalidKind a.kind))

variable {a b : Archive} {fields : List (String × Field)} {fault : Fault}

/-- Fields are put into an archive one after another. -/
theorem exists_of_addAll_cons {entry : String × Field}
    (h : a.addAll (entry :: fields) = .ok b) :
    ∃ extended, a.add entry.1 entry.2 = .ok extended ∧ extended.addAll fields = .ok b := by
  rw [addAll_cons] at h
  exact exists_of_bind_eq_ok h

/-- A field that is refused is damage. -/
theorem corrupt_of_add {name : String} {field : Field} (h : a.add name field = .error fault) :
    ∃ cause, fault = .corrupt cause := by
  unfold add at h
  split at h
  · cases h
    exact ⟨_, rfl⟩
  split at h
  · cases h
    exact ⟨_, rfl⟩
  · cases h

/-- Fields are put into an archive only under valid names. -/
theorem isValidName_of_addAll (h : a.addAll fields = .ok b) :
    ∀ entry ∈ fields, isValidName entry.1 = true := by
  induction fields generalizing a with
  | nil => exact List.forall_mem_nil _
  | cons first fields ih =>
      obtain ⟨extended, added, h⟩ := exists_of_addAll_cons h
      exact List.forall_mem_cons.2 ⟨(add_eq_ok_iff.1 added).1, ih h⟩

/-- Fields that are refused are damage. -/
theorem corrupt_of_addAll (h : a.addAll fields = .error fault) :
    ∃ cause, fault = .corrupt cause := by
  induction fields generalizing a with
  | nil => cases h
  | cons first fields ih =>
      rw [addAll_cons] at h
      cases added : a.add first.1 first.2 with
      | error _ =>
          rw [added] at h
          cases h
          exact corrupt_of_add added
      | ok extended =>
          rw [added] at h
          exact ih h

/-- An archive with valid names is read as it is. -/
theorem admitted_eq (kind : isValidName a.kind = true)
    (names : ∀ entry ∈ a.fields, isValidName entry.1 = true) : a.admitted = .ok a := by
  rw [admitted, if_pos kind]
  exact a.awaits_empty.foldlM names

/-- Only archives with valid names are read, and only as they are. -/
theorem admitted_eq_ok_iff :
    a.admitted = .ok b ↔
      (isValidName a.kind = true ∧ ∀ entry ∈ a.fields, isValidName entry.1 = true) ∧ b = a := by
  constructor
  · intro h
    have kind : isValidName a.kind = true := by
      unfold admitted at h
      split at h
      · assumption
      · cases h
    have names : ∀ entry ∈ a.fields, isValidName entry.1 = true := by
      rw [admitted, if_pos kind] at h
      exact isValidName_of_addAll h
    rw [admitted_eq kind names] at h
    exact ⟨⟨kind, names⟩, (Except.ok.inj h).symm⟩
  · rintro ⟨⟨kind, names⟩, rfl⟩
    exact admitted_eq kind names

end Archive

end SparseTensor
