/-
# What a record spells

A record spells a kind and fields: the fields in the order in which they stand, each as often as it
stands there.  `Record.Spells` says so of the bytes, format by format, and takes only what a format
itself asks for: the frame of the record, the kind and the values.  It does not ask whether the names
of the fields are valid, or different.

A reader of a format that is read from the front to the end puts the fields into an archive as it
meets them, so it comes to what `Archive.addAll` makes of them (`Record.decode_of_spells`), and it
accepts nothing that does not spell something (`Record.exists_spells_of_decode`).  A JSON reader is
handed all members of an object at once.  It places them under their names first, and what it puts
into the archive are the fields that are left then (`JsonRecord.decode_of_spells`).
-/
import Mathlib.Data.List.Forall2
import SparseTensor.Proofs.CutPortable
import SparseTensor.Proofs.Weights

namespace SparseTensor

/-! ## Fields in a row -/

namespace Archive

variable {a b : Archive} {fields more : List (String × Field)}

/-- Put fields into an archive, each in the stead of an earlier one of its name. -/
def putAll (a : Archive) (fields : List (String × Field)) : Archive :=
  fields.foldl (fun b entry => b.put entry.1 entry.2) a

theorem ofList_eq (kind : String) (fields : List (String × Field)) :
    ofList kind fields = (empty kind).putAll fields := rfl

/-- A kind stays what it is. -/
theorem kind_putAll (a : Archive) (fields : List (String × Field)) :
    (a.putAll fields).kind = a.kind := by
  induction fields generalizing a with
  | nil => rfl
  | cons entry fields ih => exact ih (a.put entry.1 entry.2)

/-- Fields that are put into an archive are placed among those that are there. -/
theorem fields_putAll (a : Archive) (fields : List (String × Field)) :
    (a.putAll fields).fields =
      fields.foldl (fun entries entry => place entry.1 entry.2 entries) a.fields := by
  induction fields generalizing a with
  | nil => rfl
  | cons entry fields ih => exact ih (a.put entry.1 entry.2)

/-- What is found in an archive after fields have been put there was found before, or is one of
them. -/
theorem isSome_get?_putAll (a : Archive) (fields : List (String × Field)) (name : String) :
    ((a.putAll fields).get? name).isSome = true ↔
      (a.get? name).isSome = true ∨ name ∈ fields.map Prod.fst := by
  induction fields generalizing a with
  | nil => simp [putAll]
  | cons entry fields ih =>
      rw [show a.putAll (entry :: fields) = (a.put entry.1 entry.2).putAll fields from rfl, ih,
        get?_put, List.map_cons, List.mem_cons]
      by_cases same : name = entry.1
      · simp [same]
      · simp [same]

/-- Fields behind others are put into the archive that those have made. -/
theorem addAll_append (a : Archive) (fields more : List (String × Field)) :
    a.addAll (fields ++ more) = (a.addAll fields).bind fun b => b.addAll more := by
  rw [addAll, List.foldlM_append]
  rfl

/-- Putting fields into an archive leaves its kind. -/
theorem kind_of_addAll (h : a.addAll fields = .ok b) : b.kind = a.kind := by
  induction fields generalizing a with
  | nil =>
      cases h
      rfl
  | cons entry fields ih =>
      obtain ⟨extended, added, h⟩ := exists_of_addAll_cons h
      obtain ⟨-, -, rfl⟩ := add_eq_ok_iff.1 added
      exact (ih h :)

/-- Fields with valid names are put into an archive if the names are new and different. -/
theorem addAll_of_nodup (valid : ∀ entry ∈ fields, isValidName entry.1 = true)
    (new : ∀ name ∈ fields.map Prod.fst, a.get? name = none)
    (different : (fields.map Prod.fst).Nodup) : a.addAll fields = .ok (a.putAll fields) := by
  induction fields generalizing a with
  | nil => rfl
  | cons entry fields ih =>
      obtain ⟨first, others⟩ := List.forall_mem_cons.1 valid
      rw [List.map_cons, List.nodup_cons] at different
      have absent : a.get? entry.1 = none := new entry.1 (by simp)
      have added : a.add entry.1 entry.2 = .ok (a.put entry.1 entry.2) :=
        add_eq_ok_iff.2 ⟨first, get?_eq_none_iff.1 absent, rfl⟩
      rw [addAll_cons, added]
      apply ih others _ different.2
      intro name hname
      have other : name ≠ entry.1 := fun same => different.1 (same ▸ hname)
      rw [get?_put, if_neg other]
      exact new name (List.mem_cons_of_mem _ hname)

/-- A name that stands behind itself is refused, and the first one that does is named. -/
theorem addAll_of_repeated {name : String} {f : Field}
    (valid : ∀ entry ∈ fields ++ (name, f) :: more, isValidName entry.1 = true)
    (new : ∀ name ∈ fields.map Prod.fst, a.get? name = none)
    (different : (fields.map Prod.fst).Nodup) (again : name ∈ fields.map Prod.fst) :
    a.addAll (fields ++ (name, f) :: more) = .error (.corrupt (.repeatedField name)) := by
  obtain ⟨front, others⟩ := List.forall_mem_append.1 valid
  have there : ((a.putAll fields).get? name).isSome = true :=
    (isSome_get?_putAll a fields name).2 (.inr again)
  have refused : (a.putAll fields).add name f = .error (.corrupt (.repeatedField name)) := by
    have first := others (name, f) List.mem_cons_self
    simp [add, first, there]
  rw [addAll_append, addAll_of_nodup front new different]
  show (a.putAll fields).addAll ((name, f) :: more) = _
  rw [addAll_cons, refused]
  rfl

end Archive

/-- Names that are not all different have a first one that stands behind itself. -/
theorem exists_first_repeated {α : Type} {fields : List (String × α)}
    (repeated : ¬ (fields.map Prod.fst).Nodup) :
    ∃ before name value after, fields = before ++ (name, value) :: after ∧
      (before.map Prod.fst).Nodup ∧ name ∈ before.map Prod.fst := by
  -- from the end: either the names in front of the last one repeat, or the last one does
  induction fields using List.reverseRecOn with
  | nil => exact absurd List.nodup_nil repeated
  | append_singleton fields last ih =>
      by_cases front : (fields.map Prod.fst).Nodup
      · refine ⟨fields, last.1, last.2, [], rfl, front, ?_⟩
        by_contra absent
        apply repeated
        rw [List.map_append, List.nodup_append]
        refine ⟨front, List.nodup_singleton _, ?_⟩
        rintro name hname _ (_ | ⟨_, ⟨⟩⟩) rfl
        exact absent hname
      · obtain ⟨before, name, value, after, split, different, again⟩ := ih front
        refine ⟨before, name, value, after ++ [last], ?_, different, again⟩
        rw [split, List.append_assoc, List.cons_append]

variable {kind : String} {fields : List (String × Field)} {bytes rest : List UInt8}
  {settings : Settings} {ending : Ending} {a b : Archive}

/-! ## Binary records -/

namespace Binary

/-- Bytes that hold fields, in front of others. -/
inductive Holds : List (String × Field) → List UInt8 → List UInt8 → Prop
  | nothing (bytes : List UInt8) : Holds [] bytes bytes
  | field {name : String} {f : Field} {fields : List (String × Field)}
      {bytes behind left rest : List UInt8} :
    Reader.text bytes = .ok name behind → field name behind = .ok f left →
      Holds fields left rest → Holds ((name, f) :: fields) bytes rest

/-- A header and a payload, which holds a kind, a number, and that many fields. -/
inductive Spells (settings : Settings) (kind : String) (fields : List (String × Field)) :
    List UInt8 → List UInt8 → Prop
  | record {head payload behind left : List UInt8} (rest : List UInt8) :
    head.length = headerSize → payloadLength settings.maxBytes head = .ok payload.length →
      Reader.text payload = .ok kind behind → isValidName kind = true →
        Reader.count behind = .ok fields.length left → Holds fields left [] →
          Spells settings kind fields (head ++ (payload ++ rest)) rest

/-- A field that is read is put into the archive, or refused. -/
theorem entry_of_field {name : String} {f : Field} {behind left : List UInt8}
    (named : Reader.text bytes = .ok name behind) (valued : field name behind = .ok f left)
    (a : Archive) : entry a bytes =
      match a.add name f with
      | .ok extended => .ok extended left
      | .error fault => .error fault left := by
  rw [entry, bind_of_ok named, bind_of_ok valued]
  cases a.add name f <;> rfl

/-- Fields that bytes hold are put into the archive one after another. -/
theorem Holds.entries (h : Holds fields bytes rest) (a : Archive) :
    match a.addAll fields with
    | .ok b => entries fields.length a bytes = .ok b rest
    | .error fault => ∃ left, entries fields.length a bytes = .error fault left := by
  induction h generalizing a with
  | nothing bytes => exact rfl
  | @field name f fields bytes behind left rest named valued _ ih =>
      have first := entry_of_field named valued a
      rw [Archive.addAll_cons, List.length_cons, Binary.entries]
      cases added : a.add name f with
      | error fault =>
          rw [added] at first
          rw [first]
          exact ⟨left, rfl⟩
      | ok extended =>
          rw [added] at first
          rw [first]
          exact ih extended

/-- Bytes of which fields are read hold them. -/
theorem exists_holds_of_entries {n : Nat} (h : entries n a bytes = .ok b rest) :
    ∃ fields, fields.length = n ∧ Holds fields bytes rest ∧ a.addAll fields = .ok b := by
  induction n generalizing a bytes with
  | zero =>
      cases h
      exact ⟨[], rfl, .nothing _, rfl⟩
  | succ n ih =>
      rw [entries] at h
      split at h
      swap
      · cases h
      rename_i extended left first
      obtain ⟨name, behind, named, first⟩ := exists_of_bind_ok first
      obtain ⟨f, after, valued, first⟩ := exists_of_bind_ok first
      obtain ⟨fields, length, holds, others⟩ := ih h
      cases added : a.add name f with
      | error fault =>
          rw [added] at first
          cases first
      | ok found =>
          rw [added] at first
          cases first
          refine ⟨(name, f) :: fields, congrArg Nat.succ length, .field named valued holds, ?_⟩
          rw [Archive.addAll_cons, added]
          exact others

/-- The fields of a payload are put into an archive one after another. -/
theorem ofPayload_of_holds {payload behind left : List UInt8}
    (named : Reader.text payload = .ok kind behind) (valid : isValidName kind = true)
    (counted : Reader.count behind = .ok fields.length left) (holds : Holds fields left []) :
    ofPayload payload = (Archive.empty kind).addAll fields := by
  have read := holds.entries (Archive.empty kind)
  have whole : archive payload = (do
      let a ← entries fields.length (Archive.empty kind)
      let left ← Reader.remaining
      if left = 0 then return a else throw (.corrupt (.unusedPayload left)) : Reader Archive)
        left := by
    rw [archive, bind_of_ok named, if_neg (by simp [valid]), bind_of_ok counted]
  rw [ofPayload, whole]
  cases result : (Archive.empty kind).addAll fields with
  | ok b =>
      rw [result] at read
      rw [bind_of_ok read]
      rfl
  | error fault =>
      rw [result] at read
      obtain ⟨after, read⟩ := read
      obtain ⟨cause, rfl⟩ := Archive.corrupt_of_addAll result
      rw [bind_of_error read]

/-- A payload that is read holds a kind, a number and that many fields. -/
theorem exists_holds_of_ofPayload {payload : List UInt8} (h : ofPayload payload = .ok a) :
    ∃ fields behind left, Reader.text payload = .ok a.kind behind ∧
      isValidName a.kind = true ∧ Reader.count behind = .ok fields.length left ∧
      Holds fields left [] ∧ (Archive.empty a.kind).addAll fields = .ok a := by
  rw [ofPayload] at h
  split at h
  swap
  · cases h
  swap
  · cases h
  rename_i b after read
  cases h
  obtain ⟨kind, behind, named, read⟩ := exists_of_bind_ok read
  split at read
  · cases read
  rename_i valid
  obtain ⟨n, left, counted, read⟩ := exists_of_bind_ok read
  obtain ⟨b, end_, entered, read⟩ := exists_of_bind_ok read
  obtain ⟨m, same, remaining, read⟩ := exists_of_bind_ok read
  cases remaining
  split at read
  swap
  · cases read
  rename_i none
  cases read
  obtain rfl := List.length_eq_zero_iff.1 none
  obtain ⟨fields, rfl, holds, added⟩ := exists_holds_of_entries entered
  obtain rfl : a.kind = kind := Archive.kind_of_addAll added
  exact ⟨fields, behind, left, named, by simpa using valid, counted, holds, added⟩

/-- A record is read as what comes of its fields. -/
theorem decode_of_spells (spells : Spells settings kind fields bytes rest) (ending : Ending) :
    decode settings ⟨bytes, ending⟩ = ((Archive.empty kind).addAll fields).map (·, rest) := by
  obtain @⟨head, payload, behind, left, _, whole, announced, named, valid, counted, holds⟩ :=
    spells
  have header : (head ++ (payload ++ rest)).take headerSize = head := by
    rw [← whole, List.take_left]
  have body : (head ++ (payload ++ rest)).drop headerSize = payload ++ rest := by
    rw [← whole, List.drop_left]
  rw [decode]
  simp only [header, body, whole, Nat.lt_irrefl, if_false, announced, bind, Except.bind,
    List.take_left, List.drop_left]
  rw [ofPayload_of_holds named valid counted holds]
  cases (Archive.empty kind).addAll fields <;> rfl

/-- Whatever is read is a record that spells something. -/
theorem exists_spells_of_decode (h : decode settings ⟨bytes, ending⟩ = .ok (a, rest)) :
    ∃ fields, Spells settings a.kind fields bytes rest ∧
      (Archive.empty a.kind).addAll fields = .ok a := by
  rw [decode] at h
  simp only at h
  split at h
  · cases h
  rename_i whole
  rw [List.length_take] at whole
  obtain ⟨length, announced, h⟩ := exists_of_bind_eq_ok h
  split at h
  · split at h <;> cases h
  rename_i complete
  rw [List.length_take] at complete
  obtain ⟨b, read, h⟩ := exists_of_bind_eq_ok h
  cases h
  obtain ⟨fields, behind, left, named, valid, counted, holds, added⟩ :=
    exists_holds_of_ofPayload read
  refine ⟨fields, ?_, added⟩
  have split : bytes = bytes.take headerSize ++ ((bytes.drop headerSize).take length ++
      (bytes.drop headerSize).drop length) := by
    rw [List.take_append_drop, List.take_append_drop]
  have size : ((bytes.drop headerSize).take length).length = length := by
    rw [List.length_take]
    omega
  have spells : Spells settings a.kind fields
      (bytes.take headerSize ++ ((bytes.drop headerSize).take length ++
        (bytes.drop headerSize).drop length)) ((bytes.drop headerSize).drop length) :=
    .record _ (by rw [List.length_take]; omega)
      (announced.trans (congrArg Except.ok size.symm)) named valid counted holds
  rwa [← split] at spells

end Binary

/-! ## Portable records -/

namespace Portable

/-- Lines that hold fields, up to the terminator, in front of other bytes. -/
inductive Lines (ending : Ending) : List (String × Field) → List UInt8 → List UInt8 → Prop
  | terminator {bytes front rest : List UInt8} : nextLine bytes = .line front rest →
    lineWords front = .ok [Portable.terminator] → Lines ending [] bytes rest
  | lastTerminator {bytes front : List UInt8} : ending = .ends →
    nextLine bytes = .lastLine front → lineWords front = .ok [Portable.terminator] →
      Lines ending [] bytes []
  | field {name : List Char} {words : List (List Char)} {f : Field}
      {fields : List (String × Field)} {bytes front left rest : List UInt8} :
    nextLine bytes = .line front left → lineWords front = .ok (name :: words) →
      field (String.ofList name) words = .ok f → Lines ending fields left rest →
        Lines ending ((String.ofList name, f) :: fields) bytes rest

/-- Blank lines, a header and lines that hold fields. -/
inductive Spells (ending : Ending) (kind : String) (fields : List (String × Field)) :
    List UInt8 → List UInt8 → Prop
  | blank {bytes front left rest : List UInt8} : nextLine bytes = .line front left →
    lineWords front = .ok [] → Spells ending kind fields left rest →
      Spells ending kind fields bytes rest
  | header {words : List (List Char)} {bytes front left rest : List UInt8} :
    nextLine bytes = .line front left → lineWords front = .ok words →
      headerKind words = .ok kind → Lines ending fields left rest →
        Spells ending kind fields bytes rest

/-- The line of a field is not the terminator. -/
theorem cons_ne_terminator {name : List Char} {words : List (List Char)} {f : Field}
    (valued : field (String.ofList name) words = .ok f) : name :: words ≠ [terminator] := by
  intro same
  cases same
  cases valued

/-- Only words are a header. -/
theorem ne_nil_of_headerKind {words : List (List Char)} (announced : headerKind words = .ok kind) :
    words ≠ [] := by
  rintro rfl
  cases announced

/-- The fields of lines are put into an archive one after another. -/
theorem Lines.entries (h : Lines ending fields bytes rest) (a : Archive) :
    entries ending a bytes = (a.addAll fields).map (·, rest) := by
  induction h generalizing a with
  | terminator line words =>
      rw [entries_of_line line, words]
      rfl
  | lastTerminator ends line words =>
      rw [ends, entries_of_lastLine line, words]
      rfl
  | @field name words f fields bytes front left rest line read valued _ ih =>
      have put : entry a (name :: words) = a.add (String.ofList name) f := by
        rw [entry, valued]
        rfl
      rw [entries_of_line line, read, Archive.addAll_cons]
      simp only [bind, Except.bind, if_neg (cons_ne_terminator valued), put]
      cases a.add (String.ofList name) f with
      | error fault => rfl
      | ok extended => exact ih extended

/-- Lines that are read hold fields, by induction on the bytes that are left. -/
theorem exists_lines_of_entries (h : entries ending a bytes = .ok (b, rest)) :
    ∃ fields, Lines ending fields bytes rest ∧ a.addAll fields = .ok b := by
  induction bytes using (measure List.length).wf.induction generalizing a with
  | h bytes ih =>
      rw [Portable.entries.eq_def] at h
      split at h
      · rename_i front left line
        obtain ⟨words, read, h⟩ := exists_of_bind_eq_ok h
        split at h
        · rename_i last
          cases h
          exact ⟨[], .terminator line (last ▸ read), rfl⟩
        obtain ⟨extended, put, h⟩ := exists_of_bind_eq_ok h
        obtain ⟨fields, lines, others⟩ := ih left (length_rest_lt line) h
        cases words with
        | nil => cases put
        | cons name words =>
            obtain ⟨f, valued, put⟩ := exists_of_bind_eq_ok put
            refine ⟨(String.ofList name, f) :: fields, .field line read valued lines, ?_⟩
            rw [Archive.addAll_cons, put]
            exact others
      · rename_i front line
        obtain ⟨words, read, h⟩ := exists_of_bind_eq_ok h
        split at h
        · rename_i last
          cases h
          exact ⟨[], .lastTerminator rfl line (last ▸ read), rfl⟩
        · obtain ⟨_, -, h⟩ := exists_of_bind_eq_ok h
          cases h
      · cases h
      · cases h

/-- A record is read as what comes of its fields. -/
theorem decode_of_spells (spells : Spells ending kind fields bytes rest) :
    decode ⟨bytes, ending⟩ = ((Archive.empty kind).addAll fields).map (·, rest) := by
  induction spells with
  | blank line words _ ih =>
      rw [decode_of_blank line words]
      exact ih
  | header line words announced lines =>
      rw [decode_of_line line words (ne_nil_of_headerKind announced), announced]
      exact lines.entries (Archive.empty kind)

/-- Whatever is read is a record that spells something, by induction on the blank lines in front. -/
theorem exists_spells_of_decode (h : decode ⟨bytes, ending⟩ = .ok (a, rest)) :
    ∃ fields, Spells ending a.kind fields bytes rest ∧
      (Archive.empty a.kind).addAll fields = .ok a := by
  induction bytes using (measure List.length).wf.induction with
  | h bytes ih =>
      rw [decode, record.eq_def] at h
      split at h
      · rename_i front left line
        obtain ⟨words, read, h⟩ := exists_of_bind_eq_ok h
        split at h
        · rename_i none
          obtain rfl := List.isEmpty_iff.1 none
          obtain ⟨fields, spells, added⟩ := ih left (length_rest_lt line) h
          exact ⟨fields, .blank line read spells, added⟩
        · obtain ⟨kind, announced, h⟩ := exists_of_bind_eq_ok h
          obtain ⟨fields, lines, added⟩ := exists_lines_of_entries h
          obtain rfl : a.kind = kind := Archive.kind_of_addAll added
          exact ⟨fields, .header line read announced lines, added⟩
      · obtain ⟨words, read, h⟩ := exists_of_bind_eq_ok h
        split at h
        · cases h
        · obtain ⟨_, -, h⟩ := exists_of_bind_eq_ok h
          cases h
      · cases h
      · cases h

end Portable

/-! ## XML records -/

namespace XmlRecord

/-- Pieces up to the end of the element of a field, which leave the field as it is then. -/
inductive Content : OpenField → List UInt8 → OpenField → List UInt8 → Prop
  | ignored {f g : OpenField} {bytes left rest : List UInt8} :
    Xml.next bytes = .piece .ignored left → Content f left g rest → Content f bytes g rest
  | text {f g : OpenField} {run bytes left rest : List UInt8} {s : List Char} :
    Xml.next bytes = .piece (.text run) left → Xml.text? run = some s →
      Content { f with text := f.text ++ s } left g rest → Content f bytes g rest
  | closing {f : OpenField} {name bytes rest : List UInt8} :
    Xml.next bytes = .piece (.closing name) rest → name = Text.bytes f.element.name →
      Content f bytes f rest

/-- Pieces that hold fields, up to the end of the archive. -/
inductive Inside : List (String × Field) → List UInt8 → List UInt8 → Prop
  | ignored {fields : List (String × Field)} {bytes left rest : List UInt8} :
    Xml.next bytes = .piece .ignored left → Inside fields left rest → Inside fields bytes rest
  | element {e : Element} {tag bytes left behind rest : List UInt8} {f g : OpenField}
      {value : Field} {fields : List (String × Field)} :
    Xml.next bytes = .piece (.opening tag) left → Element.ofTag? tag = some e → e ≠ .archive →
      openField e tag = .ok f → Content f left g behind → g.field = .ok value →
        Inside fields behind rest → Inside ((g.name, value) :: fields) bytes rest
  | empty {e : Element} {tag bytes left rest : List UInt8} {f : OpenField} {value : Field}
      {fields : List (String × Field)} :
    Xml.next bytes = .piece (.empty tag) left → Element.ofTag? tag = some e → e ≠ .archive →
      openField e tag = .ok f → f.field = .ok value →
        Inside fields left rest → Inside ((f.name, value) :: fields) bytes rest
  | closing {name bytes rest : List UInt8} : Xml.next bytes = .piece (.closing name) rest →
    name = Text.bytes Element.archive.name → Inside [] bytes rest

/-- Pieces with the element of an archive. -/
inductive Outside (kind : String) : List (String × Field) → List UInt8 → List UInt8 → Prop
  | ignored {fields : List (String × Field)} {bytes left rest : List UInt8} :
    Xml.next bytes = .piece .ignored left → Outside kind fields left rest →
      Outside kind fields bytes rest
  | element {tag bytes left rest : List UInt8} {fields : List (String × Field)} :
    Xml.next bytes = .piece (.opening tag) left → Element.ofTag? tag = some .archive →
      openArchive tag = .ok (Archive.empty kind) → Inside fields left rest →
        Outside kind fields bytes rest
  | empty {tag bytes rest : List UInt8} : Xml.next bytes = .piece (.empty tag) rest →
    Element.ofTag? tag = some .archive → openArchive tag = .ok (Archive.empty kind) →
      Outside kind [] bytes rest

/-- A byte order mark, or none, and pieces with an archive. -/
def Spells (kind : String) (fields : List (String × Field)) (bytes rest : List UInt8) : Prop :=
  Outside kind fields (dropMark bytes) rest

/-- The element of a field is read up to its end. -/
theorem Content.pieces {f g : OpenField} (h : Content f bytes g rest) (ending : Ending)
    (a : Archive) : pieces ending (.inField a f) bytes =
      (closeField a g).bind fun b => XmlRecord.pieces ending (.inArchive b) rest := by
  induction h with
  | ignored found _ ih =>
      rw [pieces_of_piece found]
      exact ih
  | text found meant _ ih =>
      rw [pieces_of_piece found, onPiece, onText, meant]
      exact ih
  | @closing f name bytes rest found same =>
      rw [pieces_of_piece found, onPiece, onClosing, if_pos same]
      cases closeField a f <;> rfl

/-- A field is closed by putting its value into the archive. -/
theorem closeField_of_field {f : OpenField} {value : Field} (valued : f.field = .ok value)
    (a : Archive) : closeField a f = a.add f.name value := by
  rw [closeField, valued]
  rfl

/-- The tag of a field opens it. -/
theorem onOpening_of_ofTag? {e : Element} {tag : List UInt8} {f : OpenField}
    (named : Element.ofTag? tag = some e) (inner : e ≠ .archive) (opened : openField e tag = .ok f)
    (a : Archive) : onOpening tag (.inArchive a) = .ok (.goOn (.inField a f)) := by
  rw [onOpening, named]
  cases e with
  | archive => exact absurd rfl inner
  | scalar => simp only [opened, bind, Except.bind, pure, Except.pure]
  | list => simp only [opened, bind, Except.bind, pure, Except.pure]

/-- An empty element is a field that is opened and closed. -/
theorem onEmpty_of_ofTag? {e : Element} {tag : List UInt8} {f : OpenField}
    (named : Element.ofTag? tag = some e) (inner : e ≠ .archive) (opened : openField e tag = .ok f)
    (a : Archive) : onEmpty tag (.inArchive a) =
      (closeField a f).map fun b => .goOn (.inArchive b) := by
  rw [onEmpty, named]
  cases e with
  | archive => exact absurd rfl inner
  | scalar =>
      simp only [opened, bind, Except.bind]
      cases closeField a f <;> rfl
  | list =>
      simp only [opened, bind, Except.bind]
      cases closeField a f <;> rfl

/-- The fields of pieces are put into an archive one after another. -/
theorem Inside.pieces (h : Inside fields bytes rest) (ending : Ending) (a : Archive) :
    pieces ending (.inArchive a) bytes = (a.addAll fields).map (·, rest) := by
  induction h generalizing a with
  | ignored found _ ih =>
      rw [pieces_of_piece found]
      exact ih a
  | element found named inner opened content valued _ ih =>
      rw [pieces_of_piece found, onPiece, onOpening_of_ofTag? named inner opened]
      show XmlRecord.pieces ending (.inField a _) _ = _
      rw [content.pieces, closeField_of_field valued, Archive.addAll_cons]
      cases a.add _ _ with
      | error fault => rfl
      | ok extended => exact ih extended
  | empty found named inner opened valued _ ih =>
      rw [pieces_of_piece found, onPiece, onEmpty_of_ofTag? named inner opened,
        closeField_of_field valued, Archive.addAll_cons]
      cases a.add _ _ with
      | error fault => rfl
      | ok extended => exact ih extended
  | closing found same =>
      rw [pieces_of_piece found, onPiece, onClosing, if_pos same]
      rfl

/-- The archive of pieces is read as what comes of its fields. -/
theorem Outside.pieces (h : Outside kind fields bytes rest) (ending : Ending) :
    pieces ending .outside bytes = ((Archive.empty kind).addAll fields).map (·, rest) := by
  induction h with
  | ignored found _ ih =>
      rw [pieces_of_piece found]
      exact ih
  | element found named opened inside =>
      rw [pieces_of_piece found, onPiece, onOpening, named]
      simp only [opened, bind, Except.bind]
      exact inside.pieces ending (Archive.empty kind)
  | empty found named opened =>
      rw [pieces_of_piece found, onPiece, onEmpty, named]
      simp only [opened, bind, Except.bind]
      rfl

/-- A record is read as what comes of its fields. -/
theorem decode_of_spells (spells : Spells kind fields bytes rest) (ending : Ending) :
    decode ⟨bytes, ending⟩ = ((Archive.empty kind).addAll fields).map (·, rest) :=
  spells.pieces ending

/-- What pieces hold that lead from some point of a record to its end, and to an archive. -/
def Progress.Spells (bytes rest : List UInt8) (a : Archive) : Progress → Prop
  | outside => ∃ fields, Outside a.kind fields bytes rest ∧
      (Archive.empty a.kind).addAll fields = .ok a
  | inArchive b => ∃ fields, Inside fields bytes rest ∧ b.addAll fields = .ok a
  | inField b f => ∃ g value behind fields, Content f bytes g behind ∧ g.field = .ok value ∧
      Inside fields behind rest ∧ b.addAll ((g.name, value) :: fields) = .ok a

/-- What an opened archive holds is a kind. -/
theorem eq_empty_of_openArchive {tag : List UInt8} (opened : openArchive tag = .ok a) :
    a = Archive.empty a.kind := by
  obtain ⟨_, -, opened⟩ := exists_of_bind_eq_ok opened
  split at opened
  · cases opened
  obtain ⟨_, -, opened⟩ := exists_of_bind_eq_ok opened
  split at opened
  · cases opened
  dsimp only at opened
  split at opened
  · cases opened
  obtain ⟨_, -, opened⟩ := exists_of_bind_eq_ok opened
  split at opened
  · cases opened
    rfl
  · cases opened

/-- A field that is closed has a value, which is put into the archive. -/
theorem exists_field_of_closeField {f : OpenField} (closed : closeField a f = .ok b) :
    ∃ value, f.field = .ok value ∧ a.add f.name value = .ok b :=
  exists_of_bind_eq_ok closed

/-- A field in front of others. -/
theorem addAll_cons_of_add {x y : Archive} {name : String} {value : Field}
    (first : a.add name value = .ok x) (others : x.addAll fields = .ok y) :
    a.addAll ((name, value) :: fields) = .ok y := by
  rw [Archive.addAll_cons, first]
  exact others

/-- A tag that opens an element leads into the element. -/
theorem Progress.spells_of_opening {p further : Progress} {tag left : List UInt8}
    (found : Xml.next bytes = .piece (.opening tag) left)
    (step : onOpening tag p = .ok (.goOn further)) (behind : further.Spells left rest a) :
    p.Spells bytes rest a := by
  cases p with
  | outside =>
      obtain ⟨x, named, opened, same⟩ := exists_of_onOpening_outside step
      cases same
      obtain ⟨fields, inside, added⟩ := behind
      have same := eq_empty_of_openArchive opened
      have kind : a.kind = x.kind := Archive.kind_of_addAll added
      rw [← kind] at same
      subst same
      exact ⟨fields, .element found named opened inside, added⟩
  | inArchive b =>
      obtain ⟨e, f, named, inner, opened, same⟩ := exists_of_onOpening step
      cases same
      obtain ⟨g, value, after, fields, content, valued, inside, added⟩ := behind
      exact ⟨_, .element found named inner opened content valued inside, added⟩
  | inField b f => cases step

/-- A tag that opens an element and closes it leads on inside the archive. -/
theorem Progress.spells_of_empty {p further : Progress} {tag left : List UInt8}
    (found : Xml.next bytes = .piece (.empty tag) left)
    (step : onEmpty tag p = .ok (.goOn further)) (behind : further.Spells left rest a) :
    p.Spells bytes rest a := by
  cases p with
  | outside =>
      obtain ⟨_, -, -, same⟩ := exists_of_onEmpty_outside step
      cases same
  | inArchive b =>
      obtain ⟨e, f, c, named, inner, opened, closed, same⟩ := exists_of_onEmpty step
      cases same
      obtain ⟨value, valued, put⟩ := exists_field_of_closeField closed
      obtain ⟨fields, inside, added⟩ := behind
      exact ⟨_, .empty found named inner opened valued inside, addAll_cons_of_add put added⟩
  | inField b f => cases step

/-- A tag that closes an element leads out of a field. -/
theorem Progress.spells_of_closing {p further : Progress} {name left : List UInt8}
    (found : Xml.next bytes = .piece (.closing name) left)
    (step : onClosing name p = .ok (.goOn further)) (behind : further.Spells left rest a) :
    p.Spells bytes rest a := by
  cases p with
  | outside => cases step
  | inArchive b =>
      rw [onClosing] at step
      split at step <;> cases step
  | inField b f =>
      rw [onClosing] at step
      split at step
      swap
      · cases step
      rename_i same
      obtain ⟨c, closed, step⟩ := exists_of_bind_eq_ok step
      cases step
      obtain ⟨value, valued, put⟩ := exists_field_of_closeField closed
      obtain ⟨fields, inside, added⟩ := behind
      exact ⟨f, value, left, fields, .closing found same, valued, inside,
        addAll_cons_of_add put added⟩

/-- Text leads on inside a field. -/
theorem Progress.spells_of_text {p further : Progress} {run left : List UInt8}
    (found : Xml.next bytes = .piece (.text run) left)
    (step : onText run p = .ok (.goOn further)) (behind : further.Spells left rest a) :
    p.Spells bytes rest a := by
  cases p with
  | outside => cases step
  | inArchive b => cases step
  | inField b f =>
      rw [onText] at step
      split at step
      swap
      · cases step
      rename_i meant
      cases step
      obtain ⟨g, value, after, fields, content, valued, inside, added⟩ := behind
      exact ⟨g, value, after, fields, .text found meant content, valued, inside, added⟩

/-- What is skipped leads on where it stands. -/
theorem Progress.spells_of_ignored {p : Progress} {left : List UInt8}
    (found : Xml.next bytes = .piece .ignored left) (behind : p.Spells left rest a) :
    p.Spells bytes rest a := by
  cases p with
  | outside =>
      obtain ⟨fields, outside, added⟩ := behind
      exact ⟨fields, .ignored found outside, added⟩
  | inArchive b =>
      obtain ⟨fields, inside, added⟩ := behind
      exact ⟨fields, .ignored found inside, added⟩
  | inField b f =>
      obtain ⟨g, value, after, fields, content, valued, inside, added⟩ := behind
      exact ⟨g, value, after, fields, .ignored found content, valued, inside, added⟩

/-- A piece that completes an archive is the end of its element, or an empty one. -/
theorem Progress.spells_of_complete {p : Progress} {piece : Xml.Piece}
    (found : Xml.next bytes = .piece piece rest) (step : onPiece piece p = .ok (.complete a)) :
    p.Spells bytes rest a := by
  -- only the tag of the archive itself completes it, and it stands outside or inside
  cases piece with
  | text run =>
      rw [onPiece, onText.eq_def] at step
      split at step
      · split at step <;> cases step
      · cases step
  | opening tag =>
      cases p with
      | outside =>
          obtain ⟨_, -, -, same⟩ := exists_of_onOpening_outside step
          cases same
      | inArchive b =>
          obtain ⟨_, _, -, -, -, same⟩ := exists_of_onOpening step
          cases same
      | inField b f => cases step
  | empty tag =>
      cases p with
      | outside =>
          obtain ⟨x, named, opened, same⟩ := exists_of_onEmpty_outside step
          cases same
          have same := eq_empty_of_openArchive opened
          refine ⟨[], .empty found named (same ▸ opened), ?_⟩
          exact congrArg Except.ok same.symm
      | inArchive b =>
          obtain ⟨_, _, _, -, -, -, -, same⟩ := exists_of_onEmpty step
          cases same
      | inField b f => cases step
  | closing name =>
      rw [onPiece, onClosing.eq_def] at step
      split at step
      · cases step
      · split at step
        · rename_i same
          cases step
          exact ⟨[], .closing found same, rfl⟩
        · cases step
      · split at step
        · obtain ⟨_, -, step⟩ := exists_of_bind_eq_ok step
          cases step
        · cases step
  | characterData => cases step
  | ignored => cases step

/-- Pieces that are read hold fields, by induction on the bytes that are left. -/
theorem spells_of_pieces {p : Progress} (h : pieces ending p bytes = .ok (a, rest)) :
    p.Spells bytes rest a := by
  induction bytes using (measure List.length).wf.induction generalizing p with
  | h bytes ih =>
      obtain ⟨piece, left, found⟩ := exists_piece_of_pieces h
      rw [pieces_of_piece found] at h
      obtain ⟨outcome, step, h⟩ := exists_of_bind_eq_ok h
      cases outcome with
      | complete b =>
          cases h
          exact Progress.spells_of_complete found step
      | goOn further =>
          have behind := ih left (Xml.length_next_lt found) h
          cases piece with
          | text run => exact Progress.spells_of_text found step behind
          | opening tag => exact Progress.spells_of_opening found step behind
          | empty tag => exact Progress.spells_of_empty found step behind
          | closing name => exact Progress.spells_of_closing found step behind
          | characterData => cases step
          | ignored =>
              cases step
              exact Progress.spells_of_ignored found behind

/-- Whatever is read is a record that spells something. -/
theorem exists_spells_of_decode (h : decode ⟨bytes, ending⟩ = .ok (a, rest)) :
    ∃ fields, Spells a.kind fields bytes rest ∧ (Archive.empty a.kind).addAll fields = .ok a :=
  spells_of_pieces h

end XmlRecord

/-! ## JSON records -/

namespace JsonRecord

/-- An object with the members of a record, whose fields all have a value.  They need not have
different names. -/
def Spells (ending : Ending) (kind : String) (fields : List (String × Field))
    (bytes rest : List UInt8) : Prop :=
  ∃ members entries, (Json.value ending Json.maxLevels).scan bytes = .done (.object members) rest ∧
    checkedMembers (.object members) = .ok members ∧
    (∀ member ∈ members, memberNames.contains member.1 = true) ∧
    Json.member? members "kind" = some (.string kind) ∧ isValidName kind = true ∧
    Json.member? members "fields" = some (.object entries) ∧
    List.Forall₂ (fun entry f => entry.1 = f.1 ∧ field? entry.2 = some f.2) entries fields

/-- A value that is placed comes to the field that is placed. -/
theorem forall₂_place {R : Json → Field → Prop} {entries : List (String × Json)}
    {fields : List (String × Field)} {name : String} {value : Json} {f : Field}
    (h : List.Forall₂ (fun entry f => entry.1 = f.1 ∧ R entry.2 f.2) entries fields)
    (same : R value f) :
    List.Forall₂ (fun entry f => entry.1 = f.1 ∧ R entry.2 f.2)
      (place name value entries) (place name f fields) := by
  induction h with
  | nil => exact .cons ⟨rfl, same⟩ .nil
  | @cons entry field entries fields first others ih =>
      obtain ⟨names, values⟩ := first
      rw [place, place, ← names]
      split
      · exact .cons ⟨rfl, same⟩ (.cons ⟨names, values⟩ others)
      split
      · exact .cons ⟨rfl, same⟩ others
      · exact .cons ⟨names, values⟩ ih

/-- Values with a field each are read as these fields, placed under their names. -/
theorem fields?_of_forall₂ {entries : List (String × Json)}
    (h : List.Forall₂ (fun entry f => entry.1 = f.1 ∧ field? entry.2 = some f.2) entries fields) :
    fields? entries =
      some (fields.foldl (fun others entry => place entry.1 entry.2 others) []) := by
  have placed : ∀ {before : List (String × Json)} {others : List (String × Field)},
      List.Forall₂ (fun entry f => entry.1 = f.1 ∧ field? entry.2 = some f.2) before others →
        List.Forall₂ (fun entry f => entry.1 = f.1 ∧ field? entry.2 = some f.2)
          (entries.foldl (fun others entry => place entry.1 entry.2 others) before)
          (fields.foldl (fun others entry => place entry.1 entry.2 others) others) := by
    induction h with
    | nil => exact id
    | cons first _ ih =>
        intro before others h
        rw [List.foldl_cons, List.foldl_cons, first.1]
        exact ih (forall₂_place (R := fun value f => field? value = some f) h first.2)
  have all : ∀ {entries : List (String × Json)} {fields : List (String × Field)},
      List.Forall₂ (fun entry f => entry.1 = f.1 ∧ field? entry.2 = some f.2) entries fields →
        (entries.mapM fun entry => (field? entry.2).map fun field => (entry.1, field)) =
          some fields := by
    intro entries fields h
    induction h with
    | nil => rfl
    | cons first _ ih =>
        obtain ⟨names, values⟩ := first
        rw [List.mapM_cons, values, ih, names]
        rfl
  exact all (placed .nil)

/-- A record is read as what comes of the fields that are left when all have been placed. -/
theorem decode_of_spells (spells : Spells ending kind fields bytes rest) :
    decode ⟨bytes, ending⟩ =
      ((Archive.empty kind).addAll (Archive.ofList kind fields).fields).map (·, rest) := by
  obtain ⟨members, entries, scanned, checked, known, named, valid, held, values⟩ := spells
  have body : body? members = some (kind, (Archive.ofList kind fields).fields) := by
    rw [Archive.ofList_eq, Archive.fields_putAll]
    simp only [body?, named, held, fields?_of_forall₂ values]
    rw [if_neg (by simpa using known)]
    rfl
  rw [decode, scanned]
  simp only [ofJson, checked, bind, Except.bind, body]
  rw [if_neg (by simp [valid])]
  cases result : (Archive.empty kind).addAll (Archive.ofList kind fields).fields <;>
    (rw [Archive.addAll] at result; simp only [result]; rfl)

end JsonRecord

/-! ## Records -/

namespace Record

/-- The bytes of a record that spells a kind and fields, in front of others. -/
def Spells (format : Format) (settings : Settings) (ending : Ending) (kind : String)
    (fields : List (String × Field)) (bytes rest : List UInt8) : Prop :=
  match format with
  | .binary => Binary.Spells settings kind fields bytes rest
  | .portable => Portable.Spells ending kind fields bytes rest
  | .json => JsonRecord.Spells ending kind fields bytes rest
  | .xml => XmlRecord.Spells kind fields bytes rest

variable {format : Format}

/-- A record of a format that is read from the front to the end is read as what comes of its
fields. -/
theorem decode_of_spells (front : format ≠ .json)
    (spells : Spells format settings ending kind fields bytes rest) :
    decode format settings ⟨bytes, ending⟩ =
      ((Archive.empty kind).addAll fields).map (·, rest) := by
  cases format with
  | binary => exact Binary.decode_of_spells spells ending
  | portable => exact Portable.decode_of_spells spells
  | json => exact absurd rfl front
  | xml => exact XmlRecord.decode_of_spells spells ending

/-- Whatever is read in such a format is a record that spells something. -/
theorem exists_spells_of_decode (front : format ≠ .json)
    (h : decode format settings ⟨bytes, ending⟩ = .ok (a, rest)) :
    ∃ fields, Spells format settings ending a.kind fields bytes rest ∧
      (Archive.empty a.kind).addAll fields = .ok a := by
  cases format with
  | binary => exact Binary.exists_spells_of_decode h
  | portable => exact Portable.exists_spells_of_decode h
  | json => exact absurd rfl front
  | xml => exact XmlRecord.exists_spells_of_decode h

end Record

end SparseTensor
