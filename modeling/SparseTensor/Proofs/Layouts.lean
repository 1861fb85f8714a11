/-
# The layout of a binary record

A payload is made of integers and texts, each integer in one of its forms (`Binary.Form`): the kind,
the number of fields, and for each field its name, a tag and a number or a counted list.  A layout
says which bytes are which (`Binary.Layout`).  The counts of a layout are those of what is counted,
so a layout has no wrong ones, and no bytes besides its parts.

Every payload that is read has a layout (`Binary.exists_layout_of_spells`), and only one
(`Layout.eq_of_bytes_eq`).  The bytes by which a payload is longer than the one that is written for
its fields are those of groups that no integer needs (`Layout.length_bytes`), so the two are the
same if there are none and the fields are in order.
-/
import SparseTensor.Proofs.RepeatedNames
import SparseTensor.Proofs.Varints

namespace SparseTensor

open Reader (Groups)

namespace Binary

/-! ## Layouts -/

/-- An integer in one of its forms. -/
structure Form where
  value : UInt64
  bytes : List UInt8
  groups : Groups bytes value

/-- A text behind its length in bytes. -/
structure Sized where
  length : Form
  text : String
  counts : length.value.toNat = (Text.bytes text).length

/-- What stands behind the name of a field: one integer, or a count and that many. -/
inductive Content
  | scalar (value : Form)
  | list (count : Form) (values : List Form) (counts : count.value.toNat = values.length)

/-- A field and its name. -/
structure Entry where
  name : Sized
  content : Content

/-- A kind, a count and that many fields. -/
structure Layout where
  kind : Sized
  count : Form
  entries : List Entry
  counts : count.value.toNat = entries.length

def Sized.bytes (s : Sized) : List UInt8 :=
  s.length.bytes ++ Text.bytes s.text

def Content.bytes : Content → List UInt8
  | scalar value => scalarTag :: value.bytes
  | list count values _ => listTag :: (count.bytes ++ values.flatMap Form.bytes)

def Content.field : Content → Field
  | scalar value => .scalar value.value
  | list _ values _ => .list (values.map Form.value)

def Content.forms : Content → List Form
  | scalar value => [value]
  | list count values _ => count :: values

def Entry.bytes (e : Entry) : List UInt8 :=
  e.name.bytes ++ e.content.bytes

def Entry.field (e : Entry) : String × Field :=
  (e.name.text, e.content.field)

def Entry.forms (e : Entry) : List Form :=
  e.name.length :: e.content.forms

namespace Layout

/-- The payload. -/
def bytes (l : Layout) : List UInt8 :=
  l.kind.bytes ++ (l.count.bytes ++ l.entries.flatMap Entry.bytes)

/-- The fields, in the order in which they stand. -/
def fields (l : Layout) : List (String × Field) :=
  l.entries.map Entry.field

/-- All integers. -/
def forms (l : Layout) : List Form :=
  l.kind.length :: l.count :: l.entries.flatMap Entry.forms

/-- The payload behind a header that announces its length. -/
def record (l : Layout) : List UInt8 :=
  header l.bytes.length ++ l.bytes

end Layout

variable {bytes rest : List UInt8}

/-! ## What is read has a layout -/

/-- An integer that is read stands there in one of its forms. -/
theorem exists_form_of_varint {v : UInt64} (h : Reader.varint bytes = .ok v rest) :
    ∃ form : Form, form.value = v ∧ bytes = form.bytes ++ rest := by
  obtain ⟨taken, rfl, groups⟩ := Reader.varint_eq_ok_iff.1 h
  exact ⟨⟨v, taken, groups⟩, rfl, rfl⟩

theorem exists_form_of_count {n : Nat} (h : Reader.count bytes = .ok n rest) :
    ∃ form : Form, form.value.toNat = n ∧ bytes = form.bytes ++ rest := by
  rcases Reader.count_cases bytes with ⟨taken, left, v, rfl, groups, -, read⟩ |
    ⟨taken, left, fault, rfl, -, read⟩
  · cases read.symm.trans h
    exact ⟨⟨v, taken, groups⟩, rfl, rfl⟩
  · cases read.symm.trans h

theorem exists_sized_of_text {s : String} (h : Reader.text bytes = .ok s rest) :
    ∃ sized : Sized, sized.text = s ∧ bytes = sized.bytes ++ rest := by
  obtain ⟨n, behind, counted, sized⟩ := exists_of_bind_ok h
  obtain ⟨content, left, taken, read⟩ := exists_of_bind_ok sized
  obtain ⟨form, value, rfl⟩ := exists_form_of_count counted
  rcases Reader.take_cases n behind with ⟨front, left', rfl, length, same⟩ | ⟨-, short⟩
  swap
  · cases short.symm.trans taken
  cases same.symm.trans taken
  cases decoded : Text.ofBytes? content with
  | none =>
      rw [decoded] at read
      cases read
  | some _ =>
      rw [decoded] at read
      cases read
      obtain rfl := Text.bytes_of_ofBytes? decoded
      exact ⟨⟨form, s, value.trans length.symm⟩, rfl, by rw [Sized.bytes, List.append_assoc]⟩

/-- Integers that are read one after another stand there one after another. -/
theorem exists_forms_of_varints {n : Nat} {before values : List UInt64}
    (h : varints n before bytes = .ok values rest) :
    ∃ forms : List Form, forms.length = n ∧ values = before.reverse ++ forms.map Form.value ∧
      bytes = forms.flatMap Form.bytes ++ rest := by
  induction n generalizing before bytes with
  | zero =>
      cases h
      exact ⟨[], rfl, (List.append_nil _).symm, rfl⟩
  | succ n ih =>
      rw [varints] at h
      split at h
      swap
      · cases h
      rename_i value left first
      obtain ⟨form, rfl, rfl⟩ := exists_form_of_varint first
      obtain ⟨forms, rfl, rfl, rfl⟩ := ih h
      refine ⟨form :: forms, rfl, ?_, ?_⟩
      · rw [List.reverse_cons, List.append_assoc, List.singleton_append, List.map_cons]
      · rw [List.flatMap_cons, List.append_assoc]

theorem exists_content_of_field {name : String} {f : Field} (h : field name bytes = .ok f rest) :
    ∃ content : Content, content.field = f ∧ bytes = content.bytes ++ rest := by
  obtain ⟨tag, behind, first, tagged⟩ := exists_of_bind_ok h
  obtain rfl : bytes = tag :: behind := by
    cases bytes with
    | nil => cases first
    | cons b bytes =>
        cases first
        rfl
  split at tagged
  · rename_i scalar
    obtain ⟨v, left, read, done⟩ := exists_of_bind_ok tagged
    cases done
    obtain ⟨form, rfl, rfl⟩ := exists_form_of_varint read
    exact ⟨.scalar form, rfl, by rw [scalar, Content.bytes, List.cons_append]⟩
  · split at tagged
    swap
    · cases tagged
    rename_i list
    obtain ⟨n, middle, counted, listed⟩ := exists_of_bind_ok tagged
    obtain ⟨values, left, read, done⟩ := exists_of_bind_ok listed
    cases done
    obtain ⟨count, counts, rfl⟩ := exists_form_of_count counted
    obtain ⟨forms, length, rfl, rfl⟩ := exists_forms_of_varints read
    refine ⟨.list count forms (counts.trans length.symm), rfl, ?_⟩
    rw [list, Content.bytes, List.cons_append, List.append_assoc]

/-- Fields that bytes hold stand there one after another. -/
theorem Holds.exists_entries {fields : List (String × Field)} (h : Holds fields bytes rest) :
    ∃ entries : List Entry, entries.map Entry.field = fields ∧
      bytes = entries.flatMap Entry.bytes ++ rest := by
  induction h with
  | nothing bytes => exact ⟨[], rfl, rfl⟩
  | field named valued _ ih =>
      obtain ⟨sized, rfl, rfl⟩ := exists_sized_of_text named
      obtain ⟨content, rfl, rfl⟩ := exists_content_of_field valued
      obtain ⟨entries, rfl, rfl⟩ := ih
      refine ⟨⟨sized, content⟩ :: entries, rfl, ?_⟩
      rw [List.flatMap_cons, Entry.bytes, List.append_assoc, List.append_assoc]

/-- As many bytes write a number below that power of 256. -/
theorem ofLittleEndian_lt (bytes : List UInt8) :
    Reader.ofLittleEndian bytes < 256 ^ bytes.length := by
  induction bytes with
  | nil => exact Nat.one_pos
  | cons b bytes ih =>
      have top := b.toNat_lt
      rw [Reader.ofLittleEndian, List.length_cons, Nat.pow_succ]
      omega

/-- Bytes are written again from the number that they write. -/
theorem littleEndian_ofLittleEndian {width : Nat} (h : bytes.length = width) :
    Reader.littleEndian width (Reader.ofLittleEndian bytes) = bytes := by
  subst h
  induction bytes with
  | nil => rfl
  | cons b bytes ih =>
      have top := b.toNat_lt
      have low : (b.toNat + 256 * Reader.ofLittleEndian bytes) % 256 = b.toNat := by omega
      have high : (b.toNat + 256 * Reader.ofLittleEndian bytes) / 256 =
          Reader.ofLittleEndian bytes := by omega
      rw [List.length_cons, Reader.ofLittleEndian, Reader.littleEndian, low, high, ih, Nat.toUInt8,
        UInt8.ofNat_toNat]

/-- There is one header for each length. -/
theorem eq_header_of_payloadLength {head : List UInt8} {limit : UInt64} {n : Nat}
    (whole : head.length = headerSize) (h : payloadLength limit head = .ok n) :
    head = header n ∧ n < UInt32.size := by
  rw [payloadLength] at h
  split at h
  · cases h
  rename_i letters
  split at h
  · cases h
  rename_i version
  split at h
  · cases h
  cases h
  have size : headerSize = 10 := rfl
  have first : head.take 4 = magic := not_not.1 letters
  have second : Reader.littleEndian 2 recordVersion.toNat = (head.drop 4).take 2 := by
    rw [← not_not.1 version]
    exact littleEndian_ofLittleEndian (by simp [whole, size])
  have third : Reader.littleEndian 4 (Reader.ofLittleEndian ((head.drop 6).take 4)) =
      head.drop 6 := by
    rw [List.take_of_length_le (by simp [whole, size])]
    exact littleEndian_ofLittleEndian (by simp [whole, size])
  have split : head.drop 6 = (head.drop 4).drop 2 := by rw [List.drop_drop]
  have small := ofLittleEndian_lt ((head.drop 6).take 4)
  rw [show ((head.drop 6).take 4).length = 4 by simp [whole, size]] at small
  refine ⟨?_, small⟩
  rw [header, second, third, ← first, split, List.append_assoc, List.take_append_drop,
    List.take_append_drop]

/-- A record that spells something is a layout behind the header for it. -/
theorem exists_layout_of_spells {settings : Settings} {kind : String}
    {fields : List (String × Field)} (h : Spells settings kind fields bytes rest) :
    ∃ l : Layout, l.kind.text = kind ∧ l.fields = fields ∧ bytes = l.record ++ rest ∧
      l.bytes.length < UInt32.size ∧
      payloadLength settings.maxBytes (header l.bytes.length) = .ok l.bytes.length := by
  obtain @⟨head, payload, behind, left, _, whole, announced, named, -, counted, holds⟩ := h
  obtain ⟨rfl, small⟩ := eq_header_of_payloadLength whole announced
  obtain ⟨sized, rfl, rfl⟩ := exists_sized_of_text named
  obtain ⟨count, counts, rfl⟩ := exists_form_of_count counted
  obtain ⟨entries, rfl, rfl⟩ := holds.exists_entries
  rw [List.append_nil] at announced small ⊢
  rw [List.length_map] at counts
  refine ⟨⟨sized, count, entries, counts⟩, rfl, rfl, ?_, small, announced⟩
  rw [← List.append_assoc]
  rfl

/-! ## There is one layout -/

variable {rest' : List UInt8}

/-- Parts that stand one after another are found if each of them is. -/
theorem eq_of_flatMap_append_eq {α : Type} {write : α → List UInt8}
    (part : ∀ {x y rest rest'}, write x ++ rest = write y ++ rest' → x = y ∧ rest = rest')
    {xs ys : List α} (length : xs.length = ys.length)
    (h : xs.flatMap write ++ rest = ys.flatMap write ++ rest') : xs = ys ∧ rest = rest' := by
  induction xs generalizing ys with
  | nil =>
      obtain rfl := List.length_eq_zero_iff.1 length.symm
      exact ⟨rfl, h⟩
  | cons x xs ih =>
      cases ys with
      | nil => cases length
      | cons y ys =>
          rw [List.flatMap_cons, List.flatMap_cons, List.append_assoc, List.append_assoc] at h
          obtain ⟨rfl, behind⟩ := part h
          obtain ⟨rfl, left⟩ := ih (Nat.succ.inj length) behind
          exact ⟨rfl, left⟩

theorem Form.eq_of_append_eq {f g : Form} (h : f.bytes ++ rest = g.bytes ++ rest') :
    f = g ∧ rest = rest' := by
  -- the same bytes are read once, so the integers are one and so is what is left
  have read := f.groups.varint_append rest
  rw [h, g.groups.varint_append] at read
  cases f
  cases g
  cases read
  cases List.append_cancel_right h
  exact ⟨rfl, rfl⟩

theorem Sized.eq_of_append_eq {s t : Sized} (h : s.bytes ++ rest = t.bytes ++ rest') :
    s = t ∧ rest = rest' := by
  obtain ⟨length, text, counts⟩ := s
  obtain ⟨length', text', counts'⟩ := t
  rw [Sized.bytes, Sized.bytes, List.append_assoc, List.append_assoc] at h
  obtain ⟨rfl, behind⟩ := Form.eq_of_append_eq h
  obtain ⟨same, left⟩ := List.append_inj behind (counts.symm.trans counts')
  obtain rfl : text = text' := by
    have read := congrArg Text.ofBytes? same
    simpa only [Text.ofBytes?_bytes, Option.some.injEq] using read
  exact ⟨rfl, left⟩

theorem Content.eq_of_append_eq {c d : Content} (h : c.bytes ++ rest = d.bytes ++ rest') :
    c = d ∧ rest = rest' := by
  cases c with
  | scalar value =>
      cases d with
      | scalar value' =>
          obtain ⟨rfl, left⟩ := Form.eq_of_append_eq (List.cons.inj h).2
          exact ⟨rfl, left⟩
      | list => exact absurd (List.cons.inj h).1 (by decide)
  | list count values counts =>
      cases d with
      | scalar => exact absurd (List.cons.inj h).1 (by decide)
      | list count' values' counts' =>
          rw [Content.bytes, Content.bytes, List.cons_append, List.cons_append, List.append_assoc,
            List.append_assoc] at h
          obtain ⟨rfl, numbers⟩ := Form.eq_of_append_eq (List.cons.inj h).2
          obtain ⟨rfl, left⟩ := eq_of_flatMap_append_eq Form.eq_of_append_eq
            (counts.symm.trans counts') numbers
          exact ⟨rfl, left⟩

theorem Entry.eq_of_append_eq {e d : Entry} (h : e.bytes ++ rest = d.bytes ++ rest') :
    e = d ∧ rest = rest' := by
  obtain ⟨name, content⟩ := e
  obtain ⟨name', content'⟩ := d
  rw [Entry.bytes, Entry.bytes, List.append_assoc, List.append_assoc] at h
  obtain ⟨rfl, behind⟩ := Sized.eq_of_append_eq h
  obtain ⟨rfl, left⟩ := Content.eq_of_append_eq behind
  exact ⟨rfl, left⟩

/-- Bytes are the payload of one layout at most. -/
theorem Layout.eq_of_bytes_eq {l m : Layout} (h : l.bytes = m.bytes) : l = m := by
  obtain ⟨kind, count, entries, counts⟩ := l
  obtain ⟨kind', count', entries', counts'⟩ := m
  obtain ⟨rfl, behind⟩ := Sized.eq_of_append_eq h
  obtain ⟨rfl, fields⟩ := Form.eq_of_append_eq behind
  rw [← List.append_nil (entries.flatMap _), ← List.append_nil (entries'.flatMap _)] at fields
  obtain ⟨rfl, -⟩ := eq_of_flatMap_append_eq Entry.eq_of_append_eq (counts.symm.trans counts')
    fields
  rfl

/-! ## Groups that are not needed -/

/-- The number of groups that an integer has and does not need. -/
def Form.excess (f : Form) : Nat :=
  f.bytes.length - (Reader.varintBytes f.value).length

/-- No form of the integer has less groups. -/
def Form.Shortest (f : Form) : Prop :=
  ∀ bytes, Groups bytes f.value → f.bytes.length ≤ bytes.length

/-- Some groups are needed, and the others are excess. -/
theorem Form.length_bytes (f : Form) :
    f.bytes.length = (Reader.varintBytes f.value).length + f.excess := by
  rw [Form.excess]
  rcases f.groups.eq_or_length_lt with same | longer
  · rw [← same]
    omega
  · omega

/-- The shortest form is the one that is written, the one without excess. -/
theorem Form.shortest_iff {f : Form} : f.Shortest ↔ f.excess = 0 := by
  have length := f.length_bytes
  constructor
  · intro shortest
    have least := shortest _ (Reader.groups_varintBytes f.value)
    omega
  · intro none bytes groups
    rcases groups.eq_or_length_lt with rfl | longer <;> omega

theorem Form.Shortest.bytes_eq {f : Form} (h : f.Shortest) :
    f.bytes = Reader.varintBytes f.value :=
  f.groups.eq_or_length_lt.resolve_right
    (Nat.not_lt.2 (h _ (Reader.groups_varintBytes f.value)))

/-- The number of groups in which some integers exceed what they need. -/
def excess (forms : List Form) : Nat :=
  (forms.map Form.excess).sum

theorem excess_eq_zero_iff {forms : List Form} :
    excess forms = 0 ↔ ∀ form ∈ forms, form.Shortest := by
  simp only [excess, List.sum_eq_zero_iff_forall_eq_nat, List.forall_mem_map, Form.shortest_iff]

theorem excess_nil : excess [] = 0 := rfl

theorem excess_cons (form : Form) (forms : List Form) :
    excess (form :: forms) = form.excess + excess forms := by
  rw [excess, List.map_cons, List.sum_cons, excess]

/-- Parts that are longer than others by an excess are so together. -/
theorem length_flatMap_eq {α β : Type} {write : α → List UInt8} {part : α → β}
    {short : β → List UInt8} {more : α → Nat}
    (each : ∀ x, (write x).length = (short (part x)).length + more x) (xs : List α) :
    (xs.flatMap write).length = ((xs.map part).flatMap short).length + (xs.map more).sum := by
  induction xs with
  | nil => rfl
  | cons x xs ih =>
      rw [List.flatMap_cons, List.length_append, each, ih, List.map_cons, List.flatMap_cons,
        List.length_append, List.map_cons, List.sum_cons]
      omega

theorem Sized.length_bytes (s : Sized) :
    s.bytes.length = (Reader.textBytes s.text).length + s.length.excess := by
  have form := s.length.length_bytes
  rw [Reader.varintBytes, s.counts] at form
  rw [Sized.bytes, Reader.textBytes, List.length_append, List.length_append, form]
  omega

theorem Content.length_bytes (c : Content) :
    c.bytes.length = (fieldBytes c.field).length + excess c.forms := by
  cases c with
  | scalar value =>
      have form := value.length_bytes
      simp only [Content.bytes, Content.field, Content.forms, fieldBytes, List.length_cons, form,
        excess_cons, excess_nil]
      omega
  | list count values counts =>
      have form := count.length_bytes
      rw [Reader.varintBytes, counts, ← List.length_map Form.value] at form
      have numbers := length_flatMap_eq Form.length_bytes values
      rw [← excess] at numbers
      simp only [Content.bytes, Content.field, Content.forms, fieldBytes, List.length_cons,
        List.length_append, form, numbers, excess_cons]
      omega

theorem Entry.length_bytes (e : Entry) :
    e.bytes.length = (entryBytes e.field).length + excess e.forms := by
  have parts : (entryBytes e.field).length =
      (Reader.textBytes e.name.text).length + (fieldBytes e.content.field).length :=
    List.length_append
  rw [Entry.bytes, List.length_append, e.name.length_bytes, e.content.length_bytes, parts,
    Entry.forms, excess_cons]
  omega

theorem excess_flatMap {α : Type} (forms : α → List Form) (xs : List α) :
    excess (xs.flatMap forms) = (xs.map fun x => excess (forms x)).sum := by
  induction xs with
  | nil => rfl
  | cons x xs ih =>
      rw [List.flatMap_cons, List.map_cons, List.sum_cons, ← ih, excess, List.map_append,
        List.sum_append, excess, excess]

/-- A payload is longer than the one that is written for its fields by the groups that its integers
do not need. -/
theorem Layout.length_bytes (l : Layout) :
    l.bytes.length = (payloadOf l.kind.text l.fields).length + excess l.forms := by
  have count := l.count.length_bytes
  rw [Reader.varintBytes, l.counts, ← List.length_map Entry.field] at count
  have fields := length_flatMap_eq Entry.length_bytes l.entries
  rw [Layout.bytes, payloadOf, Layout.forms, excess_cons, excess_cons, excess_flatMap]
  simp only [List.length_append, l.kind.length_bytes, count, fields, Layout.fields]
  omega

theorem Sized.bytes_eq {s : Sized} (shortest : s.length.Shortest) :
    s.bytes = Reader.textBytes s.text := by
  rw [Sized.bytes, shortest.bytes_eq, Reader.varintBytes, s.counts, Reader.textBytes]

theorem Content.bytes_eq {c : Content} (shortest : ∀ form ∈ c.forms, form.Shortest) :
    c.bytes = fieldBytes c.field := by
  cases c with
  | scalar value =>
      have only := shortest value List.mem_cons_self
      rw [Content.bytes, only.bytes_eq]
      rfl
  | list count values counts =>
      obtain ⟨first, others⟩ := List.forall_mem_cons.1 shortest
      have numbers : values.flatMap Form.bytes =
          (values.map Form.value).flatMap Reader.varintBytes := by
        rw [List.flatMap_map]
        exact List.flatMap_congr fun form hform => (others form hform).bytes_eq
      rw [Content.bytes, first.bytes_eq, Reader.varintBytes, counts, numbers, Content.field,
        fieldBytes, List.length_map, List.cons_append]

theorem Entry.bytes_eq {e : Entry} (shortest : ∀ form ∈ e.forms, form.Shortest) :
    e.bytes = entryBytes e.field := by
  obtain ⟨first, others⟩ := List.forall_mem_cons.1 shortest
  rw [Entry.bytes, Sized.bytes_eq first, Content.bytes_eq others]
  rfl

/-- A payload all of whose integers are as short as they can be is the one that is written for its
fields. -/
theorem Layout.bytes_eq {l : Layout} (shortest : ∀ form ∈ l.forms, form.Shortest) :
    l.bytes = payloadOf l.kind.text l.fields := by
  obtain ⟨kind, others⟩ := List.forall_mem_cons.1 shortest
  obtain ⟨count, others⟩ := List.forall_mem_cons.1 others
  have fields : l.entries.flatMap Entry.bytes = l.fields.flatMap entryBytes := by
    rw [Layout.fields, List.flatMap_map]
    exact List.flatMap_congr fun e he =>
      Entry.bytes_eq fun form hform => others form (List.mem_flatMap_of_mem he hform)
  rw [Layout.bytes, Sized.bytes_eq kind, count.bytes_eq, Reader.varintBytes, l.counts, fields,
    payloadOf, Layout.fields, List.length_map]

/-! ## Fields in order -/

/-- Bytes hold as many fields in one way. -/
theorem Holds.eq {fields others : List (String × Field)} (h : Holds fields bytes rest)
    (h' : Holds others bytes rest') (length : fields.length = others.length) :
    fields = others := by
  induction h generalizing others with
  | nothing bytes => exact (List.length_eq_zero_iff.1 length.symm).symm
  | field named valued _ ih =>
      cases h' with
      | nothing => cases length
      | field named' valued' further =>
          cases named.symm.trans named'
          cases valued.symm.trans valued'
          rw [ih further (Nat.succ.inj length)]

/-- Two rows of as many fields are not written in the same way. -/
theorem eq_of_payloadOf_eq {kind : String} {fields others : List (String × Field)}
    (short : (payloadOf kind fields).length < 2 ^ 64) (length : fields.length = others.length)
    (h : payloadOf kind fields = payloadOf kind others) : fields = others := by
  rw [payloadOf, List.length_append, List.length_append] at short
  rw [payloadOf, payloadOf, length] at h
  have same := List.append_cancel_left (List.append_cancel_left h)
  have held : Holds others (others.flatMap entryBytes) [] :=
    holds_flatMap (by rw [← same]; omega)
  rw [← same] at held
  exact (holds_flatMap (by omega)).eq held length

end Binary

/-- The fields of an archive into which some have been put are those, and what was there. -/
theorem Archive.perm_of_addAll {a b : Archive} {fields : List (String × Field)}
    (h : a.addAll fields = .ok b) : b.fields.Perm (fields ++ a.fields) := by
  induction fields generalizing a with
  | nil =>
      cases h
      exact .refl _
  | cons entry fields ih =>
      obtain ⟨extended, added, h⟩ := exists_of_addAll_cons h
      obtain ⟨-, new, rfl⟩ := add_eq_ok_iff.1 added
      have first : (a.put entry.1 entry.2).fields.Perm (entry :: a.fields) :=
        place_perm entry.2 new
      exact (ih h).trans ((first.append_left fields).trans List.perm_middle)

namespace Binary

/-- The length of a payload does not depend on the order of the fields. -/
theorem length_payloadOf_of_perm (kind : String) {fields others : List (String × Field)}
    (h : fields.Perm others) :
    (payloadOf kind fields).length = (payloadOf kind others).length := by
  rw [payloadOf, payloadOf, List.length_append, List.length_append, List.length_append,
    List.length_append, h.length_eq, (h.flatMap_right entryBytes).length_eq]

/-- Records are consumed exactly, and none is shorter than the one that is written.  A record that
is read as an archive is a header and a payload of the announced length, and there is one layout that
says what each byte of the payload is: the kind, the count and the fields are those of the archive,
in some order, and there is nothing else.  The archive can be written, what is written of it is no
longer than what was read, and it is the same bytes exactly if the fields stand in ascending order
of their names and no integer has a shorter form. -/
theorem written_record_is_shortest {settings : Settings} {ending : Ending} {a : Archive}
    (read : decode settings ⟨bytes, ending⟩ = .ok (a, rest)) :
    ∃ l : Layout, bytes = l.record ++ rest ∧ l.record.length = headerSize + l.bytes.length ∧
      payloadLength settings.maxBytes (bytes.take headerSize) = .ok l.bytes.length ∧
      (∀ m : Layout, m.bytes = l.bytes → m = l) ∧
      l.kind.text = a.kind ∧ l.fields.Perm a.fields ∧
      ∃ record, encode a = .ok record ∧ record.length ≤ headerSize + l.bytes.length ∧
        (record = l.record ↔ (l.fields.Pairwise fun x y => x.1 < y.1) ∧
          ∀ form ∈ l.forms, form.Shortest) := by
  obtain ⟨fields, spells, added⟩ := exists_spells_of_decode read
  obtain ⟨l, kind, rfl, rfl, small, announced⟩ := exists_layout_of_spells spells
  have order : a.fields.Perm l.fields := by
    have perm := Archive.perm_of_addAll added
    rwa [Archive.empty, List.append_nil] at perm
  have whole : l.record.length = headerSize + l.bytes.length := by
    rw [Layout.record, List.length_append, length_header]
  have front : (l.record ++ rest).take headerSize = header l.bytes.length := by
    rw [Layout.record, List.append_assoc, List.take_left' (length_header _)]
  -- the length of what is written is that of the payload without the excess of its integers
  have written : payload a = payloadOf a.kind a.fields := payload_eq a
  have length : l.bytes.length = (payload a).length + excess l.forms := by
    rw [l.length_bytes, kind, written, length_payloadOf_of_perm a.kind order]
  have encoded : encode a = .ok (header (payload a).length ++ payload a) := by
    rw [encode, if_pos (by omega)]
  refine ⟨l, rfl, whole, front ▸ announced, fun m => Layout.eq_of_bytes_eq, kind, order.symm, _,
    encoded, ?_, ?_, ?_⟩
  · rw [List.length_append, length_header]
    omega
  · -- records of one length have no excess, and the bytes tell the order of the fields
    intro same
    obtain ⟨-, body⟩ := List.append_inj same (by rw [length_header, length_header])
    have shortest : ∀ form ∈ l.forms, form.Shortest := by
      rw [body] at length
      exact excess_eq_zero_iff.1 (by omega)
    refine ⟨?_, shortest⟩
    have size : UInt32.size = 2 ^ 32 := rfl
    have equal : a.fields = l.fields := by
      rw [Layout.bytes_eq shortest, written, kind] at body
      exact eq_of_payloadOf_eq (by rw [← written]; omega) order.length_eq body
    rw [← equal]
    exact a.ascending
  · rintro ⟨ascending, shortest⟩
    have equal : a.fields = l.fields :=
      order.eq_of_pairwise (fun x y _ _ below above => absurd above (String.lt_asymm below))
        a.ascending ascending
    have body : payload a = l.bytes := by
      rw [Layout.bytes_eq shortest, written, kind, equal]
    rw [body]
    rfl

/-- A record with its fields in the other order, and a group in the value of one of them that is not
needed. -/
theorem longer_record_is_read :
    let data : List UInt8 := [0x53, 0x44, 0x52, 0x42, 1, 0, 14, 0, 0, 0,
      1, 0x4B, 2, 1, 0x62, 0, 0x85, 0, 1, 0x61, 1, 2, 7, 9]
    let a := Archive.ofList "K" [("a", .list [7, 9]), ("b", .scalar 5)]
    decode .compact ⟨data ++ [42], .ends⟩ = .ok (a, [42]) ∧
      ∃ record, encode a = .ok record ∧ record.length ≤ data.length := by
  intro data a
  have read : decode .compact ⟨data ++ [42], .ends⟩ = .ok (a, [42]) := by decide +kernel
  obtain ⟨l, whole, length, -, -, -, -, record, encoded, short, -⟩ :=
    written_record_is_shortest read
  have same := List.append_cancel_right whole
  rw [← length, ← same] at short
  exact ⟨read, record, encoded, short⟩

end Binary

end SparseTensor
