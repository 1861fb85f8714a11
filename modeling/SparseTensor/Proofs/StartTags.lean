/-
# Start tags

A start tag holds attributes in any number and order, with blanks in front of each, around its equals
sign and at the end of the tag, and its values stand between marks of either kind.  A reader finds the
tag as a piece (`next_startTag`) and in it the value of every attribute (`attributeValue_startTag`),
whatever the others are, as long as no name is repeated.
-/
import SparseTensor.Proofs.XmlTags

namespace SparseTensor.Xml

/-! ## Attributes -/

/-- A byte that neither ends a tag nor stands around a value. -/
def IsQuietByte (b : UInt8) : Prop :=
  b ≠ closer ∧ ¬ IsMark b

/-- An attribute as it stands in a tag: blanks, a name, an equals sign between blanks, and a value
between two marks. -/
structure Attribute where
  gap : List UInt8
  name : List UInt8
  before : List UInt8
  after : List UInt8
  mark : UInt8
  value : List UInt8
  gap_ne_nil : gap ≠ []
  gap_blank : ∀ b ∈ gap, Text.isBlankByte b = true
  name_ne_nil : name ≠ []
  name_inside : ∀ b ∈ name, isNameByte b = true
  name_quiet : ∀ b ∈ name, IsQuietByte b
  before_blank : ∀ b ∈ before, Text.isBlankByte b = true
  after_blank : ∀ b ∈ after, Text.isBlankByte b = true
  mark_quotes : IsMark mark
  value_closed : ∀ b ∈ value, b ≠ mark

namespace Attribute

/-- The bytes of an attribute. -/
def bytes (a : Attribute) : List UInt8 :=
  a.gap ++ (a.name ++ (a.before ++ '='.toUInt8 :: (a.after ++ a.mark :: (a.value ++ [a.mark]))))

/-- The next attribute is the one that stands there. -/
theorem nextAttribute_append (a : Attribute) (rest : List UInt8) :
    nextAttribute (a.bytes ++ rest) = .pair a.name a.value rest := by
  have next := Xml.nextAttribute_append a.gap_blank a.name_ne_nil a.name_inside a.before_blank
    a.after_blank a.mark_quotes a.value_closed rest
  simpa [bytes] using next

/-- An attribute as it is written into a record. -/
def written (name : String) (valid : isValidName name = true) (value : List Char) : Attribute where
  gap := [0x20]
  name := Text.bytes name
  before := []
  after := []
  mark := '"'.toUInt8
  value := valueBytes value
  gap_ne_nil := List.cons_ne_nil _ _
  gap_blank := List.forall_mem_singleton.2 (by decide)
  name_ne_nil := (bytes_of_isValidName valid).2.1
  name_inside := fun b hb => isNameByte_of_isPlainByte ((bytes_of_isValidName valid).2.2 b hb)
  name_quiet := by
    intro b hb
    have plain := (bytes_of_isValidName valid).2.2 b hb
    constructor
    · exact Text.ne_of_isPlainByte plain (by decide)
    · rintro (rfl | rfl) <;> exact absurd plain (by decide)
  before_blank := List.forall_mem_nil _
  after_blank := List.forall_mem_nil _
  mark_quotes := .inl rfl
  value_closed := fun _ hb => ne_quote_of_mem_valueBytes hb

end Attribute

variable {attributes : List Attribute} {a : Attribute}

/-- The value of an attribute is found under its name, if no name is repeated. -/
theorem rawValue_of_mem (member : a ∈ attributes)
    (distinct : (attributes.map Attribute.name).Nodup) {name : String}
    (named : a.name = Text.bytes name) (tail : List UInt8) :
    rawValue name (attributes.flatMap Attribute.bytes ++ tail) = .ok a.value := by
  induction attributes with
  | nil => cases member
  | cons first others ih =>
      obtain ⟨fresh, distinct⟩ := List.nodup_cons.1 distinct
      rw [List.flatMap_cons, List.append_assoc, rawValue_of_pair (first.nextAttribute_append _)]
      rcases List.mem_cons.1 member with rfl | behind
      · exact if_pos named
      · rw [if_neg]
        · exact ih behind distinct
        · intro same
          exact fresh (List.mem_map.2 ⟨a, behind, named.trans same.symm⟩)

/-! ## Tags -/

/-- What stands between the brackets of a start tag: a name, attributes and perhaps blanks. -/
def startTag (name : String) (attributes : List Attribute) (gap : List UInt8) : List UInt8 :=
  Text.bytes name ++ (attributes.flatMap Attribute.bytes ++ gap)

variable {name : String} {gap : List UInt8}

/-- A blank stands behind the name of a tag, if anything does. -/
theorem isSolid_of_head?_startTag (blank : ∀ b ∈ gap, Text.isBlankByte b = true) {b : UInt8}
    (first : (attributes.flatMap Attribute.bytes ++ gap).head? = some b) : isSolid b = false := by
  have white : Text.isBlankByte b = true := by
    cases attributes with
    | nil => exact blank b (List.mem_of_mem_head? first)
    | cons a others =>
        obtain ⟨c, more, same⟩ := List.exists_cons_of_ne_nil a.gap_ne_nil
        rw [List.flatMap_cons, Attribute.bytes, same] at first
        obtain rfl := Option.some.inj first
        exact a.gap_blank c (same ▸ List.mem_cons_self)
  rw [isSolid, white]
  rfl

/-- The name and the attributes of a start tag. -/
theorem tagName_startTag (valid : isValidName name = true)
    (blank : ∀ b ∈ gap, Text.isBlankByte b = true) :
    tagName (startTag name attributes gap) = Text.bytes name ∧
      tagAttributes (startTag name attributes gap) =
        attributes.flatMap Attribute.bytes ++ gap :=
  tagName_append valid fun _ => isSolid_of_head?_startTag blank

/-- The value of an attribute of a start tag is what it stands for. -/
theorem attributeValue_startTag (valid : isValidName name = true)
    (blank : ∀ b ∈ gap, Text.isBlankByte b = true) (member : a ∈ attributes)
    (distinct : (attributes.map Attribute.name).Nodup) {wanted : String}
    (named : a.name = Text.bytes wanted) {value : List Char} (meant : text? a.value = some value) :
    attributeValue (startTag name attributes gap) wanted = .ok value := by
  rw [attributeValue, (tagName_startTag valid blank).2, rawValue_of_mem member distinct named]
  simp only [bind, Except.bind, meant]
  rfl

end SparseTensor.Xml
