/-
# Bytes of XML records

A record is a declaration and an element, and the element of an archive holds one element for each
field.  `element_eq` says which bytes these are, piece by piece.
-/
import SparseTensor.Proofs.Extending
import SparseTensor.Proofs.XmlTags

namespace SparseTensor.XmlRecord

open Xml (ascii attributeBytes tagBytes)

/-! ## Bytes of a record -/

/-- Names of elements are valid names. -/
theorem Element.isValidName_name (e : Element) : isValidName e.name = true := by
  cases e <;> decide

/-- The bytes of an opening tag. -/
def openingBytes (e : Element) (attributes : List (String × List Char)) : List UInt8 :=
  Xml.opener :: (tagBytes e.name attributes ++ [Xml.closer])

/-- The bytes of a closing tag. -/
def closingBytes (e : Element) : List UInt8 :=
  Xml.opener :: ('/'.toUInt8 :: Text.bytes e.name ++ [Xml.closer])

/-- The bytes of a line break. -/
def breakBytes (pretty : Bool) (level : Nat) : List UInt8 :=
  ascii (lineBreak pretty level)

/-- Line breaks are ASCII. -/
theorem ascii_lineBreak (pretty : Bool) (level : Nat) :
    ∀ c ∈ lineBreak pretty level, c.toNat < 128 ∧ (c = '\n' ∨ c = ' ') := by
  intro c hc
  unfold lineBreak at hc
  split at hc
  · rcases List.mem_cons.1 hc with rfl | hc
    · decide
    · obtain ⟨-, rfl⟩ := List.mem_replicate.1 hc
      decide
  · cases hc

/-- Line breaks are blank. -/
theorem isBlankByte_of_mem_breakBytes {pretty : Bool} {level : Nat} :
    ∀ b ∈ breakBytes pretty level, Text.isBlankByte b = true := by
  intro b hb
  obtain ⟨c, hc, rfl⟩ := List.mem_map.1 hb
  rcases (ascii_lineBreak pretty level c hc).2 with rfl | rfl <;> decide

/-- The bytes of an attribute. -/
theorem bytes_attributeText (a : String × List Char) :
    Text.bytes (String.ofList (attributeText a.1 a.2)) = attributeBytes a := by
  have split : attributeText a.1 a.2 =
      [' '] ++ (a.1.toList ++ (['=', '"'] ++ (Xml.escape a.2 ++ ['"']))) := by
    simp [attributeText]
  have mark : Text.bytes (String.ofList ['"']) = ['"'.toUInt8] := Text.bytes_eq (by decide)
  rw [split, Text.bytes_ofList_append, Text.bytes_ofList_append, Text.bytes_ofList_append,
    Text.bytes_ofList_append, String.ofList_toList, mark,
    Text.bytes_ofList (Text.ascii_of_isAscii (show Text.isAscii [' '] = true by decide)),
    Text.bytes_ofList (Text.ascii_of_isAscii (show Text.isAscii ['=', '"'] = true by decide))]
  rfl

/-- The bytes of some attributes. -/
theorem bytes_attributes (attributes : List (String × List Char)) :
    Text.bytes (String.ofList (attributes.flatMap fun a => attributeText a.1 a.2)) =
      attributes.flatMap attributeBytes :=
  Text.bytes_flatMap fun a _ => bytes_attributeText a

/-- The bytes of an opening tag. -/
theorem bytes_openingTag (e : Element) (attributes : List (String × List Char)) :
    Text.bytes (String.ofList (openingTag e attributes)) = openingBytes e attributes := by
  have split : openingTag e attributes = ['<'] ++ (e.name.toList ++
      ((attributes.flatMap fun a => attributeText a.1 a.2) ++ ['>'])) := by
    simp [openingTag]
  rw [split, Text.bytes_ofList_append, Text.bytes_ofList_append, Text.bytes_ofList_append,
    String.ofList_toList, bytes_attributes, Text.bytes_ofList (Text.ascii_of_isAscii (by decide)),
    Text.bytes_ofList (Text.ascii_of_isAscii (by decide)), openingBytes, tagBytes,
    List.append_assoc]
  rfl

/-- The bytes of a closing tag. -/
theorem bytes_closingTag (e : Element) :
    Text.bytes (String.ofList (closingTag e)) = closingBytes e := by
  rw [closingTag, List.append_assoc, Text.bytes_ofList_append, Text.bytes_ofList_append,
    String.ofList_toList, Text.bytes_ofList (Text.ascii_of_isAscii (by decide)),
    Text.bytes_ofList (Text.ascii_of_isAscii (by decide))]
  rfl

/-- The element of a field. -/
def fieldElement : Field → Element
  | .scalar _ => .scalar
  | .list _ => .list

/-- The attributes of a field. -/
def fieldAttributes (name : String) : Field → List (String × List Char)
  | .scalar _ => [("name", name.toList)]
  | .list values => [("name", name.toList), ("count", Numeral.render values.length)]

/-- The text of a field: its numbers, or a line break if there are none. -/
def contentText (pretty : Bool) (f : Field) : List Char :=
  if f.numbers.isEmpty then lineBreak pretty 1 else numbersText f.numbers

/-- The bytes of a field. -/
def fieldBytes (pretty : Bool) (entry : String × Field) : List UInt8 :=
  breakBytes pretty 1 ++ (openingBytes (fieldElement entry.2) (fieldAttributes entry.1 entry.2) ++
    (ascii (contentText pretty entry.2) ++ closingBytes (fieldElement entry.2)))

/-- The attributes of a field have valid names. -/
theorem isValidName_of_mem_fieldAttributes (name : String) (f : Field) :
    ∀ a ∈ fieldAttributes name f, isValidName a.1 = true := by
  intro a ha
  cases f with
  | scalar value =>
      obtain rfl := List.mem_singleton.1 ha
      exact show isValidName "name" = true by decide
  | list values =>
      simp only [fieldAttributes, List.mem_cons, List.not_mem_nil, or_false] at ha
      rcases ha with rfl | rfl
      · exact show isValidName "name" = true by decide
      · exact show isValidName "count" = true by decide

/-- Every number is written with digits. -/
theorem plain_of_mem_render {values : List UInt64} :
    ∀ w ∈ values.map fun v => Numeral.render v.toNat, Text.Plain w := by
  intro w hw
  obtain ⟨v, -, rfl⟩ := List.mem_map.1 hw
  exact Text.plain_render v.toNat

/-- Numbers are written with digits and blanks. -/
theorem mem_numbersText (values : List UInt64) :
    ∀ c ∈ numbersText values, c = ' ' ∨ Text.isPlain c = true :=
  Text.forall_mem_intercalate (.inl rfl) fun w hw c hc =>
    .inr ((plain_of_mem_render w hw).plain c hc)

/-- Numbers start and end with digits. -/
theorem isPlain_of_ends {values : List UInt64} {c : Char}
    (h : (numbersText values).head? = some c ∨ (numbersText values).getLast? = some c) :
    Text.isPlain c = true :=
  Text.isPlain_of_ends plain_of_mem_render h

/-- Written numbers are ASCII. -/
theorem ascii_numbersText (values : List UInt64) : ∀ c ∈ numbersText values, c.toNat < 128 := by
  intro c hc
  rcases mem_numbersText values c hc with rfl | plain
  · decide
  · exact Text.toNat_lt_of_isPlain plain

/-- There are no more numbers than characters. -/
theorem length_le_numbersText (values : List UInt64) :
    values.length ≤ (numbersText values).length := by
  have := Text.length_le_intercalate fun w hw => (@plain_of_mem_render values w hw).nonempty
  rwa [List.length_map] at this

/-- Something is written for numbers. -/
theorem numbersText_ne_nil {values : List UInt64} (ne : values ≠ []) : numbersText values ≠ [] := by
  have some := List.length_pos_iff.2 ne
  have length := length_le_numbersText values
  apply List.length_pos_iff.1
  omega

/-- The text of a field is ASCII. -/
theorem ascii_contentText (pretty : Bool) (f : Field) :
    ∀ c ∈ contentText pretty f, c.toNat < 128 := by
  intro c hc
  unfold contentText at hc
  split at hc
  · exact (ascii_lineBreak pretty 1 c hc).1
  · exact ascii_numbersText _ c hc

/-- The bytes of a field. -/
theorem bytes_fieldText (pretty : Bool) (name : String) (f : Field) :
    Text.bytes (String.ofList (fieldText pretty name f)) = fieldBytes pretty (name, f) := by
  have split : fieldText pretty name f = lineBreak pretty 1 ++
      (openingTag (fieldElement f) (fieldAttributes name f) ++
        (contentText pretty f ++ closingTag (fieldElement f))) := by
    cases f with
    | scalar value =>
        simp [fieldText, fieldElement, fieldAttributes, contentText, Field.numbers, numbersText]
    | list values =>
        simp [fieldText, fieldElement, fieldAttributes, contentText, Field.numbers]
  rw [split, Text.bytes_ofList_append, Text.bytes_ofList_append, Text.bytes_ofList_append,
    Text.bytes_ofList fun c hc => (ascii_lineBreak pretty 1 c hc).1,
    bytes_openingTag, Text.bytes_ofList (ascii_contentText pretty f), bytes_closingTag]
  rfl

/-- The attributes of an archive. -/
def archiveAttributes (kind : String) : List (String × List Char) :=
  [("format", formatTag.toList), ("version", Numeral.render recordVersion.toNat),
    ("kind", kind.toList)]

/-- The attributes of an archive have valid names. -/
theorem isValidName_of_mem_archiveAttributes (kind : String) :
    ∀ a ∈ archiveAttributes kind, isValidName a.1 = true := by
  intro a ha
  simp only [archiveAttributes, List.mem_cons, List.not_mem_nil, or_false] at ha
  rcases ha with rfl | rfl | rfl
  · exact show isValidName "format" = true by decide
  · exact show isValidName "version" = true by decide
  · exact show isValidName "kind" = true by decide

/-- The bytes of the element of an archive. -/
theorem element_eq (settings : Settings) (a : Archive) :
    element settings a = ascii declarationText ++ (breakBytes settings.pretty 0 ++
      (openingBytes .archive (archiveAttributes a.kind) ++
        (a.fields.flatMap (fieldBytes settings.pretty) ++
          (breakBytes settings.pretty 0 ++ closingBytes .archive)))) := by
  have breaks := Text.bytes_ofList fun c hc => (ascii_lineBreak settings.pretty 0 c hc).1
  simp only [element, text, List.append_assoc]
  rw [Text.bytes_ofList_append, Text.bytes_ofList_append, Text.bytes_ofList_append,
    Text.bytes_ofList_append, Text.bytes_ofList_append,
    Text.bytes_flatMap fun entry _ => bytes_fieldText settings.pretty entry.1 entry.2, breaks,
    Text.bytes_ofList (Text.ascii_of_isAscii (by decide)), bytes_closingTag]
  have opening := bytes_openingTag .archive (archiveAttributes a.kind)
  rw [archiveAttributes] at opening
  rw [opening]
  rfl

end SparseTensor.XmlRecord
