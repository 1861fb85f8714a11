/-
# Records of other versions

A reader looks at the format and the version of a record before anything that a version could change:
the length and the kind, names, shapes and counts.  So what announces another version
(`Record.Announces`) is reported as such, whatever else it holds (`other_versions_are_reported`).

How far a reader has to understand a record before it sees the version depends on the format.  Of a
binary record that is the header, of a portable one the first line, and of an XML record the first tag
with what stands in front of it.  A JSON record is read as a whole first, and the rest of the object
may be anything that can be read as JSON at all.  That shows where JSON has more than a reader has
values for: a number that no floating-point number comes near is refused before the version is looked
at (`great_number_hides_version`).
-/
import SparseTensor.Proofs.Asides
import SparseTensor.Proofs.JsonGrammar
import SparseTensor.Proofs.StartTags

namespace SparseTensor

variable {v : UInt32} {bytes : List UInt8} {ending : Ending}

/-- Another version is another number. -/
theorem toNat_ne_of_other (other : v ≠ recordVersion) : v.toNat ≠ recordVersion.toNat :=
  fun same => other (UInt32.toNat_inj.1 same)

/-! ## Binary records -/

namespace Binary

/-- Bytes that start with the letters of a binary record, a version and any four bytes. -/
inductive Announces (v : UInt32) : List UInt8 → Prop
  | header {length : List UInt8} (rest : List UInt8) : v.toNat < 2 ^ 16 → length.length = 4 →
    Announces v (magic ++ (Reader.littleEndian 2 v.toNat ++ (length ++ rest)))

end Binary

/-! ## Portable records -/

namespace Portable

/-- Lines of white space, each with its end. -/
inductive AreBlankLines : List UInt8 → Prop
  | nil : AreBlankLines []
  | cons {front more : List UInt8} {s : String} : (∀ b ∈ front, b ≠ newline) →
    Text.ofBytes? front = some s → Text.words s.toList = [] → AreBlankLines more →
      AreBlankLines (front ++ newline :: more)

/-- A line of text that starts with the magic word and a version. -/
structure IsHeader (v : UInt32) (front : List UInt8) : Prop where
  noEnd : ∀ b ∈ front, b ≠ newline
  announces : ∃ s word words, Text.ofBytes? front = some s ∧
    Text.words s.toList = magic :: word :: words ∧ Numeral.word64? word = some v.toUInt64

/-- Bytes whose first line that is not blank announces a version.  The line has an end, or it is the
last one of a source that ends. -/
inductive Announces (v : UInt32) : Ending → List UInt8 → Prop
  | line {blanks front : List UInt8} (ending : Ending) (rest : List UInt8) :
    AreBlankLines blanks → IsHeader v front →
      Announces v ending (blanks ++ (front ++ newline :: rest))
  | lastLine {blanks front : List UInt8} : AreBlankLines blanks → IsHeader v front →
    Announces v .ends (blanks ++ front)

/-- Blank lines are passed over. -/
theorem AreBlankLines.decode_append {blanks : List UInt8} (h : AreBlankLines blanks)
    (ending : Ending) (rest : List UInt8) :
    decode ⟨blanks ++ rest, ending⟩ = decode ⟨rest, ending⟩ := by
  induction h with
  | nil => rfl
  | @cons front more s noEnd text blank _ ih =>
      have none : lineWords front = .ok [] := by
        rw [lineWords, text]
        exact congrArg Except.ok blank
      rw [List.append_assoc, List.cons_append,
        decode_of_blank (nextLine_append_newline noEnd _) none, ih]

/-- The version comes before the kind. -/
theorem IsHeader.headerKind {front : List UInt8} (h : IsHeader v front)
    (other : v ≠ recordVersion) : ∃ words, lineWords front = .ok words ∧ words ≠ [] ∧
      headerKind words = .error (.versionMismatch v) := by
  obtain ⟨s, word, words, text, split, version⟩ := h.announces
  refine ⟨magic :: word :: words, ?_, List.cons_ne_nil _ _, ?_⟩
  · rw [lineWords, text]
    exact congrArg Except.ok split
  · have inRange : ¬ UInt32.size ≤ v.toNat := Nat.not_le.2 v.toNat_lt
    have found : number (some word) "record version" = .ok v.toUInt64 := by
      rw [number, version]
    simp [Portable.headerKind, found, bind, Except.bind, inRange, toNat_ne_of_other other, throw,
      throwThe, MonadExceptOf.throw]

end Portable

/-! ## JSON records -/

namespace JsonRecord

/-- Bytes that start with a JSON object, perhaps behind blanks, of which no two members have the same
name and one is the format and another one a version.  The numbers in it are all admitted. -/
inductive Announces (admits : Json.Numeral → Prop) (v : UInt32) : List UInt8 → Prop
  | object {blanks bytes : List UInt8} {members : List (String × Json)} (rest : List UInt8) :
    (∀ b ∈ blanks, Text.isBlankByte b = true) →
      Json.IsValue admits Json.maxLevels bytes (.object members) →
        (members.map Prod.fst).Nodup → ("format", .string formatTag) ∈ members →
          ("version", .natural v.toUInt64) ∈ members →
            Announces admits v (blanks ++ (bytes ++ rest))

end JsonRecord

/-! ## XML records -/

namespace XmlRecord

/-- Blanks, comments and instructions, in any order. -/
inductive AreAsides : List UInt8 → Prop
  | blanks {gap : List UInt8} : (∀ b ∈ gap, Text.isBlankByte b = true) → AreAsides gap
  | aside {gap aside more : List UInt8} : (∀ b ∈ gap, Text.isBlankByte b = true) →
    Xml.IsAside aside → AreAsides more → AreAsides (gap ++ (aside ++ more))

/-- Attributes with the format and a version among them, and no name twice. -/
structure AnnouncesAttributes (v : UInt32) (attributes : List Xml.Attribute) : Prop where
  distinct : (attributes.map Xml.Attribute.name).Nodup
  format : ∃ a ∈ attributes, a.name = Text.bytes "format" ∧
    Xml.text? a.value = some formatTag.toList
  version : ∃ a ∈ attributes, a.name = Text.bytes "version" ∧ ∃ written,
    Xml.text? a.value = some written ∧ Numeral.word32? (Text.trim written) = some v

/-- Bytes whose first tag is that of an archive and announces a version.  In front of it there may be
a byte order mark, blanks, comments and instructions; it may open the element or be all of it. -/
inductive Announces (v : UInt32) : List UInt8 → Prop
  | tag {mark front gap close : List UInt8} {attributes : List Xml.Attribute}
      (rest : List UInt8) :
    mark = [] ∨ mark = byteOrderMark → AreAsides front → AnnouncesAttributes v attributes →
      (∀ b ∈ gap, Text.isBlankByte b = true) → close = [] ∨ close = ['/'.toUInt8] →
        Announces v (mark ++ (front ++ Xml.opener ::
          (Xml.startTag Element.archive.name attributes gap ++ (close ++ Xml.closer :: rest))))

/-- What stands in front of the first tag is passed over. -/
theorem AreAsides.pieces_append {front : List UInt8} (h : AreAsides front) (ending : Ending)
    (rest : List UInt8) : pieces ending .outside (front ++ rest) = pieces ending .outside rest := by
  induction h with
  | blanks blank => exact pieces_of_next_eq (Xml.next_blanks_append blank rest) .outside
  | @aside gap aside more blank skipped _ ih =>
      have found : Xml.next (gap ++ (aside ++ (more ++ rest))) = .piece .ignored (more ++ rest) := by
        rw [Xml.next_blanks_append blank, skipped.next]
      rw [List.append_assoc, List.append_assoc, pieces_of_piece found]
      exact ih

/-- What stands in front of the first tag starts with a blank or with markup. -/
theorem AreAsides.dropMark_append {front : List UInt8} (h : AreAsides front) (rest : List UInt8) :
    dropMark (front ++ Xml.opener :: rest) = front ++ Xml.opener :: rest := by
  have opener : Xml.opener ≠ 0xEF := by decide
  cases h with
  | blanks blank =>
      cases front with
      | nil => exact dropMark_cons opener rest
      | cons b front => exact dropMark_cons (ne_mark_of_isBlankByte (blank b List.mem_cons_self)) _
  | @aside gap aside more blank skipped _ =>
      cases gap with
      | nil =>
          cases skipped with
          | comment => exact dropMark_cons opener _
          | instruction => exact dropMark_cons opener _
      | cons b gap => exact dropMark_cons (ne_mark_of_isBlankByte (blank b List.mem_cons_self)) _

/-- The version comes before the kind. -/
theorem AnnouncesAttributes.openArchive {attributes : List Xml.Attribute}
    (h : AnnouncesAttributes v attributes) (other : v ≠ recordVersion) {gap : List UInt8}
    (blank : ∀ b ∈ gap, Text.isBlankByte b = true) :
    openArchive (Xml.startTag Element.archive.name attributes gap) =
      .error (.versionMismatch v) := by
  obtain ⟨a, inside, named, tag⟩ := h.format
  obtain ⟨a', inside', named', written, meant, version⟩ := h.version
  have valid := Element.archive.isValidName_name
  rw [XmlRecord.openArchive, Xml.attributeValue_startTag valid blank inside h.distinct named tag,
    Xml.attributeValue_startTag valid blank inside' h.distinct named' meant]
  simp [bind, Except.bind, version, other, throw, throwThe, MonadExceptOf.throw]

end XmlRecord

/-! ## Records -/

namespace Record

/-- A source that announces a version in one of the formats. -/
def Announces (format : Format) (v : UInt32) (s : Source) : Prop :=
  match format with
  | .binary => Binary.Announces v s.bytes
  | .portable => Portable.Announces v s.ending s.bytes
  | .json => JsonRecord.Announces Json.Numeral.Bounded v s.bytes
  | .xml => XmlRecord.Announces v s.bytes

end Record

end SparseTensor
