/-
# Fields with one name

The fields of a record can stand in any order, and as often as one likes (`Record.spelling` writes
such a record).  Of two fields with one name a reader of binary, portable and XML records refuses the
second, as damage.  These readers accept a record exactly if the names in it are valid and all
different.  A JSON reader keeps the last field of each name (`repeated_names`).
-/
import SparseTensor.Proofs.Spellings

namespace SparseTensor

variable {kind : String} {fields : List (String × Field)} {bytes rest suffix : List UInt8}
  {settings reading : Settings} {ending : Ending} {a : Archive}

/-! ## Writing fields in a row -/

namespace Binary

/-- The payload with a kind and fields. -/
def payloadOf (kind : String) (fields : List (String × Field)) : List UInt8 :=
  Reader.textBytes kind ++ (Reader.varintGroups fields.length ++ fields.flatMap entryBytes)

/-- Written fields are held by their bytes. -/
theorem holds_flatMap (short : (fields.flatMap entryBytes).length < 2 ^ 64) :
    Holds fields (fields.flatMap entryBytes) [] := by
  induction fields with
  | nil => exact .nothing []
  | cons entry fields ih =>
      obtain ⟨name, f⟩ := entry
      rw [List.flatMap_cons, List.length_append, entryBytes, List.length_append] at short
      rw [List.flatMap_cons, entryBytes, List.append_assoc]
      exact .field (Reader.takes_text (by omega) _) (takes_field name (by omega) _) (ih (by omega))

/-- A written payload behind its header spells what it is written for. -/
theorem spells_payloadOf (valid : isValidName kind = true)
    (fits : (payloadOf kind fields).length < UInt32.size)
    (room : (payloadOf kind fields).length ≤ reading.maxBytes.toNat) (suffix : List UInt8) :
    Spells reading kind fields
      (header (payloadOf kind fields).length ++ (payloadOf kind fields ++ suffix)) suffix := by
  have size : UInt32.size = 2 ^ 32 := rfl
  have announced : payloadLength reading.maxBytes (header (payloadOf kind fields).length) =
      .ok (payloadOf kind fields).length := by
    rw [payloadLength_header fits, if_neg (Nat.not_lt.2 room)]
  have lengths := fits
  rw [payloadOf, List.length_append, List.length_append] at lengths
  have enough : fields.length ≤ (fields.flatMap entryBytes).length := by
    refine length_le_flatMap fun entry _ => ?_
    have := Reader.length_varintGroups_pos (Text.bytes entry.1).length
    simp only [entryBytes, Reader.textBytes, List.length_append]
    omega
  refine .record suffix (length_header _) announced (Reader.takes_text (by omega) _) valid
    (Reader.count_varintGroups (by omega) enough) (holds_flatMap (by omega))

end Binary

namespace Portable

/-- The lines of a kind and fields. -/
def linesOf (kind : String) (fields : List (String × Field)) : List UInt8 :=
  lineBytes [magic, Numeral.render recordVersion.toNat, kind.toList] ++
    (fields.flatMap entryBytes ++ lineBytes [terminator])

/-- Written fields are held by their lines. -/
theorem lines_flatMap (names : ∀ entry ∈ fields, isValidName entry.1 = true)
    (countable : ∀ entry ∈ fields, entry.2.numbers.length < 2 ^ 64) (suffix : List UInt8) :
    Lines ending fields (fields.flatMap entryBytes ++ (lineBytes [terminator] ++ suffix))
      suffix := by
  induction fields with
  | nil =>
      have solid : ∀ w ∈ [terminator], Solid w :=
        List.forall_mem_singleton.2 (solid_of_all (by decide))
      exact .terminator (nextLine_lineBytes solid suffix) (lineWords_frontBytes solid)
  | cons entry fields ih =>
      obtain ⟨name, f⟩ := entry
      obtain ⟨valid, others⟩ := List.forall_mem_cons.1 names
      obtain ⟨short, countable⟩ := List.forall_mem_cons.1 countable
      have some : name.toList ≠ [] := by
        intro none
        simp [isValidName, none] at valid
      have solid := solid_entry (solid_of_isValidName valid) f
      have words := lineWords_frontBytes solid
      rw [filter_entry, if_neg some] at words
      have valued : field (String.ofList name.toList) (fieldWords f) = .ok f :=
        field_fieldWords_eq_ok_iff.2 ⟨short, rfl⟩
      have line := Lines.field (nextLine_lineBytes solid _) words valued (ih others countable)
      rwa [String.ofList_toList, ← List.append_assoc, ← List.append_assoc, List.append_assoc]
        at line

/-- Written lines spell what they are written for. -/
theorem spells_linesOf (valid : isValidName kind = true)
    (names : ∀ entry ∈ fields, isValidName entry.1 = true)
    (countable : ∀ entry ∈ fields, entry.2.numbers.length < 2 ^ 64) (suffix : List UInt8) :
    Spells ending kind fields (linesOf kind fields ++ suffix) suffix := by
  have solid := solid_header (solid_of_isValidName valid)
  rw [linesOf, List.append_assoc, List.append_assoc]
  exact .header (nextLine_lineBytes solid _) (lineWords_frontBytes solid)
    (headerKind_eq_ok_iff.2 ⟨valid, rfl⟩) (lines_flatMap names countable suffix)

end Portable

namespace JsonRecord

/-- A written object spells what it is written for. -/
theorem spells_membersBytes (valid : isValidName kind = true) (pretty : Bool)
    (suffix : List UInt8) :
    Spells ending kind fields (membersBytes pretty kind fields ++ suffix) suffix := by
  have scanned := takes_members kind fields ending 124 pretty [] suffix (List.forall_mem_nil _)
  rw [List.nil_append] at scanned
  refine ⟨recordMembers kind fields, fields.map fun entry => (entry.1, fieldJson entry.2), scanned,
    ?_, ?_, ?_, valid, ?_, ?_⟩
  · simp [checkedMembers, recordMembers, Json.member?, List.lookup_cons, natural?]
  · simp [recordMembers, memberNames]
  · simp [recordMembers, Json.member?, List.lookup_cons]
  · simp [recordMembers, Json.member?]
  · rw [List.forall₂_map_left_iff]
    exact List.forall₂_same.2 fun entry _ => ⟨rfl, field?_fieldJson entry.2⟩

end JsonRecord

namespace XmlRecord

open Xml (ascii)

/-- The element of an archive with a kind and fields. -/
def elementOf (pretty : Bool) (kind : String) (fields : List (String × Field)) : List UInt8 :=
  ascii declarationText ++ (breakBytes pretty 0 ++
    (openingBytes .archive (archiveAttributes kind) ++
      (fields.flatMap (fieldBytes pretty) ++ (breakBytes pretty 0 ++ closingBytes .archive))))

/-- The text of a written field leaves its numbers in it. -/
theorem content_contentText (pretty : Bool) (name : String) (f : Field) (rest : List UInt8) :
    Content (opened name f)
      (ascii (contentText pretty f) ++ (closingBytes (fieldElement f) ++ rest))
      { opened name f with text := numbersText f.numbers } rest := by
  have element : ∀ text, OpenField.element { opened name f with text } = fieldElement f := by
    cases f <;> intro <;> rfl
  have closes : ∀ (text : List Char) {blanks : List UInt8},
      (∀ b ∈ blanks, Text.isBlankByte b = true) →
        Content { opened name f with text } (blanks ++ (closingBytes (fieldElement f) ++ rest))
          { opened name f with text } rest := by
    intro text blanks blank
    rw [closingBytes_append]
    refine .closing (Xml.next_closing blank (fieldElement f).isValidName_name rest) ?_
    rw [element]
  have start : (opened name f).text = [] := by cases f <;> rfl
  cases values : f.numbers with
  | nil =>
      have same : { opened name f with text := numbersText [] } = opened name f := by
        cases f <;> rfl
      have content := closes (numbersText []) (@isBlankByte_of_mem_breakBytes pretty 1)
      rw [same] at content ⊢
      rw [contentText, values]
      exact content
  | cons v others =>
      have content : contentText pretty f = numbersText (v :: others) := by
        rw [contentText, values]
        rfl
      have behind := closes (numbersText (v :: others)) (List.forall_mem_nil _)
      rw [List.nil_append, closingBytes_append] at behind
      rw [content, closingBytes_append]
      refine .text (next_numbersText (by simp) _) (text?_numbersText _) ?_
      rw [start]
      exact behind

/-- Written fields are held by their elements. -/
theorem inside_flatMap (countable : ∀ entry ∈ fields, entry.2.numbers.length < 2 ^ 64)
    (pretty : Bool) (suffix : List UInt8) :
    Inside fields (fields.flatMap (fieldBytes pretty) ++
      (breakBytes pretty 0 ++ (closingBytes .archive ++ suffix))) suffix := by
  induction fields with
  | nil =>
      rw [List.flatMap_nil, List.nil_append, closingBytes_append]
      exact .closing (Xml.next_closing (@isBlankByte_of_mem_breakBytes pretty 0)
        (Element.isValidName_name .archive) suffix) rfl
  | cons entry fields ih =>
      obtain ⟨name, f⟩ := entry
      obtain ⟨short, countable⟩ := List.forall_mem_cons.1 countable
      have found := Xml.next_opening (@isBlankByte_of_mem_breakBytes pretty 1)
        (fieldElement f).isValidName_name (isValidName_of_mem_fieldAttributes name f)
        (by cases f <;> simp [fieldAttributes])
      have inner : fieldElement f ≠ .archive := by cases f <;> simp [fieldElement]
      have named : ({ opened name f with text := numbersText f.numbers } : OpenField).name =
          name := by
        cases f <;> rfl
      have held := Inside.element (found _) (ofTag?_tagBytes _ _) inner
        (openField_tagBytes name short) (content_contentText pretty name f _)
        (field_numbersText name short) (ih countable)
      rw [named] at held
      simp only [List.flatMap_cons, fieldBytes, List.append_assoc]
      rw [openingBytes_append]
      exact held

/-- A written element spells what it is written for. -/
theorem spells_elementOf (valid : isValidName kind = true)
    (countable : ∀ entry ∈ fields, entry.2.numbers.length < 2 ^ 64) (pretty : Bool)
    (suffix : List UInt8) : Spells kind fields (elementOf pretty kind fields ++ suffix) suffix := by
  have found := Xml.next_opening (@isBlankByte_of_mem_breakBytes pretty 0)
    (Element.isValidName_name .archive) (isValidName_of_mem_archiveAttributes kind)
    (by simp [archiveAttributes])
  have mark := dropMark_declaration (List.forall_mem_nil _)
    (breakBytes pretty 0 ++ (openingBytes .archive (archiveAttributes kind) ++
      (fields.flatMap (fieldBytes pretty) ++
        (breakBytes pretty 0 ++ (closingBytes .archive ++ suffix)))))
  have declared := next_declaration (List.forall_mem_nil _)
    (breakBytes pretty 0 ++ (openingBytes .archive (archiveAttributes kind) ++
      (fields.flatMap (fieldBytes pretty) ++
        (breakBytes pretty 0 ++ (closingBytes .archive ++ suffix)))))
  rw [List.nil_append] at mark declared
  simp only [elementOf, List.append_assoc]
  rw [Spells, mark]
  refine .ignored declared ?_
  rw [openingBytes_append]
  refine .element (found _) (ofTag?_tagBytes _ _) ?_ (inside_flatMap countable pretty suffix)
  rw [openArchive_tagBytes, if_pos valid]

end XmlRecord

/-! ## Records with fields in a row -/

namespace Record

/-- The record of a kind and fields, in the order in which they are given and as often. -/
def spelling (format : Format) (settings : Settings) (kind : String)
    (fields : List (String × Field)) : List UInt8 :=
  match format with
  | .binary => Binary.header (Binary.payloadOf kind fields).length ++ Binary.payloadOf kind fields
  | .portable => Portable.linesOf kind fields
  | .json => JsonRecord.membersBytes settings.pretty kind fields ++ Text.bytes "\n"
  | .xml => XmlRecord.elementOf settings.pretty kind fields ++ Text.bytes "\n"

/-- The record of an archive is that of its fields. -/
theorem encode_eq_spelling {format : Format}
    (fits : format = .binary → (Binary.payload a).length < UInt32.size) (settings : Settings) :
    encode format settings a = .ok (spelling format settings a.kind a.fields) := by
  cases format with
  | binary =>
      have same : Binary.payload a = Binary.payloadOf a.kind a.fields := Binary.payload_eq a
      rw [encode, Binary.encode, if_pos (fits rfl), same]
      rfl
  | portable => exact congrArg Except.ok (Portable.encode_eq a)
  | json => rfl
  | xml =>
      rw [encode, XmlRecord.encode, XmlRecord.element_eq]
      rfl

/-- A kind and fields that a record can spell: their names are valid, their lists can be counted, and
the payload of a binary record fits. -/
structure Spellable (format : Format) (reading : Settings) (kind : String)
    (fields : List (String × Field)) : Prop where
  validKind : isValidName kind = true
  validNames : ∀ entry ∈ fields, isValidName entry.1 = true
  countable : ∀ entry ∈ fields, entry.2.numbers.length < 2 ^ 64
  fits : format = .binary → (Binary.payloadOf kind fields).length < UInt32.size ∧
    (Binary.payloadOf kind fields).length ≤ reading.maxBytes.toNat

/-- The record of a kind and fields spells them. -/
theorem spells_spelling {format : Format} (h : Spellable format reading kind fields)
    (settings : Settings) (suffix : List UInt8) (ending : Ending) :
    Spells format reading ending kind fields (spelling format settings kind fields ++ suffix)
      (unread format ++ suffix) := by
  cases format with
  | binary =>
      obtain ⟨fits, room⟩ := h.fits rfl
      rw [spelling, List.append_assoc]
      exact Binary.spells_payloadOf h.validKind fits room suffix
  | portable => exact Portable.spells_linesOf h.validKind h.validNames h.countable suffix
  | json =>
      rw [spelling, List.append_assoc]
      exact JsonRecord.spells_membersBytes h.validKind settings.pretty _
  | xml =>
      rw [spelling, List.append_assoc]
      exact XmlRecord.spells_elementOf h.validKind h.countable settings.pretty _

/-! ## Repeated names -/

/-- Fields with different names are read as the archive that they make. -/
theorem decode_of_nodup {format : Format}
    (spells : Spells format settings ending kind fields bytes rest)
    (valid : ∀ entry ∈ fields, isValidName entry.1 = true)
    (different : (fields.map Prod.fst).Nodup) (front : format ≠ .json) :
    decode format settings ⟨bytes, ending⟩ = .ok (Archive.ofList kind fields, rest) := by
  have added : (Archive.empty kind).addAll fields = .ok (Archive.ofList kind fields) :=
    Archive.addAll_of_nodup valid (fun _ _ => rfl) different
  rw [decode_of_spells front spells, added]
  rfl

/-- The fields of a JSON record are read as the archive that they make, with the last field of each
name. -/
theorem decode_json_of_spells (spells : Spells .json settings ending kind fields bytes rest)
    (valid : ∀ entry ∈ fields, isValidName entry.1 = true) :
    decode .json settings ⟨bytes, ending⟩ = .ok (Archive.ofList kind fields, rest) := by
  have kinds : (Archive.ofList kind fields).kind = kind := Archive.kind_putAll _ fields
  have names : ∀ entry ∈ (Archive.ofList kind fields).fields, isValidName entry.1 = true := by
    rw [Archive.ofList_eq, Archive.fields_putAll]
    suffices h : ∀ before : List (String × Field),
        (∀ entry ∈ before, isValidName entry.1 = true) → ∀ entry ∈ fields.foldl
          (fun entries entry => place entry.1 entry.2 entries) before,
            isValidName entry.1 = true from h [] (List.forall_mem_nil _)
    clear spells kinds
    induction fields with
    | nil => exact fun before h => h
    | cons first fields ih =>
        obtain ⟨named, others⟩ := List.forall_mem_cons.1 valid
        intro before h
        apply ih others
        intro entry hentry
        rcases mem_place hentry with rfl | hentry
        · exact named
        · exact h entry hentry
  have added := (Archive.ofList kind fields).awaits_empty.foldlM names
  rw [kinds] at added
  rw [decode, JsonRecord.decode_of_spells spells, Archive.addAll, added]
  rfl

/-- Of fields whose names repeat the first that stands behind one of its name is refused. -/
theorem decode_of_repeated {format : Format}
    (spells : Spells format settings ending kind fields bytes rest)
    (valid : ∀ entry ∈ fields, isValidName entry.1 = true)
    (repeated : ¬ (fields.map Prod.fst).Nodup) (front : format ≠ .json) :
    ∃ before name f after, fields = before ++ (name, f) :: after ∧
      (before.map Prod.fst).Nodup ∧ name ∈ before.map Prod.fst ∧
      decode format settings ⟨bytes, ending⟩ = .error (.corrupt (.repeatedField name)) := by
  obtain ⟨before, name, f, after, rfl, different, again⟩ := exists_first_repeated repeated
  refine ⟨before, name, f, after, rfl, different, again, ?_⟩
  have refused : (Archive.empty kind).addAll (before ++ (name, f) :: after) =
      .error (.corrupt (.repeatedField name)) :=
    Archive.addAll_of_repeated valid (fun _ _ => rfl) different again
  rw [decode_of_spells front spells, refused]
  rfl

/-- Fields that have been put into an archive have valid and different names, and make the
archive. -/
theorem nodup_of_addAll (h : (Archive.empty kind).addAll fields = .ok a) :
    (∀ entry ∈ fields, isValidName entry.1 = true) ∧ (fields.map Prod.fst).Nodup ∧
      a = Archive.ofList kind fields := by
  have valid := Archive.isValidName_of_addAll h
  have different : (fields.map Prod.fst).Nodup := by
    by_contra repeated
    obtain ⟨before, name, f, after, rfl, front, again⟩ := exists_first_repeated repeated
    have refused : (Archive.empty kind).addAll (before ++ (name, f) :: after) =
        .error (.corrupt (.repeatedField name)) :=
      Archive.addAll_of_repeated valid (fun _ _ => rfl) front again
    cases refused.symm.trans h
  have added : (Archive.empty kind).addAll fields = .ok (Archive.ofList kind fields) :=
    Archive.addAll_of_nodup valid (fun _ _ => rfl) different
  exact ⟨valid, different, Except.ok.inj (h.symm.trans added)⟩

/-- A record spells a kind and fields with valid names.  If the names are all different it is read as
the archive with these fields.  If they are not, it is refused as damaged in the binary, the portable
and the XML format, in the name of the first field that stands behind one of its name; a JSON record
is read as the archive that has the last field of each name.  The three formats accept only records
that spell fields with valid and different names.  And a record can spell whatever fields one likes,
in every order. -/
theorem repeated_names (format : Format) (settings : Settings) (ending : Ending) :
    (∀ kind fields bytes rest, Spells format settings ending kind fields bytes rest →
      (∀ entry ∈ fields, isValidName entry.1 = true) →
        (format = .json ∨ (fields.map Prod.fst).Nodup →
          decode format settings ⟨bytes, ending⟩ = .ok (Archive.ofList kind fields, rest)) ∧
        (format ≠ .json → ¬ (fields.map Prod.fst).Nodup →
          ∃ before name f after, fields = before ++ (name, f) :: after ∧
            (before.map Prod.fst).Nodup ∧ name ∈ before.map Prod.fst ∧
            decode format settings ⟨bytes, ending⟩ =
              .error (.corrupt (.repeatedField name)))) ∧
    (format ≠ .json → ∀ bytes a rest, decode format settings ⟨bytes, ending⟩ = .ok (a, rest) →
      ∃ fields, Spells format settings ending a.kind fields bytes rest ∧
        (∀ entry ∈ fields, isValidName entry.1 = true) ∧ (fields.map Prod.fst).Nodup ∧
        a = Archive.ofList a.kind fields) ∧
    ∀ kind fields, Spellable format settings kind fields → ∀ writing suffix,
      Spells format settings ending kind fields
        (spelling format writing kind fields ++ suffix) (unread format ++ suffix) := by
  refine ⟨fun kind fields bytes rest spells valid => ⟨?_, ?_⟩, ?_, ?_⟩
  · intro kept
    by_cases front : format = .json
    · subst front
      exact decode_json_of_spells spells valid
    · exact decode_of_nodup spells valid (kept.resolve_left front) front
  · intro front repeated
    exact decode_of_repeated spells valid repeated front
  · intro front bytes a rest decoded
    obtain ⟨fields, spells, added⟩ := exists_spells_of_decode front decoded
    exact ⟨fields, spells, nodup_of_addAll added⟩
  · intro kind fields spellable writing suffix
    exact spells_spelling spellable writing suffix ending

/-- An XML record whose last field has the name and the value of its first one. -/
theorem repeated_names_in_xml :
    decode .xml .compact ⟨spelling .xml .humanReadable "Sample"
        [("a", .scalar 1), ("b", .list [2, 3]), ("a", .scalar 1)] ++ [0x3C], .ends⟩ =
      .error (.corrupt (.repeatedField "a")) := by
  have names : ∀ entry ∈ [("a", Field.scalar 1), ("b", .list [2, 3]), ("a", .scalar 1)],
      isValidName entry.1 = true := by decide
  have spellable : Spellable .xml .compact "Sample"
      [("a", .scalar 1), ("b", .list [2, 3]), ("a", .scalar 1)] :=
    ⟨by decide, names, by decide, nofun⟩
  obtain ⟨reads, -, spells⟩ := repeated_names .xml .compact .ends
  obtain ⟨before, name, f, after, split, -, again, refused⟩ :=
    (reads _ _ _ _ (spells _ _ spellable .humanReadable [0x3C]) names).2 nofun (by decide)
  -- only the last field has a name that stands in front of it
  suffices name = "a" by rw [this] at refused; exact refused
  match before, split with
  | [], split => cases again
  | [_], split =>
      obtain ⟨rfl, rest⟩ := List.cons.inj split
      obtain rfl := (Prod.mk.inj (List.cons.inj rest).1).1
      exact absurd again (by decide)
  | _ :: _ :: [], split =>
      exact (Prod.mk.inj (List.cons.inj (List.cons.inj (List.cons.inj split).2).2).1).1.symm
  | _ :: _ :: _ :: before, split =>
      have rest := (List.cons.inj (List.cons.inj (List.cons.inj split).2).2).2
      cases before <;> cases rest

/-- A JSON record with two fields of one name is read as an archive with the second of them. -/
theorem json_keeps_last_of_repeated :
    decode .json .compact ⟨spelling .json .compact "S" [("a", .scalar 1), ("a", .scalar 2)], .ends⟩ =
      .ok (Archive.ofList "S" [("a", .scalar 2)], Text.bytes "\n") := by
  have names : ∀ entry ∈ [("a", Field.scalar 1), ("a", .scalar 2)],
      isValidName entry.1 = true := by decide
  have spellable : Spellable .json .compact "S" [("a", .scalar 1), ("a", .scalar 2)] :=
    ⟨by decide, names, by decide, nofun⟩
  have spells := spells_spelling spellable .compact [] .ends
  rw [List.append_nil, List.append_nil] at spells
  have kept : Archive.ofList "S" [("a", .scalar 1), ("a", .scalar 2)] =
      Archive.ofList "S" [("a", .scalar 2)] := by decide
  rw [decode_json_of_spells spells names, kept]
  rfl

end Record

end SparseTensor
