/-
# XML records are read back

A record is taken piece by piece: the declaration, the tag that opens the archive, and for each
field its tag, its numbers and its closing tag.  The line breaks between them are blanks that no
piece holds (`next_opening`, `next_closing`), so whether there are any makes no difference.

Any text can be a value of an attribute, so the kind and the names are found whatever they are, and
it is left to the archive to refuse them.  `pieces_fieldBytes` is what reading one field does,
`pieces_flatMap_eq_ok_iff` when reading all of them succeeds.
-/
import SparseTensor.Proofs.Extending
import SparseTensor.Proofs.XmlElements

namespace SparseTensor.XmlRecord

open Xml (ascii tagBytes)

/-! ## Pieces of a record -/

/-- A piece is dealt with, and then what stands behind it. -/
theorem pieces_of_piece {ending : Ending} {p : Progress} {bytes rest : List UInt8}
    {piece : Xml.Piece} (found : Xml.next bytes = .piece piece rest) :
    pieces ending p bytes = (onPiece piece p).bind fun
      | .goOn further => pieces ending further rest
      | .complete a => .ok (a, rest) := by
  rw [pieces.eq_def]
  split
  · rename_i other
    cases found.symm.trans other
    rfl
  · rename_i other
    cases found.symm.trans other
  · rename_i other
    cases found.symm.trans other
  · rename_i other
    cases found.symm.trans other
  · rename_i other
    cases found.symm.trans other
  · rename_i other _
    exact (other _ _ found).elim

/-- The declaration in front of a record is passed over, and so are blanks in front of it. -/
theorem next_declaration {blanks : List UInt8} (blank : ∀ b ∈ blanks, Text.isBlankByte b = true)
    (rest : List UInt8) :
    Xml.next (blanks ++ (ascii declarationText ++ rest)) = .piece .ignored rest := by
  rw [Xml.next, List.dropWhile_append_of_pos blank]
  rfl

/-- The bytes of the byte order mark. -/
theorem byteOrderMark_eq : byteOrderMark = [0xEF, 0xBB, 0xBF] := by decide +kernel

/-- No byte order mark starts with another byte than its own first one. -/
theorem dropMark_cons {b : UInt8} (other : b ≠ 0xEF) (more : List UInt8) :
    dropMark (b :: more) = b :: more := by
  rw [dropMark, if_neg]
  rw [byteOrderMark_eq, List.isPrefixOf, beq_eq_false_iff_ne.2 (Ne.symm other), Bool.false_and]
  exact Bool.false_ne_true

/-- A byte order mark does not start with a blank. -/
theorem ne_mark_of_isBlankByte {b : UInt8} (blank : Text.isBlankByte b = true) : b ≠ 0xEF := by
  rintro rfl
  exact absurd blank (by decide)

/-- No byte order mark stands in front of a declaration, nor in front of blanks. -/
theorem dropMark_declaration {blanks : List UInt8}
    (blank : ∀ b ∈ blanks, Text.isBlankByte b = true) (rest : List UInt8) :
    dropMark (blanks ++ (ascii declarationText ++ rest)) =
      blanks ++ (ascii declarationText ++ rest) := by
  cases blanks with
  | nil => rfl
  | cons b blanks => exact dropMark_cons (ne_mark_of_isBlankByte (blank b List.mem_cons_self)) _

/-- A written tag names its element. -/
theorem ofTag?_tagBytes (e : Element) (attributes : List (String × List Char)) :
    Element.ofTag? (tagBytes e.name attributes) = some e := by
  rw [Element.ofTag?, Xml.tagName_tagBytes e.isValidName_name]
  cases e <;> decide

/-! ## What tags come to -/

section

variable {a : Archive} {tag : List UInt8} {outcome : Outcome}

/-- In front of everything else a tag can only open an archive. -/
theorem exists_of_onOpening_outside (step : onOpening tag .outside = .ok outcome) :
    ∃ x, Element.ofTag? tag = some .archive ∧ openArchive tag = .ok x ∧
      outcome = .goOn (.inArchive x) := by
  rw [onOpening] at step
  split at step
  · rename_i named
    obtain ⟨x, opened, step⟩ := exists_of_bind_eq_ok step
    cases step
    exact ⟨x, named, opened, rfl⟩
  · cases step

/-- In front of everything else an empty element can only be an archive. -/
theorem exists_of_onEmpty_outside (step : onEmpty tag .outside = .ok outcome) :
    ∃ x, Element.ofTag? tag = some .archive ∧ openArchive tag = .ok x ∧ outcome = .complete x := by
  rw [onEmpty] at step
  split at step
  · rename_i named
    obtain ⟨x, opened, step⟩ := exists_of_bind_eq_ok step
    cases step
    exact ⟨x, named, opened, rfl⟩
  · cases step
  · cases step

/-- Inside an archive a tag can only open a field. -/
theorem exists_of_onOpening (step : onOpening tag (.inArchive a) = .ok outcome) :
    ∃ e f, Element.ofTag? tag = some e ∧ e ≠ .archive ∧ openField e tag = .ok f ∧
      outcome = .goOn (.inField a f) := by
  rw [onOpening] at step
  split at step
  · rename_i named
    obtain ⟨f, opened, step⟩ := exists_of_bind_eq_ok step
    cases step
    exact ⟨.scalar, f, named, by decide, opened, rfl⟩
  · rename_i named
    obtain ⟨f, opened, step⟩ := exists_of_bind_eq_ok step
    cases step
    exact ⟨.list, f, named, by decide, opened, rfl⟩
  · cases step

/-- Inside an archive an empty element can only be a field. -/
theorem exists_of_onEmpty (step : onEmpty tag (.inArchive a) = .ok outcome) :
    ∃ e f c, Element.ofTag? tag = some e ∧ e ≠ .archive ∧ openField e tag = .ok f ∧
      closeField a f = .ok c ∧ outcome = .goOn (.inArchive c) := by
  rw [onEmpty] at step
  split at step
  · rename_i named
    obtain ⟨f, opened, step⟩ := exists_of_bind_eq_ok step
    obtain ⟨c, closed, step⟩ := exists_of_bind_eq_ok step
    cases step
    exact ⟨.scalar, f, c, named, by decide, opened, closed, rfl⟩
  · rename_i named
    obtain ⟨f, opened, step⟩ := exists_of_bind_eq_ok step
    obtain ⟨c, closed, step⟩ := exists_of_bind_eq_ok step
    cases step
    exact ⟨.list, f, c, named, by decide, opened, closed, rfl⟩
  · cases step

end

/-! ## Elements of a record -/

/-- A written tag opens an archive, if the kind is valid. -/
theorem openArchive_tagBytes (kind : String) :
    openArchive (tagBytes Element.archive.name (archiveAttributes kind)) =
      if isValidName kind then .ok (Archive.empty kind)
      else .error (.corrupt (.invalidKind kind)) := by
  have value : ∀ {wanted text}, (archiveAttributes kind).lookup wanted = some text →
      Xml.attributeValue (tagBytes Element.archive.name (archiveAttributes kind)) wanted =
        .ok text :=
    fun found => Xml.attributeValue_tagBytes (Element.isValidName_name .archive)
      (isValidName_of_mem_archiveAttributes kind) found
  have format : (archiveAttributes kind).lookup "format" = some formatTag.toList := rfl
  have version : (archiveAttributes kind).lookup "version" =
      some (Numeral.render recordVersion.toNat) := rfl
  have name : (archiveAttributes kind).lookup "kind" = some kind.toList := rfl
  simp only [openArchive, value format, value version, value name, bind, Except.bind,
    Text.trim_eq (Text.plain_render _).isBlank, Numeral.word32?_render, String.ofList_toList]
  simp [pure, Except.pure, throw, throwThe, MonadExceptOf.throw]

/-- A field whose element has just been opened. -/
def opened (name : String) : Field → OpenField
  | .scalar _ => ⟨name, none, []⟩
  | .list values => ⟨name, some values.length.toUInt64, []⟩

/-- The attributes of a written field are found. -/
theorem attributeValue_fieldAttributes {name wanted : String} {f : Field} {text : List Char}
    (found : (fieldAttributes name f).lookup wanted = some text) :
    Xml.attributeValue (tagBytes (fieldElement f).name (fieldAttributes name f)) wanted =
      .ok text :=
  Xml.attributeValue_tagBytes (fieldElement f).isValidName_name
    (isValidName_of_mem_fieldAttributes name f) found

/-- The name of a written field is found. -/
theorem lookup_name (name : String) (f : Field) :
    (fieldAttributes name f).lookup "name" = some name.toList := by
  cases f <;> rfl

/-- A written tag opens a field. -/
theorem openField_tagBytes (name : String) {f : Field} (short : f.numbers.length < 2 ^ 64) :
    openField (fieldElement f) (tagBytes (fieldElement f).name (fieldAttributes name f)) =
      .ok (opened name f) := by
  have named := attributeValue_fieldAttributes (lookup_name name f)
  cases f with
  | scalar v =>
      simp only [openField, named, bind, Except.bind, String.ofList_toList]
      rfl
  | list values =>
      have count := @attributeValue_fieldAttributes name "count" (.list values) _ rfl
      have read := Text.word64?_render_of_lt short
      simp only [Field.numbers] at read
      simp only [openField, named, count, bind, Except.bind, String.ofList_toList,
        Text.trim_eq (Text.plain_render values.length).isBlank, read]
      rfl

/-- A tag cannot announce a list that is too long to be counted. -/
theorem openField_of_long (name : String) {f : Field} (long : ¬ f.numbers.length < 2 ^ 64) :
    ∃ fault, openField (fieldElement f)
      (tagBytes (fieldElement f).name (fieldAttributes name f)) = .error fault := by
  have named := attributeValue_fieldAttributes (lookup_name name f)
  cases f with
  | scalar v => exact absurd (show 1 < 2 ^ 64 by decide) long
  | list values =>
      have count := @attributeValue_fieldAttributes name "count" (.list values) _ rfl
      have read := Text.word64?_render_of_le (Nat.not_lt.1 long)
      simp only [Field.numbers] at read
      refine ⟨.corrupt (.invalidXmlCount (String.ofList (Numeral.render values.length)) name), ?_⟩
      simp only [openField, named, count, bind, Except.bind, String.ofList_toList,
        Text.trim_eq (Text.plain_render values.length).isBlank, read]
      rfl

/-- A written number is read back. -/
theorem number_render (name : String) (v : UInt64) :
    number name (Numeral.render v.toNat) = .ok v := by
  rw [number, Numeral.word64?_render]

/-- Written numbers are read back. -/
theorem mapM_number (name : String) (values : List UInt64) :
    (values.map fun v => Numeral.render v.toNat).mapM (number name) = .ok values := by
  induction values with
  | nil => rfl
  | cons v values ih =>
      rw [List.map_cons, List.mapM_cons, ih, number_render]
      rfl

/-- A field holds the numbers that were written. -/
theorem field_numbersText (name : String) {f : Field} (short : f.numbers.length < 2 ^ 64) :
    OpenField.field { opened name f with text := numbersText f.numbers } = .ok f := by
  cases f with
  | scalar v =>
      have text : numbersText [v] = Numeral.render v.toNat := List.intercalate_singleton
      simp only [OpenField.field, opened, Field.numbers, text,
        Text.trim_eq (Text.plain_render _).isBlank, number_render]
      rfl
  | list values =>
      have words := Text.words_intercalate
        (fun w hw => (@plain_of_mem_render values w hw).nonempty)
        fun w hw => (plain_of_mem_render w hw).isBlank
      have same : values.length.toUInt64.toNat = values.length :=
        UInt64.toNat_ofNat_of_lt' short
      simp only [OpenField.field, opened, Field.numbers, numbersText, words, mapM_number, same, bind,
        Except.bind, if_pos]
      rfl

/-! ## Fields are read back -/

variable {ending : Ending} {a : Archive} {pretty : Bool} {name : String} {f : Field}

/-- A closing tag in front of other bytes. -/
theorem closingBytes_append (e : Element) (rest : List UInt8) :
    closingBytes e ++ rest =
      Xml.opener :: ('/'.toUInt8 :: Text.bytes e.name ++ Xml.closer :: rest) := by
  simp [closingBytes]

/-- A field is put into the archive where its element is closed. -/
theorem pieces_closingBytes (current : OpenField) {blanks : List UInt8}
    (blank : ∀ b ∈ blanks, Text.isBlankByte b = true) (rest : List UInt8) :
    pieces ending (.inField a current) (blanks ++ (closingBytes current.element ++ rest)) =
      (closeField a current).bind fun extended => pieces ending (.inArchive extended) rest := by
  have found := Xml.next_closing blank current.element.isValidName_name rest
  rw [closingBytes_append, pieces_of_piece found]
  rw [onPiece, onClosing, if_pos rfl]
  cases closeField a current <;> rfl

/-- The text of a field with numbers starts and ends with digits. -/
theorem isBlankByte_of_ends {values : List UInt64} {b : UInt8}
    (h : (ascii (numbersText values)).head? = some b ∨
      (ascii (numbersText values)).getLast? = some b) : Text.isBlankByte b = false := by
  rw [ascii, List.head?_map, List.getLast?_map, Option.map_eq_some_iff, Option.map_eq_some_iff]
    at h
  obtain ⟨c, found, rfl⟩ | ⟨c, found, rfl⟩ := h
  · exact Text.isBlankByte_of_isPlainByte
      (Text.isPlainByte_toUInt8 (isPlain_of_ends (.inl found)))
  · exact Text.isBlankByte_of_isPlainByte
      (Text.isPlainByte_toUInt8 (isPlain_of_ends (.inr found)))

/-- Numbers are read as the text that was written. -/
theorem text?_numbersText (values : List UInt64) :
    Xml.text? (ascii (numbersText values)) = some (numbersText values) := by
  have plain := mem_numbersText values
  have same : Xml.escape (numbersText values) = numbersText values :=
    Xml.escape_eq fun c hc => Text.forall_ascii
      (P := fun c => c = ' ' ∨ Text.isPlain c = true → Xml.escapedChar c = [c]) (by decide)
      (ascii_numbersText values c hc) (plain c hc)
  have read := Xml.text?_valueBytes (numbersText values)
  rwa [Xml.valueBytes, same, Text.bytes_ofList (ascii_numbersText values)] at read

/-- Numbers are a piece of their own in front of a tag. -/
theorem next_numbersText {values : List UInt64} (ne : values ≠ []) (rest : List UInt8) :
    Xml.next (ascii (numbersText values) ++ Xml.opener :: rest) =
      .piece (.text (ascii (numbersText values))) (Xml.opener :: rest) := by
  have some : ascii (numbersText values) ≠ [] := by
    simp [ascii, numbersText_ne_nil ne]
  have text : ∀ c ∈ ascii (numbersText values), c ≠ Xml.opener := by
    refine Xml.forall_mem_ascii (Q := fun c => c = ' ' ∨ Text.isPlain c = true)
      (fun c hc => ⟨ascii_numbersText values c hc, mem_numbersText values c hc⟩) (by decide)
  have ends := @isBlankByte_of_ends values
  obtain ⟨b, bytes, same⟩ := List.exists_cons_of_ne_nil some
  rw [same] at ends text ⊢
  exact Xml.next_text (ends (.inl rfl)) (fun c hc => ends (.inr hc)) text rest

/-- The numbers of a field are put into the archive where its element is closed. -/
theorem pieces_contentText (rest : List UInt8) :
    pieces ending (.inField a (opened name f))
        (ascii (contentText pretty f) ++ (closingBytes (fieldElement f) ++ rest)) =
      (closeField a { opened name f with text := numbersText f.numbers }).bind
        fun extended => pieces ending (.inArchive extended) rest := by
  have closed := fun (text : List Char) (blanks : List UInt8) (blank) =>
    @pieces_closingBytes ending a { opened name f with text } blanks blank rest
  have element : ∀ text, OpenField.element { opened name f with text } = fieldElement f := by
    cases f <;> intro <;> rfl
  simp only [element] at closed
  cases values : f.numbers with
  | nil =>
      have start : { opened name f with text := numbersText [] } = opened name f := by
        cases f <;> rfl
      have read := closed (numbersText []) _ (@isBlankByte_of_mem_breakBytes pretty 1)
      rw [start] at read
      rw [contentText, values, start]
      exact read
  | cons v others =>
      have content : contentText pretty f = numbersText (v :: others) := by
        rw [contentText, values]
        rfl
      have read := closed (numbersText (v :: others)) [] (by simp)
      rw [List.nil_append] at read
      have front : (opened name f).text = [] := by cases f <;> rfl
      rw [content, ← read, closingBytes_append, pieces_of_piece (next_numbersText (by simp) _),
        onPiece, onText, text?_numbersText, front]
      rfl

/-- An opening tag in front of other bytes. -/
theorem openingBytes_append (e : Element) (attributes : List (String × List Char))
    (rest : List UInt8) : openingBytes e attributes ++ rest =
      Xml.opener :: (tagBytes e.name attributes ++ Xml.closer :: rest) := by
  simp [openingBytes]

/-- A field has no fewer bytes than numbers. -/
theorem length_le_fieldBytes (pretty : Bool) (name : String) (f : Field) :
    f.numbers.length ≤ (fieldBytes pretty (name, f)).length := by
  have content : f.numbers.length ≤ (contentText pretty f).length := by
    rw [contentText]
    split
    · rename_i none
      simp [List.isEmpty_iff.1 none]
    · exact length_le_numbersText _
  simp only [fieldBytes, List.length_append, ascii, List.length_map]
  omega

/-- A tag that opens a field leads into it. -/
theorem onOpening_tagBytes {opening : Except Fault OpenField}
    (h : openField (fieldElement f) (tagBytes (fieldElement f).name (fieldAttributes name f)) =
      opening) :
    onOpening (tagBytes (fieldElement f).name (fieldAttributes name f)) (.inArchive a) =
      opening.map fun current => .goOn (.inField a current) := by
  have tag := ofTag?_tagBytes (fieldElement f) (fieldAttributes name f)
  rw [onOpening, tag]
  cases f <;> · simp only [fieldElement] at h ⊢; rw [h]; cases opening <;> rfl

/-- The next piece of a written field is its tag. -/
theorem pieces_fieldBytes_eq_onOpening (rest : List UInt8) :
    pieces ending (.inArchive a) (fieldBytes pretty (name, f) ++ rest) =
      (onOpening (tagBytes (fieldElement f).name (fieldAttributes name f)) (.inArchive a)).bind
        fun
        | .goOn further => pieces ending further
            (ascii (contentText pretty f) ++ (closingBytes (fieldElement f) ++ rest))
        | .complete b => .ok (b, ascii (contentText pretty f) ++
            (closingBytes (fieldElement f) ++ rest)) := by
  have found := Xml.next_opening (@isBlankByte_of_mem_breakBytes pretty 1)
    (fieldElement f).isValidName_name (isValidName_of_mem_fieldAttributes name f)
    (by cases f <;> simp [fieldAttributes])
    (ascii (contentText pretty f) ++ (closingBytes (fieldElement f) ++ rest))
  simp only [fieldBytes, List.append_assoc]
  rw [openingBytes_append, pieces_of_piece found, onPiece]

/-- A written field is put into the archive, or refused by it. -/
theorem pieces_fieldBytes (short : f.numbers.length < 2 ^ 64) (rest : List UInt8) :
    pieces ending (.inArchive a) (fieldBytes pretty (name, f) ++ rest) =
      (a.add name f).bind fun extended => pieces ending (.inArchive extended) rest := by
  have closed : closeField a { opened name f with text := numbersText f.numbers } =
      a.add name f := by
    have named : (opened name f).name = name := by cases f <;> rfl
    rw [closeField, field_numbersText name short, named]
    rfl
  rw [pieces_fieldBytes_eq_onOpening, onOpening_tagBytes (openField_tagBytes name short)]
  show pieces ending _ _ = _
  rw [pieces_contentText, closed]

/-- A list that is too long to be counted is not read. -/
theorem pieces_fieldBytes_of_long (long : ¬ f.numbers.length < 2 ^ 64) (rest : List UInt8) :
    ∃ fault, pieces ending (.inArchive a) (fieldBytes pretty (name, f) ++ rest) =
      .error fault := by
  obtain ⟨fault, refused⟩ := openField_of_long name long
  exact ⟨fault, by rw [pieces_fieldBytes_eq_onOpening, onOpening_tagBytes refused]; rfl⟩

/-- Written fields are read up to the tag that closes the archive, if all lists can be counted and
all fields be put into the archive. -/
theorem pieces_flatMap_eq_ok_iff {b : Archive} {fields : List (String × Field)}
    {rest left : List UInt8} :
    pieces ending (.inArchive a) (fields.flatMap (fieldBytes pretty) ++
        (breakBytes pretty 0 ++ (closingBytes .archive ++ rest))) = .ok (b, left) ↔
      (∀ entry ∈ fields, entry.2.numbers.length < 2 ^ 64) ∧ a.addAll fields = .ok b ∧
        left = rest := by
  induction fields generalizing a with
  | nil =>
      have found := Xml.next_closing (@isBlankByte_of_mem_breakBytes pretty 0)
        (Element.isValidName_name .archive) rest
      rw [List.flatMap_nil, List.nil_append, closingBytes_append, pieces_of_piece found, onPiece,
        onClosing, if_pos rfl, Archive.addAll_nil]
      simp [Except.bind, eq_comm]
  | cons first fields ih =>
      obtain ⟨name, f⟩ := first
      rw [List.flatMap_cons, List.append_assoc, List.forall_mem_cons, Archive.addAll_cons]
      by_cases short : f.numbers.length < 2 ^ 64
      · rw [pieces_fieldBytes short]
        cases a.add name f with
        | error fault => simp [Except.bind]
        | ok extended => simp only [Except.bind, ih, short, true_and]
      · obtain ⟨fault, refused⟩ := @pieces_fieldBytes_of_long ending a pretty name f short
          (fields.flatMap (fieldBytes pretty) ++
            (breakBytes pretty 0 ++ (closingBytes .archive ++ rest)))
        simp only [refused, short, false_and, reduceCtorEq]

/-! ## Records are read back -/

/-- Behind any blanks an element is read as its archive, if all lists can be counted and the
archive can be read, and what stands behind it is left. -/
theorem decode_blanks_element_eq_ok_iff {settings : Settings} {blanks : List UInt8}
    (blank : ∀ b ∈ blanks, Text.isBlankByte b = true) {suffix left : List UInt8} {b : Archive} :
    decode ⟨blanks ++ (element settings a ++ suffix), ending⟩ = .ok (b, left) ↔
      a.Countable ∧ a.admitted = .ok b ∧ left = suffix := by
  have found := Xml.next_opening (@isBlankByte_of_mem_breakBytes settings.pretty 0)
    (Element.isValidName_name .archive) (isValidName_of_mem_archiveAttributes a.kind)
    (by simp [archiveAttributes])
    (a.fields.flatMap (fieldBytes settings.pretty) ++ (breakBytes settings.pretty 0 ++
      (closingBytes .archive ++ suffix)))
  have tag := ofTag?_tagBytes .archive (archiveAttributes a.kind)
  have fields := @pieces_flatMap_eq_ok_iff ending (Archive.empty a.kind) settings.pretty b a.fields
    suffix left
  simp only [element_eq, List.append_assoc]
  rw [decode, dropMark_declaration blank, pieces_of_piece (next_declaration blank _), onPiece]
  show pieces ending _ _ = _ ↔ _
  rw [openingBytes_append, pieces_of_piece found, onPiece, onOpening, tag, Archive.admitted]
  simp only [openArchive_tagBytes, bind, Except.bind, pure, Except.pure]
  by_cases kind : isValidName a.kind = true
  · simp only [if_pos kind]
    exact fields
  · simp [if_neg kind]

/-- The lists of a record of fewer than 2 ^ 64 bytes can be counted. -/
theorem countable_of_length {settings : Settings} (short : (encode settings a).length < 2 ^ 64) :
    a.Countable := by
  rintro ⟨name, f⟩ hentry
  have numbers := length_le_fieldBytes settings.pretty name f
  obtain ⟨before, after, split⟩ := List.append_of_mem hentry
  rw [encode, element_eq, split, List.flatMap_append, List.flatMap_cons] at short
  simp only [List.length_append] at short
  exact Nat.lt_of_le_of_lt numbers (by omega)

end SparseTensor.XmlRecord
