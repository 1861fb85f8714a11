/-
# The grammar of portable records

A record is made of lines, and a line of words with white space around and between them.  The
relations say how words stand in a text, numbers in words, fields in lines and lines in a record,
and know nothing of reading: `Portable.IsRecord` relates a kind and fields to the bytes that spell
them, and to the bytes that are left behind the line of the terminator.

A reader accepts exactly what the grammar derives, if the names are different
(`Portable.accepts_grammar`).  Each part of the reader is held against its relation first, from the
words of a text (`Text.words_eq_iff`) up to the record.
-/
import Mathlib.Data.List.TakeWhile
import SparseTensor.Proofs.Joints
import SparseTensor.Proofs.RepeatedNames

namespace SparseTensor

/-! ## Words in a text -/

namespace Text

/-- Words stand in a text: each behind any white space, and in front of white space or the end. -/
inductive Spaced : List (List Char) → List Char → Prop
  | nil {gap : List Char} : (∀ c ∈ gap, isBlank c = true) → Spaced [] gap
  | cons {gap word s : List Char} {words : List (List Char)} : (∀ c ∈ gap, isBlank c = true) →
    word ≠ [] → (∀ c ∈ word, isBlank c = false) → s.head?.all isBlank = true → Spaced words s →
      Spaced (word :: words) (gap ++ (word ++ s))

variable {s : List Char} {ws : List (List Char)}

/-- The words that stand in a text are its words. -/
theorem Spaced.words_eq (h : Spaced ws s) : words s = ws := by
  induction h with
  | @nil gap blank =>
      have none := words_blanks_append blank []
      rwa [List.append_nil] at none
  | @cons gap word s ws blank ne solid parted _ ih =>
      rw [words_blanks_append blank, words_append (.inr parted), words_of_solid solid, if_neg ne,
        ih]
      rfl

/-- The words of a text stand in it, by induction on what is behind the first one. -/
theorem spaced_words (s : List Char) : Spaced (words s) s := by
  induction s using (measure List.length).wf.induction with
  | h s ih =>
      let gap := s.takeWhile isBlank
      let t := s.dropWhile isBlank
      have blank : ∀ c ∈ gap, isBlank c = true := List.all_eq_true.1 List.all_takeWhile
      have split : gap ++ t = s := List.takeWhile_append_dropWhile
      cases found : t with
      | nil =>
          rw [found, List.append_nil] at split
          have none : words s = [] := (Spaced.nil (split ▸ blank)).words_eq
          rw [none]
          exact .nil (split ▸ blank)
      | cons c t' =>
          obtain ⟨run, back, same, solid, parted⟩ := exists_first_run t
          have first : isBlank c = false := by
            have stops := List.head?_dropWhile_not isBlank s
            rw [show s.dropWhile isBlank = c :: t' from found] at stops
            simpa using stops
          have ne : run ≠ [] := by
            rintro rfl
            rw [List.nil_append] at same
            rw [← same, found] at parted
            rw [show (c :: t').head?.all isBlank = isBlank c from rfl, first] at parted
            cases parted
          have shorter : back.length < s.length := by
            have := List.length_pos_iff.2 ne
            rw [← split, same, List.length_append, List.length_append]
            omega
          have spaced : Spaced (run :: words back) (gap ++ (run ++ back)) :=
            .cons blank ne solid parted (ih back shorter)
          rw [← same, split] at spaced
          rwa [spaced.words_eq]

/-- Words are the words of a text exactly if they stand in it. -/
theorem words_eq_iff : words s = ws ↔ Spaced ws s := by
  constructor
  · rintro rfl
    exact spaced_words s
  · exact Spaced.words_eq

/-- A line end is read from a text exactly where one stands in it. -/
theorem newline_mem_bytes_iff :
    Portable.newline ∈ bytes (String.ofList s) ↔ '\n' ∈ s := by
  constructor
  · intro h
    obtain ⟨c, hc, ascii, same⟩ := toUInt8_mem_of_mem_bytes h (by decide)
    have lineEnd : c = '\n' :=
      forall_ascii (P := fun c => c.toUInt8 = Portable.newline → c = '\n') (by decide) ascii same
    exact lineEnd ▸ hc
  · intro h
    obtain ⟨front, back, rfl⟩ := List.append_of_mem h
    have ending : bytes (String.ofList ['\n']) = [Portable.newline] := bytes_eq (by decide)
    rw [← List.singleton_append, bytes_ofList_append, bytes_ofList_append, ending]
    simp

end Text

namespace Portable

variable {bytes front rest : List UInt8} {words : List (List Char)} {word : List Char}
  {value : UInt64} {f : Field} {name what kind : String}

/-! ## Lines -/

/-- The bytes of a line, without its end, in which some words stand. -/
def IsLine (words : List (List Char)) (front : List UInt8) : Prop :=
  ∃ s : List Char, front = Text.bytes (String.ofList s) ∧ '\n' ∉ s ∧ Text.Spaced words s

/-- The next line goes up to the first line end. -/
theorem nextLine_eq_line_iff :
    nextLine bytes = .line front rest ↔ bytes = front ++ newline :: rest ∧ newline ∉ front := by
  constructor
  · intro h
    unfold nextLine at h
    split at h
    · rename_i b behind found
      cases h
      have stops := List.head?_dropWhile_not (decide <| · ≠ newline) bytes
      rw [found] at stops
      have last : b = newline := by simpa using stops
      rw [last] at found
      refine ⟨?_, fun inside => ?_⟩
      · rw [← found, List.takeWhile_append_dropWhile]
      · simpa using List.all_eq_true.1 List.all_takeWhile newline inside
    · split at h <;> cases h
  · rintro ⟨rfl, noEnd⟩
    exact nextLine_append_newline (fun b hb same => noEnd (same ▸ hb)) rest

/-- The last line has no line end. -/
theorem nextLine_eq_lastLine_iff :
    nextLine bytes = .lastLine front ↔ bytes = front ∧ newline ∉ front ∧ front ≠ [] := by
  constructor
  · intro h
    unfold nextLine at h
    split at h
    · cases h
    · rename_i none
      split at h
      · cases h
      · rename_i some
        cases h
        refine ⟨rfl, fun inside => ?_, fun empty => some (List.isEmpty_iff.2 empty)⟩
        simpa using List.dropWhile_eq_nil_iff.1 none newline inside
  · rintro ⟨rfl, noEnd, some⟩
    exact nextLine_of_cut noEnd some

/-- The words of a line are those that stand in its text. -/
theorem lineWords_eq_ok_iff :
    lineWords front = .ok words ↔
      ∃ s : List Char, front = Text.bytes (String.ofList s) ∧ Text.Spaced words s := by
  unfold lineWords
  constructor
  · intro h
    split at h
    · rename_i s found
      refine ⟨s.toList, ?_, Text.words_eq_iff.1 (Except.ok.inj h)⟩
      rw [String.ofList_toList, Text.bytes_of_ofBytes? found]
    · cases h
  · rintro ⟨s, rfl, spaced⟩
    rw [Text.ofBytes?_bytes]
    simp only [String.toList_ofList, spaced.words_eq]

/-- A line is what a reader finds words in, up to a line end. -/
theorem isLine_iff : IsLine words front ↔ newline ∉ front ∧ lineWords front = .ok words := by
  rw [lineWords_eq_ok_iff]
  constructor
  · rintro ⟨s, rfl, noEnd, spaced⟩
    exact ⟨fun inside => noEnd (Text.newline_mem_bytes_iff.1 inside), s, rfl, spaced⟩
  · rintro ⟨noEnd, s, rfl, spaced⟩
    exact ⟨s, rfl, fun inside => noEnd (Text.newline_mem_bytes_iff.2 inside), spaced⟩

/-- A line in front of a line end is the next line, and its words are read. -/
theorem IsLine.nextLine_append (h : IsLine words front) (rest : List UInt8) :
    nextLine (front ++ newline :: rest) = .line front rest :=
  nextLine_eq_line_iff.2 ⟨rfl, (isLine_iff.1 h).1⟩

/-- A next line with words is a line in front of a line end. -/
theorem isLine_of_nextLine (line : nextLine bytes = .line front rest)
    (read : lineWords front = .ok words) :
    bytes = front ++ newline :: rest ∧ IsLine words front := by
  obtain ⟨split, noEnd⟩ := nextLine_eq_line_iff.1 line
  exact ⟨split, isLine_iff.2 ⟨noEnd, read⟩⟩

/-! ## Numbers and fields -/

/-- A number: decimal digits, behind a plus sign or not, whose value is a 64-bit word. -/
def IsNumber (word : List Char) (value : UInt64) : Prop :=
  ∃ digits, (word = digits ∨ word = '+' :: digits) ∧ digits ≠ [] ∧
    (∀ c ∈ digits, c.isDigit = true) ∧ Nat.ofDigitChars 10 digits 0 = value.toNat

/-- A word is read as a number exactly if it is one. -/
theorem number_eq_ok_iff : number (some word) what = .ok value ↔ IsNumber word value := by
  have spelled : number (some word) what = .ok value ↔ Numeral.word64? word = some value := by
    cases read : Numeral.word64? word <;> simp [number, read]
  have signless : word = Numeral.dropSign word ∨ word = '+' :: Numeral.dropSign word := by
    unfold Numeral.dropSign
    split
    · exact .inr rfl
    · exact .inl rfl
  rw [spelled, Numeral.word64?, Option.map_eq_some_iff]
  constructor
  · rintro ⟨n, read, rfl⟩
    simp only [Numeral.parse?, Bool.or_eq_true, List.isEmpty_iff, Bool.not_eq_true'] at read
    split at read
    · cases read
    · rename_i wellFormed
      split at read
      · rename_i small
        cases read
        refine ⟨Numeral.dropSign word, signless, fun none => wellFormed (.inl none), ?_, ?_⟩
        · simpa using fun other => wellFormed (.inr other)
        · exact (UInt64.toNat_ofNat_of_lt' (Nat.lt_of_le_sub_one (by decide) small)).symm
      · cases read
  · rintro ⟨digits, spelled, some, digit, same⟩
    have dropped : Numeral.dropSign word = digits := by
      rcases spelled with rfl | rfl
      · exact Numeral.dropSign_of_isDigit digit
      · rfl
    have all : digits.all Char.isDigit = true := List.all_eq_true.2 digit
    have small : value.toNat ≤ UInt64.size - 1 := Nat.le_sub_one_of_lt value.toNat_lt
    refine ⟨value.toNat, ?_, by simp⟩
    rw [Numeral.parse?]
    simp only [dropped, all, same, if_pos small]
    rw [if_neg (by simp [some])]

/-- Words are read as numbers exactly if they are numbers. -/
theorem numbers_eq_ok_iff {values : List UInt64} :
    numbers words what = .ok values ↔ List.Forall₂ IsNumber words values := by
  induction words generalizing values with
  | nil =>
      rw [List.forall₂_nil_left_iff]
      exact ⟨fun h => (Except.ok.inj h).symm, fun h => congrArg Except.ok h.symm⟩
  | cons word words ih =>
      rw [numbers, List.mapM_cons]
      constructor
      · intro h
        obtain ⟨value, first, h⟩ := exists_of_bind_eq_ok h
        obtain ⟨others, rest, h⟩ := exists_of_bind_eq_ok h
        cases h
        exact .cons (number_eq_ok_iff.1 first) (ih.1 rest)
      · intro h
        cases h with
        | cons first rest =>
            have rest := ih.2 rest
            rw [numbers] at rest
            rw [number_eq_ok_iff.2 first, rest]
            rfl

/-- The words of a field behind its name: its type and its numbers, the count of a list before its
elements. -/
inductive IsField : List (List Char) → Field → Prop
  | scalar {word : List Char} {value : UInt64} : IsNumber word value →
    IsField [['s'], word] (.scalar value)
  | list {word : List Char} {count : UInt64} {words : List (List Char)} {values : List UInt64} :
    IsNumber word count → count.toNat = values.length → List.Forall₂ IsNumber words values →
      IsField (['l'] :: word :: words) (.list values)

/-- Words are read as a field exactly if they are one. -/
theorem field_eq_ok_iff : field name words = .ok f ↔ IsField words f := by
  constructor
  · intro h
    unfold field at h
    split at h
    · rename_i words
      obtain ⟨value, read, h⟩ := exists_of_bind_eq_ok h
      split at h
      · rename_i single
        cases h
        match words with
        | [] => cases read
        | [word] => exact .scalar (number_eq_ok_iff.1 read)
        | _ :: _ :: _ => simp at single
      · cases h
    · rename_i words
      obtain ⟨count, read, h⟩ := exists_of_bind_eq_ok h
      obtain ⟨values, others, h⟩ := exists_of_bind_eq_ok h
      split at h
      · rename_i counted
        cases h
        cases words with
        | nil => cases read
        | cons word words =>
            exact .list (number_eq_ok_iff.1 read) counted.symm (numbers_eq_ok_iff.1 others)
      · cases h
    · cases h
  · intro h
    cases h with
    | scalar read =>
        rw [field, List.head?_cons, number_eq_ok_iff.2 read]
        rfl
    | list read counted others =>
        rw [field, List.head?_cons, List.tail_cons, number_eq_ok_iff.2 read,
          numbers_eq_ok_iff.2 others]
        simp only [bind, Except.bind, if_pos counted.symm]
        rfl

/-! ## Records -/

/-- The words of a first line: the magic word, a number that is one, and a valid name. -/
inductive IsHeading : List (List Char) → String → Prop
  | words {version : List Char} {kind : String} : IsNumber version 1 → isValidName kind = true →
    IsHeading [magic, version, kind.toList] kind

/-- Words announce a kind exactly if they are a heading. -/
theorem headerKind_eq_ok_iff_isHeading : headerKind words = .ok kind ↔ IsHeading words kind := by
  constructor
  · intro h
    rw [headerKind] at h
    dsimp only at h
    by_cases starts : words.head? = some magic
    swap
    · rw [if_pos starts] at h
      cases h
    rw [if_neg (not_not.2 starts)] at h
    obtain ⟨version, read, h⟩ := exists_of_bind_eq_ok h
    by_cases large : UInt32.size ≤ version.toNat
    · rw [if_pos large] at h
      cases h
    rw [if_neg large] at h
    by_cases one : version.toNat = recordVersion.toNat
    swap
    · rw [if_pos one] at h
      cases h
    rw [if_neg (not_not.2 one)] at h
    have one : version = 1 := UInt64.toNat_inj.1 one
    rcases words with _ | ⟨first, _ | ⟨second, _ | ⟨third, _ | ⟨fourth, others⟩⟩⟩⟩
    · cases starts
    · cases read
    · cases h
    · obtain rfl : first = magic := Option.some.inj starts
      simp only [List.drop_succ_cons, List.drop_zero] at h
      split at h
      · rename_i valid
        cases h
        have header := IsHeading.words (number_eq_ok_iff.1 (one ▸ read)) valid
        rwa [String.toList_ofList] at header
      · cases h
    · cases h
  · rintro ⟨version, valid⟩
    rw [headerKind, if_neg (by simp), List.getElem?_cons_succ, List.getElem?_cons_zero,
      number_eq_ok_iff.2 version]
    simp only [bind, Except.bind, List.drop_succ_cons, List.drop_zero, String.ofList_toList]
    rw [if_neg (by decide), if_neg (by decide), if_pos valid]
    rfl

/-- Lines of fields, and the line of the terminator with what is left behind it.  At the end of the
input the line of the terminator needs no line end. -/
inductive IsBody (ending : Ending) : List (String × Field) → List UInt8 → List UInt8 → Prop
  | terminator {front rest : List UInt8} : IsLine [Portable.terminator] front →
    IsBody ending [] (front ++ newline :: rest) rest
  | atEnd {front : List UInt8} : ending = .ends → IsLine [Portable.terminator] front →
    IsBody ending [] front []
  | field {name : String} {words : List (List Char)} {f : Field} {fields : List (String × Field)}
      {front bytes rest : List UInt8} :
    IsLine (name.toList :: words) front → isValidName name = true → IsField words f →
      IsBody ending fields bytes rest →
        IsBody ending ((name, f) :: fields) (front ++ newline :: bytes) rest

/-- Any number of blank lines, a header, the fields and the terminator. -/
inductive IsRecord (ending : Ending) (kind : String) (fields : List (String × Field)) :
    List UInt8 → List UInt8 → Prop
  | blank {front bytes rest : List UInt8} : IsLine [] front →
    IsRecord ending kind fields bytes rest →
      IsRecord ending kind fields (front ++ newline :: bytes) rest
  | header {words : List (List Char)} {front bytes rest : List UInt8} : IsLine words front →
    IsHeading words kind → IsBody ending fields bytes rest →
      IsRecord ending kind fields (front ++ newline :: bytes) rest

variable {ending : Ending} {fields : List (String × Field)} {a : Archive}

/-- Lines that hold fields with valid names are the body of a record. -/
theorem lines_and_valid_iff :
    (Lines ending fields bytes rest ∧ ∀ entry ∈ fields, isValidName entry.1 = true) ↔
      IsBody ending fields bytes rest := by
  constructor
  · rintro ⟨lines, valid⟩
    induction lines with
    | terminator line read =>
        obtain ⟨rfl, isLine⟩ := isLine_of_nextLine line read
        exact .terminator isLine
    | lastTerminator ends line read =>
        obtain ⟨rfl, noEnd, -⟩ := nextLine_eq_lastLine_iff.1 line
        exact .atEnd ends (isLine_iff.2 ⟨noEnd, read⟩)
    | @field name words f fields bytes front left rest line read valued _ ih =>
        obtain ⟨first, others⟩ := List.forall_mem_cons.1 valid
        obtain ⟨rfl, isLine⟩ := isLine_of_nextLine line read
        refine .field ?_ first (field_eq_ok_iff.1 valued) (ih others)
        rwa [String.toList_ofList]
  · intro body
    induction body with
    | terminator line =>
        exact ⟨.terminator (line.nextLine_append _) (isLine_iff.1 line).2, List.forall_mem_nil _⟩
    | @atEnd front ends line =>
        obtain ⟨noEnd, read⟩ := isLine_iff.1 line
        have some : front ≠ [] := by
          rintro rfl
          cases read
        exact ⟨.lastTerminator ends (nextLine_eq_lastLine_iff.2 ⟨rfl, noEnd, some⟩) read,
          List.forall_mem_nil _⟩
    | @field name words f fields front bytes rest line valid valued _ ih =>
        refine ⟨?_, List.forall_mem_cons.2 ⟨valid, ih.2⟩⟩
        have lines : Lines ending ((String.ofList name.toList, f) :: fields) _ rest :=
          .field (line.nextLine_append bytes) (isLine_iff.1 line).2 (field_eq_ok_iff.2 valued) ih.1
        rwa [String.ofList_toList] at lines

/-- What spells a kind and fields with valid names is a record of them. -/
theorem spells_and_valid_iff :
    (Spells ending kind fields bytes rest ∧ ∀ entry ∈ fields, isValidName entry.1 = true) ↔
      IsRecord ending kind fields bytes rest := by
  constructor
  · rintro ⟨spells, valid⟩
    induction spells with
    | blank line read _ ih =>
        obtain ⟨rfl, isLine⟩ := isLine_of_nextLine line read
        exact .blank isLine ih
    | header line read announced lines =>
        obtain ⟨rfl, isLine⟩ := isLine_of_nextLine line read
        exact .header isLine (headerKind_eq_ok_iff_isHeading.1 announced)
          (lines_and_valid_iff.1 ⟨lines, valid⟩)
  · intro record
    induction record with
    | blank line _ ih =>
        exact ⟨.blank (line.nextLine_append _) (isLine_iff.1 line).2 ih.1, ih.2⟩
    | header line header body =>
        obtain ⟨lines, valid⟩ := lines_and_valid_iff.2 body
        exact ⟨.header (line.nextLine_append _) (isLine_iff.1 line).2
          (headerKind_eq_ok_iff_isHeading.2 header) lines, valid⟩

end Portable

/-! ## Fields with different names -/

/-- Fields with different names are all in the archive that they make. -/
theorem Archive.fields_ofList_perm (kind : String) {fields : List (String × Field)}
    (different : (fields.map Prod.fst).Nodup) : (ofList kind fields).fields.Perm fields := by
  rw [ofList_eq, fields_putAll]
  suffices h : ∀ before : List (String × Field),
      (∀ name ∈ fields.map Prod.fst, name ∉ before.map Prod.fst) →
        (fields.foldl (fun entries entry => place entry.1 entry.2 entries) before).Perm
          (before ++ fields) from h [] (by simp)
  induction fields with
  | nil => intro before _; simp
  | cons entry fields ih =>
      intro before new
      rw [List.map_cons, List.nodup_cons] at different
      obtain ⟨first, others⟩ := List.forall_mem_cons.1 new
      have placed := place_perm entry.2 first
      refine (ih different.2 _ fun name hname there => ?_).trans ?_
      · rcases List.mem_cons.1 ((placed.map Prod.fst).mem_iff.1 there) with rfl | there
        · exact different.1 hname
        · exact others name hname there
      · exact (placed.append_right fields).trans List.perm_middle.symm

/-- Archives of one kind with the same fields are the same, as fields are held in order. -/
theorem Archive.eq_of_fields_perm {a b : Archive} (kind : a.kind = b.kind)
    (same : a.fields.Perm b.fields) : a = b := by
  refine Archive.ext kind (same.eq_of_pairwise ?_ a.ascending b.ascending)
  intro x y _ _ less greater
  exact absurd greater (String.lt_asymm less)

namespace Portable

variable {bytes rest : List UInt8} {ending : Ending} {kind : String}
  {fields : List (String × Field)} {a : Archive}

/-- What is accepted is a record of fields with different names, and is made of them. -/
theorem exists_isRecord_of_decode (h : decode ⟨bytes, ending⟩ = .ok (a, rest)) :
    ∃ fields, IsRecord ending a.kind fields bytes rest ∧ (fields.map Prod.fst).Nodup ∧
      a = Archive.ofList a.kind fields := by
  obtain ⟨fields, spells, added⟩ := exists_spells_of_decode h
  obtain ⟨valid, different, made⟩ := Record.nodup_of_addAll added
  exact ⟨fields, spells_and_valid_iff.1 ⟨spells, valid⟩, different, made⟩

/-- A record of fields with different names is accepted. -/
theorem IsRecord.decode_eq (record : IsRecord ending kind fields bytes rest)
    (different : (fields.map Prod.fst).Nodup) :
    decode ⟨bytes, ending⟩ = .ok (Archive.ofList kind fields, rest) := by
  obtain ⟨spells, valid⟩ := spells_and_valid_iff.2 record
  rw [decode_of_spells spells, Archive.addAll_of_nodup valid (fun _ _ => rfl) different]
  rfl

end Portable

/-- A portable record is accepted exactly if the grammar derives it from fields with different
names.  It is read as the archive of its kind with exactly these fields, and what stands behind the
line of the terminator is left. -/
theorem Portable.accepts_grammar (bytes : List UInt8) (ending : Ending) :
    ((∃ a rest, decode ⟨bytes, ending⟩ = .ok (a, rest)) ↔
      ∃ kind fields rest, IsRecord ending kind fields bytes rest ∧ (fields.map Prod.fst).Nodup) ∧
    ∀ a rest, decode ⟨bytes, ending⟩ = .ok (a, rest) ↔
      ∃ fields, IsRecord ending a.kind fields bytes rest ∧ (fields.map Prod.fst).Nodup ∧
        a.fields.Perm fields := by
  refine ⟨⟨?_, ?_⟩, fun a rest => ⟨?_, ?_⟩⟩
  · rintro ⟨a, rest, h⟩
    obtain ⟨fields, record, different, -⟩ := exists_isRecord_of_decode h
    exact ⟨a.kind, fields, rest, record, different⟩
  · rintro ⟨kind, fields, rest, record, different⟩
    exact ⟨_, rest, record.decode_eq different⟩
  · intro h
    obtain ⟨fields, record, different, made⟩ := exists_isRecord_of_decode h
    refine ⟨fields, record, different, ?_⟩
    rw [made]
    exact Archive.fields_ofList_perm _ different
  · rintro ⟨fields, record, different, same⟩
    rw [record.decode_eq different]
    -- the archive of the record has the kind and the fields of `a`, in some order
    have made : Archive.ofList a.kind fields = a :=
      Archive.eq_of_fields_perm (Archive.kind_putAll _ fields)
        ((Archive.fields_ofList_perm a.kind different).trans same.symm)
    rw [made]

end SparseTensor
