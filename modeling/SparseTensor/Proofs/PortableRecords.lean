/-
# Portable records are read back

The words of a line are what stands between white space, and only its end is a line end.  So a
reader finds the lines that were written and in each of them the words (`nextLine_lineBytes`,
`lineWords_frontBytes`), and puts one field after another into the archive until it comes to the
terminator.

Nothing is quoted.  A kind or a name with white space in it would be read as several words, and an
empty one as none, so all of this is about texts without white space (`Solid`).
-/
import SparseTensor.Proofs.Extending
import SparseTensor.Proofs.PlainText
import SparseTensor.Record.Portable

namespace SparseTensor.Portable

/-! ## Lines -/

/-- A text that a line holds as one word, or not at all if it is empty. -/
def Solid (w : List Char) : Prop :=
  ∀ c ∈ w, Text.isBlank c = false

/-- Written numbers are solid. -/
theorem solid_render (n : Nat) : Solid (Numeral.render n) := (Text.plain_render n).isBlank

/-- Valid names are solid. -/
theorem solid_of_isValidName {name : String} (valid : isValidName name = true) :
    Solid name.toList :=
  (Text.plain_of_isValidName valid).isBlank

/-- Whether a text is solid can be computed. -/
theorem solid_of_all {w : List Char} (h : (w.all fun c => Text.isBlank c = false) = true) :
    Solid w :=
  List.all_iff_forall_prop.1 h

/-- The bytes of a line. -/
def lineBytes (words : List (List Char)) : List UInt8 :=
  Text.bytes (String.ofList (line words))

/-- The bytes of a line in front of its end. -/
def frontBytes (words : List (List Char)) : List UInt8 :=
  Text.bytes (String.ofList ([' '].intercalate words))

variable {words : List (List Char)}

/-- A line is what stands in front of its end, and the end. -/
theorem lineBytes_eq (words : List (List Char)) : lineBytes words = frontBytes words ++ [newline] := by
  have ending : Text.bytes (String.ofList ['\n']) = [newline] := Text.bytes_eq (by decide)
  rw [lineBytes, line, Text.bytes_ofList_append, ending, frontBytes]

/-- A line has no fewer bytes than words. -/
theorem length_le_lineBytes (nonempty : ∀ w ∈ words, w ≠ []) :
    words.length ≤ (lineBytes words).length := by
  have characters := Text.length_le_intercalate nonempty
  have bytes := Text.length_le_bytes ([' '].intercalate words)
  rw [lineBytes_eq, frontBytes, List.length_append]
  omega

/-- No byte in front of the end of a line is a line end. -/
theorem ne_newline_of_mem_frontBytes (h : ∀ w ∈ words, Solid w) {b : UInt8}
    (hb : b ∈ frontBytes words) : b ≠ newline := by
  rintro rfl
  have other : ∀ c ∈ [' '].intercalate words, c ≠ '\n' :=
    Text.forall_mem_intercalate (by decide) fun w hw c hc => by
      rintro rfl
      exact absurd (h w hw _ hc) (by decide)
  obtain ⟨c, hc, ascii, same⟩ := Text.toUInt8_mem_of_mem_bytes hb (by decide)
  exact other c hc (Text.forall_ascii (P := fun c => c.toUInt8 = newline → c = '\n') (by decide)
    ascii same)

/-- The next line goes up to its end. -/
theorem nextLine_append_newline {front : List UInt8} (noEnd : ∀ b ∈ front, b ≠ newline)
    (rest : List UInt8) : nextLine (front ++ newline :: rest) = .line front rest := by
  have inside : ∀ b ∈ front, decide (b ≠ newline) = true := fun b hb =>
    decide_eq_true (noEnd b hb)
  rw [nextLine, List.dropWhile_append_of_pos inside, List.takeWhile_append_of_pos inside]
  simp

/-- The next line is the one that was written. -/
theorem nextLine_lineBytes (h : ∀ w ∈ words, Solid w) (rest : List UInt8) :
    nextLine (lineBytes words ++ rest) = .line (frontBytes words) rest := by
  rw [lineBytes_eq, List.append_assoc]
  exact nextLine_append_newline (fun b hb => ne_newline_of_mem_frontBytes h hb) rest

/-- The words of a line are those that were written and are not empty. -/
theorem lineWords_frontBytes (h : ∀ w ∈ words, Solid w) :
    lineWords (frontBytes words) = .ok (words.filter fun w => !w.isEmpty) := by
  rw [lineWords, frontBytes, Text.ofBytes?_bytes]
  simp only [String.toList_ofList]
  rw [Text.words_intercalate_eq_filter h]

/-! ## Words of a record -/

/-- A written number is read back. -/
theorem number_render {n : Nat} (h : n < 2 ^ 64) (what : String) :
    number (some (Numeral.render n)) what = .ok n.toUInt64 := by
  rw [number, Text.word64?_render_of_lt h]

/-- Written words are read back. -/
theorem numbers_render (values : List UInt64) (what : String) :
    numbers (values.map fun v => Numeral.render v.toNat) what = .ok values := by
  induction values with
  | nil => rfl
  | cons v values ih =>
      rw [numbers] at ih ⊢
      rw [List.map_cons, List.mapM_cons, ih, number_render v.toNat_lt, Nat.toUInt64,
        UInt64.ofNat_toNat]
      rfl

/-- The words of a field are plain. -/
theorem plain_of_mem_fieldWords {f : Field} {w : List Char} (hw : w ∈ fieldWords f) :
    Text.Plain w := by
  have letter : ∀ c, Text.isPlain c = true → Text.Plain [c] := fun c plain =>
    ⟨List.cons_ne_nil c [], List.forall_mem_singleton.2 plain⟩
  cases f with
  | scalar value =>
      simp only [fieldWords, List.mem_cons, List.not_mem_nil, or_false] at hw
      rcases hw with rfl | rfl
      · exact letter 's' (by decide)
      · exact Text.plain_render _
  | list values =>
      simp only [fieldWords, List.mem_cons, List.mem_map] at hw
      rcases hw with rfl | rfl | ⟨v, -, rfl⟩
      · exact letter 'l' (by decide)
      · exact Text.plain_render _
      · exact Text.plain_render _

/-- A written field is read back, if its numbers can be counted. -/
theorem field_fieldWords_eq_ok_iff {name : String} {f g : Field} :
    field name (fieldWords f) = .ok g ↔ f.numbers.length < 2 ^ 64 ∧ g = f := by
  cases f with
  | scalar value =>
      have read := number_render value.toNat_lt name
      rw [Nat.toUInt64, UInt64.ofNat_toNat] at read
      simp [fieldWords, field, read, bind, Except.bind, pure, Except.pure, Field.numbers, eq_comm]
  | list values =>
      by_cases short : values.length < 2 ^ 64
      · have count := number_render short name
        have same : values.length.toUInt64.toNat = values.length :=
          UInt64.toNat_ofNat_of_lt' short
        have written : field name (fieldWords (.list values)) = .ok (.list values) := by
          simp [fieldWords, field, count, numbers_render, same, bind, Except.bind, pure,
            Except.pure]
        rw [written]
        exact ⟨fun h => ⟨short, (Except.ok.inj h).symm⟩, fun h => by rw [h.2]⟩
      · have long := Text.word64?_render_of_le (Nat.not_lt.1 short)
        simp only [fieldWords, field, List.head?_cons, number, long, bind, Except.bind,
          Field.numbers, short, false_and, reduceCtorEq]

/-- A number does not tell the type of a field. -/
theorem field_render (name : String) (n : Nat) (words : List (List Char)) :
    ∃ fault, field name (Numeral.render n :: words) = .error fault := by
  have digit : ∀ c ∈ Numeral.render n, c.isDigit = true := fun c hc =>
    Nat.isDigit_of_mem_toDigits (by decide) (by decide) hc
  have other : ∀ c, c.isDigit = false → Numeral.render n ≠ [c] := by
    intro c noDigit same
    have := digit c (same ▸ List.mem_singleton_self c)
    rw [noDigit] at this
    cases this
  unfold field
  split
  · rename_i same
    exact absurd (List.cons.inj same).1 (other 's' (by decide))
  · rename_i same
    exact absurd (List.cons.inj same).1 (other 'l' (by decide))
  · exact ⟨_, rfl⟩

/-- The words of the first line are the magic word, the version and the kind, if there is one. -/
theorem filter_header (kind : String) :
    ([magic, Numeral.render recordVersion.toNat, kind.toList].filter fun w => !w.isEmpty) =
      magic :: Numeral.render recordVersion.toNat :: ([kind.toList].filter fun w => !w.isEmpty) :=
  rfl

/-- A written first line announces the kind, if it is valid. -/
theorem headerKind_eq_ok_iff {kind found : String} :
    headerKind ([magic, Numeral.render recordVersion.toNat, kind.toList].filter
        fun w => !w.isEmpty) = .ok found ↔ isValidName kind = true ∧ found = kind := by
  have version : number (some (Numeral.render recordVersion.toNat)) "record version" =
      .ok recordVersion.toNat.toUInt64 := number_render (by decide) _
  rw [filter_header]
  simp only [headerKind, List.head?_cons, List.getElem?_cons_succ, List.getElem?_cons_zero,
    version, bind, Except.bind]
  by_cases none : kind.toList = []
  · have invalid : isValidName kind = false := by simp [isValidName, none]
    simp [none, invalid, recordVersion, UInt32.size, throw, throwThe, MonadExceptOf.throw]
  · have kept : ([kind.toList].filter fun w => !w.isEmpty) = [kind.toList] := by simp [none]
    rw [kept]
    by_cases valid : isValidName kind = true <;>
      simp [valid, recordVersion, UInt32.size, pure, Except.pure, throw, throwThe,
        MonadExceptOf.throw, eq_comm]

/-! ## Reading line by line -/

/-- The line of a field. -/
def entryBytes (entry : String × Field) : List UInt8 :=
  lineBytes (entry.1.toList :: fieldWords entry.2)

variable {ending : Ending} {a : Archive}

/-- The words of the line of a field. -/
theorem solid_entry {name : String} (solid : Solid name.toList) (f : Field) :
    ∀ w ∈ name.toList :: fieldWords f, Solid w :=
  List.forall_mem_cons.2 ⟨solid, fun _ hw => (plain_of_mem_fieldWords hw).isBlank⟩

/-- The words of the line of a field are the name, if there is one, and those of the field. -/
theorem filter_entry (name : String) (f : Field) :
    (name.toList :: fieldWords f).filter (fun w => !w.isEmpty) =
      if name.toList = [] then fieldWords f else name.toList :: fieldWords f := by
  have all : (fieldWords f).filter (fun w => !w.isEmpty) = fieldWords f := by
    rw [List.filter_eq_self]
    intro w hw
    simpa using (plain_of_mem_fieldWords hw).nonempty
  by_cases none : name.toList = [] <;> simp [all, none]

/-- A written field is put into an archive, if its numbers can be counted and the archive does not
refuse it.  A line without a name is refused like a name that is not valid: its first word, the
type, is taken for the name, and the number behind it is no type. -/
theorem entry_filter_eq_ok_iff {name : String} {f : Field} {b : Archive} :
    entry a ((name.toList :: fieldWords f).filter fun w => !w.isEmpty) = .ok b ↔
      f.numbers.length < 2 ^ 64 ∧ a.add name f = .ok b := by
  rw [filter_entry]
  by_cases none : name.toList = []
  · have invalid : isValidName name = false := by simp [isValidName, none]
    rw [if_pos none]
    cases f with
    | scalar value =>
        obtain ⟨fault, refused⟩ := field_render "s" value.toNat []
        simp only [entry, fieldWords, show String.ofList ['s'] = "s" from rfl, refused, bind,
          Except.bind, Archive.add, invalid, Bool.not_false, if_true, and_false, reduceCtorEq]
    | list values =>
        obtain ⟨fault, refused⟩ := field_render "l" values.length
          (values.map fun v => Numeral.render v.toNat)
        simp only [entry, fieldWords, show String.ofList ['l'] = "l" from rfl, refused, bind,
          Except.bind, Archive.add, invalid, Bool.not_false, if_true, and_false, reduceCtorEq]
  · rw [if_neg none]
    simp only [entry, String.ofList_toList]
    cases read : field name (fieldWords f) with
    | ok g =>
        obtain ⟨short, rfl⟩ := field_fieldWords_eq_ok_iff.1 read
        simp only [bind, Except.bind, short, true_and]
    | error fault =>
        have long : ¬ f.numbers.length < 2 ^ 64 := fun short => by
          rw [field_fieldWords_eq_ok_iff.2 ⟨short, rfl⟩] at read
          cases read
        simp only [bind, Except.bind, long, false_and, reduceCtorEq]

/-- A line ends the record or holds a field, behind which the next line is read. -/
theorem entries_of_line {bytes front rest : List UInt8} (line : nextLine bytes = .line front rest) :
    entries ending a bytes = (do
      let words ← lineWords front
      if words = [terminator] then return (a, rest)
      entries ending (← entry a words) rest) := by
  rw [entries.eq_def]
  split
  · rename_i found
    cases line.symm.trans found
    rfl
  · rename_i found
    cases line.symm.trans found
  · rename_i found
    cases line.symm.trans found
  · rename_i other
    exact absurd line (other _ _)

/-- The last line ends the record, or the record has no end. -/
theorem entries_of_lastLine {bytes front : List UInt8} (line : nextLine bytes = .lastLine front) :
    entries .ends a bytes = (do
      let words ← lineWords front
      if words = [terminator] then return (a, [])
      let _ ← entry a words
      throw (.corrupt .noTerminator)) := by
  rw [entries.eq_def]
  split
  · rename_i found
    cases line.symm.trans found
  · rename_i found _
    cases line.symm.trans found
    rfl
  · rename_i found _
    cases line.symm.trans found
  · rename_i never _
    cases never

/-- The line of a field does not end the record. -/
theorem filter_entry_ne_terminator (name : String) (f : Field) :
    (name.toList :: fieldWords f).filter (fun w => !w.isEmpty) ≠ [terminator] := by
  rw [filter_entry]
  split <;> cases f <;> simp [fieldWords]

/-- The terminator is a line that ends the record. -/
theorem entries_terminator (rest : List UInt8) :
    entries ending a (lineBytes [terminator] ++ rest) = .ok (a, rest) := by
  have solid : ∀ w ∈ [terminator], Solid w := by
    intro w hw
    obtain rfl := List.mem_singleton.1 hw
    exact solid_of_all (by decide)
  rw [entries_of_line (nextLine_lineBytes solid rest), lineWords_frontBytes solid]
  rfl

/-- Written fields are read up to the terminator, if all lists can be counted and all fields be put
into the archive. -/
theorem entries_flatMap_eq_ok_iff {b : Archive} {fields : List (String × Field)}
    (solid : ∀ entry ∈ fields, Solid entry.1.toList) {rest left : List UInt8} :
    entries ending a (fields.flatMap entryBytes ++ (lineBytes [terminator] ++ rest)) =
        .ok (b, left) ↔
      (∀ entry ∈ fields, entry.2.numbers.length < 2 ^ 64) ∧ a.addAll fields = .ok b ∧
        left = rest := by
  induction fields generalizing a with
  | nil =>
      rw [List.flatMap_nil, List.nil_append, entries_terminator, Archive.addAll_nil]
      simp [eq_comm]
  | cons first fields ih =>
      obtain ⟨name, f⟩ := first
      have words := solid_entry (solid (name, f) List.mem_cons_self) f
      rw [List.flatMap_cons, List.append_assoc, entryBytes,
        entries_of_line (nextLine_lineBytes words _), lineWords_frontBytes words,
        List.forall_mem_cons, Archive.addAll_cons]
      simp only [bind, Except.bind, if_neg (filter_entry_ne_terminator name f)]
      cases read : entry a ((name.toList :: fieldWords f).filter fun w => !w.isEmpty) with
      | ok extended =>
          obtain ⟨short, added⟩ := entry_filter_eq_ok_iff.1 read
          simp only [added, short, true_and]
          exact ih fun other hother => solid other (List.mem_cons_of_mem _ hother)
      | error fault =>
          by_cases short : f.numbers.length < 2 ^ 64
          · cases added : a.add name f with
            | ok extended =>
                rw [entry_filter_eq_ok_iff.2 ⟨short, added⟩] at read
                cases read
            | error _ => simp only [false_and, and_false, reduceCtorEq]
          · simp only [short, false_and, reduceCtorEq]

/-! ## Records are read back -/

/-- The record of an archive, line by line. -/
theorem encode_eq (a : Archive) :
    encode a = lineBytes [magic, Numeral.render recordVersion.toNat, a.kind.toList] ++
      (a.fields.flatMap entryBytes ++ lineBytes [terminator]) := by
  rw [encode, text, List.append_assoc, Text.bytes_ofList_append, Text.bytes_ofList_append,
    Text.bytes_flatMap (g := entryBytes) fun entry _ => rfl]
  rfl

/-- The words of the first line are solid, if the kind is. -/
theorem solid_header {kind : String} (solid : Solid kind.toList) :
    ∀ w ∈ [magic, Numeral.render recordVersion.toNat, kind.toList], Solid w := by
  intro w hw
  simp only [List.mem_cons, List.not_mem_nil, or_false] at hw
  rcases hw with rfl | rfl | rfl
  · exact solid_of_all (by decide)
  · exact solid_render _
  · exact solid

/-- A whole line is passed over if it is blank, and otherwise it announces the fields behind it. -/
theorem decode_line {bytes front rest : List UInt8} (line : nextLine bytes = .line front rest) :
    decode ⟨bytes, ending⟩ = (do
      let words ← lineWords front
      if words.isEmpty then decode ⟨rest, ending⟩
      else entries ending (Archive.empty (← headerKind words)) rest) := by
  rw [decode, record.eq_def]
  split
  · rename_i found
    cases line.symm.trans found
    rfl
  · rename_i found _
    cases line.symm.trans found
  · rename_i found _
    cases line.symm.trans found
  · rename_i other
    exact absurd line (other _ _)

/-- The last line of a source may announce a record, but there is no terminator behind it. -/
theorem decode_lastLine {bytes front : List UInt8} (line : nextLine bytes = .lastLine front) :
    decode ⟨bytes, .ends⟩ = (do
      let words ← lineWords front
      if words.isEmpty then throw (.corrupt (.truncated .portable))
      let _ ← headerKind words
      throw (.corrupt .noTerminator)) := by
  rw [decode, record.eq_def]
  split
  · rename_i found
    cases line.symm.trans found
  · rename_i found _
    cases line.symm.trans found
    rfl
  · rename_i found _
    cases line.symm.trans found
  · rename_i never _
    cases never

/-- The first line is read, and then the fields. -/
theorem decode_of_line {bytes front rest : List UInt8} (line : nextLine bytes = .line front rest)
    {words : List (List Char)} (read : lineWords front = .ok words) (some : words ≠ []) :
    decode ⟨bytes, ending⟩ =
      (headerKind words).bind fun kind => entries ending (Archive.empty kind) rest := by
  rw [decode_line line, read]
  simp only [bind, Except.bind, List.isEmpty_eq_false_iff.2 some, Bool.false_eq_true, if_false]

/-- A blank line in front of a record is passed over. -/
theorem decode_of_blank {bytes front rest : List UInt8} (line : nextLine bytes = .line front rest)
    (blank : lineWords front = .ok []) :
    decode ⟨bytes, ending⟩ = decode ⟨rest, ending⟩ := by
  rw [decode_line line, blank]
  rfl

/-- A record without white space in its names is read as its archive, if all lists can be counted
and the archive can be read, and what stands behind it is left. -/
theorem decode_encode_eq_ok_iff (kind : Solid a.kind.toList)
    (names : ∀ entry ∈ a.fields, Solid entry.1.toList) {suffix left : List UInt8} {b : Archive} :
    decode ⟨encode a ++ suffix, ending⟩ = .ok (b, left) ↔
      a.Countable ∧ a.admitted = .ok b ∧ left = suffix := by
  have header := solid_header kind
  rw [encode_eq, List.append_assoc, List.append_assoc,
    decode_of_line (nextLine_lineBytes header _) (lineWords_frontBytes header)
      (filter_header a.kind ▸ List.cons_ne_nil _ _),
    Archive.admitted]
  cases read : headerKind ([magic, Numeral.render recordVersion.toNat, a.kind.toList].filter
      fun w => !w.isEmpty) with
  | ok found =>
      obtain ⟨valid, rfl⟩ := headerKind_eq_ok_iff.1 read
      rw [if_pos valid]
      exact entries_flatMap_eq_ok_iff names
  | error fault =>
      have invalid : ¬ isValidName a.kind = true := fun valid => by
        rw [headerKind_eq_ok_iff.2 ⟨valid, rfl⟩] at read
        cases read
      simp only [Except.bind, if_neg invalid, false_and, and_false, reduceCtorEq]

/-- A line has no fewer bytes than its field has numbers. -/
theorem length_le_entryBytes {name : String} (valid : isValidName name = true) (f : Field) :
    f.numbers.length ≤ (entryBytes (name, f)).length := by
  have nonempty : ∀ w ∈ name.toList :: fieldWords f, w ≠ [] :=
    List.forall_mem_cons.2 ⟨(Text.plain_of_isValidName valid).nonempty,
      fun _ hw => (plain_of_mem_fieldWords hw).nonempty⟩
  refine Nat.le_trans ?_ (length_le_lineBytes nonempty)
  cases f with
  | scalar value => exact Nat.succ_le_succ (Nat.zero_le _)
  | list values =>
      simp only [Field.numbers, fieldWords, List.length_cons, List.length_map]
      omega

/-- The lists of a record of fewer than 2 ^ 64 bytes can be counted. -/
theorem countable_of_length (names : ∀ entry ∈ a.fields, isValidName entry.1 = true)
    (short : (encode a).length < 2 ^ 64) : a.Countable := by
  rintro ⟨name, f⟩ hentry
  have numbers := @length_le_entryBytes name (names _ hentry) f
  obtain ⟨before, after, split⟩ := List.append_of_mem hentry
  rw [encode_eq, split, List.flatMap_append, List.flatMap_cons] at short
  simp only [List.length_append] at short
  exact Nat.lt_of_le_of_lt numbers (by omega)

/-- A record is read back, and what stands behind it is left. -/
theorem decode_encode {a : Archive} (kind : isValidName a.kind = true)
    (names : ∀ entry ∈ a.fields, isValidName entry.1 = true)
    (short : (encode a).length < 2 ^ 64) (suffix : List UInt8) (ending : Ending) :
    decode ⟨encode a ++ suffix, ending⟩ = .ok (a, suffix) := by
  have read := @decode_encode_eq_ok_iff ending a (solid_of_isValidName kind)
    (fun entry hentry => solid_of_isValidName (names entry hentry)) suffix suffix a
  exact read.2 ⟨countable_of_length names short, Archive.admitted_eq kind names, rfl⟩

end SparseTensor.Portable
