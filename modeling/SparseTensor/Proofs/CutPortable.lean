/-
# Portable records that are cut short

A record ends with a line that holds the terminator and nothing else, and the last line of the input
need not have a line end.  So a record that is cut short loads if what is left of the line that is
cut reads like the terminator.  `read_cut_eq_ok_iff` says when this is: behind the letters of the
terminator itself, which loses nothing, and behind the same letters at the front of the name of a
field, which loses this field and those behind it (`read_cut_in_name`).

The proof goes line by line.  Whole lines are read as ever; of the line that is cut the words are
those of a front of its text (`words_eq_terminator_iff`).
-/
import SparseTensor.Proofs.Fidelity

namespace SparseTensor

namespace Text

/-- There is a word where there is a character that is not white. -/
theorem words_cons_ne_nil {c : Char} (solid : isBlank c = false) (s : List Char) :
    words (c :: s) ≠ [] := by
  intro none
  have split : (c :: s).splitOnP isBlank = (s.splitOnP isBlank).modifyHead (c :: ·) := by
    rw [List.splitOnP_cons_eq_if_modifyHead, solid]
    rfl
  cases rest : s.splitOnP isBlank with
  | nil => exact List.splitOnP_ne_nil isBlank s rest
  | cons run runs => simp [words, split, rest] at none

/-- The words of a text that starts with a word and a blank. -/
theorem words_append_cons {s : List Char} (solid : ∀ c ∈ s, isBlank c = false) (ne : s ≠ [])
    (t : List Char) : words (s ++ ' ' :: t) = s :: words t := by
  rw [words, List.splitOnP_append_cons_of_forall_mem solid ' ' (by decide), List.filter_cons,
    if_pos (by simpa using ne), words]

/-- A text without white space is one word, if it is not empty. -/
theorem words_of_solid {s : List Char} (solid : ∀ c ∈ s, isBlank c = false) :
    words s = if s = [] then [] else [s] := by
  rw [words, List.splitOnP_eq_singleton solid]
  by_cases none : s = [] <;> simp [none]

/-- The front of an ASCII text in bytes is that of the text. -/
theorem exists_prefix_of_prefix_bytes {s : List Char} (ascii : ∀ c ∈ s, c.toNat < 128)
    {p : List UInt8} (front : p <+: bytes (String.ofList s)) :
    ∃ t, t <+: s ∧ p = bytes (String.ofList t) := by
  have taken := List.prefix_iff_eq_take.1 front
  refine ⟨s.take p.length, List.take_prefix _ _, ?_⟩
  rw [bytes_ofList ascii] at taken
  rw [bytes_ofList fun c hc => ascii c (List.mem_of_mem_take hc), List.map_take]
  exact taken

end Text

namespace Portable

variable {a b x : Archive} {name : String} {f : Field} {p left : List UInt8}

/-! ## A line that is cut -/

/-- The letters of the terminator. -/
def letters : List UInt8 := Text.bytes (String.ofList terminator)

/-- The front of the line of a field reads like the terminator if it is cut behind these letters in
the name, or behind a name that is the terminator and the blank that follows it. -/
theorem words_eq_terminator_iff {w s tail : List Char} {c : Char} (solid : Solid w) (ne : w ≠ [])
    (first : Text.isBlank c = false) (front : s <+: w ++ ' ' :: c :: tail) :
    Text.words s = [terminator] ↔
      s = terminator ∧ terminator <+: w ∨ s = terminator ++ [' '] ∧ w = terminator := by
  have letters : Solid terminator := solid_of_all (by decide)
  constructor
  · intro read
    -- the front ends in the word, where it is one word, or behind it, where it is more
    rcases List.prefix_or_prefix_of_prefix front (List.prefix_append w _) with inside | behind
    · rw [Text.words_of_solid fun d hd => solid d (inside.subset hd)] at read
      split at read
      · cases read
      · obtain rfl := (List.cons.inj read).1
        exact .inl ⟨rfl, inside⟩
    · obtain ⟨t, rfl⟩ := behind
      have rest := (List.prefix_append_right_inj w).1 front
      cases t with
      | nil =>
          rw [List.append_nil, Text.words_of_solid solid, if_neg ne] at read
          obtain rfl := (List.cons.inj read).1
          exact .inl ⟨List.append_nil _, List.prefix_rfl⟩
      | cons d t =>
          obtain ⟨rfl, others⟩ := List.cons_prefix_cons.1 rest
          rw [Text.words_append_cons solid ne] at read
          obtain ⟨rfl, none⟩ := List.cons.inj read
          cases t with
          | nil => exact .inr ⟨rfl, rfl⟩
          | cons e t =>
              rw [(List.cons_prefix_cons.1 others).1] at none
              exact absurd none (Text.words_cons_ne_nil first t)
  · rintro (⟨rfl, -⟩ | ⟨rfl, rfl⟩)
    · rw [Text.words_of_solid letters, if_neg (by decide)]
    · rw [Text.words_append_cons letters (by decide)]
      rfl

/-- A record without another line has no end. -/
theorem entries_nil : entries .ends x [] = .error (.corrupt .noTerminator) := by
  have line : nextLine [] = .nothing := rfl
  rw [entries.eq_def]
  split
  · rename_i found
    cases line.symm.trans found
  · rename_i found _
    cases line.symm.trans found
  · rfl
  · rename_i never _
    cases never

/-- A line that is cut is a last line. -/
theorem nextLine_of_cut (noEnd : newline ∉ p) (ne : p ≠ []) : nextLine p = .lastLine p := by
  have all : p.dropWhile (fun b => decide (b ≠ newline)) = [] := by
    rw [← List.append_nil p, List.dropWhile_append_of_pos]
    · rfl
    · exact fun c hc => decide_eq_true fun same => noEnd (same ▸ hc)
  rw [nextLine, all]
  exact if_neg (by simpa using ne)

/-- A line that is cut ends the record if it reads like the terminator, and otherwise there is no
record. -/
theorem entries_eq_ok_iff_of_cut (noEnd : newline ∉ p) :
    entries .ends x p = .ok (b, left) ↔
      lineWords p = .ok [terminator] ∧ b = x ∧ left = [] := by
  cases p with
  | nil =>
      have none : lineWords [] = .ok [] := by
        rw [← show frontBytes [] = [] from rfl, lineWords_frontBytes (List.forall_mem_nil _)]
        rfl
      simp [entries_nil, none]
  | cons c p =>
      rw [entries_of_lastLine (nextLine_of_cut noEnd (List.cons_ne_nil c p))]
      cases lineWords (c :: p) with
      | error fault => simp [bind, Except.bind]
      | ok words =>
          by_cases last : words = [terminator]
          · simp [bind, Except.bind, pure, Except.pure, last, eq_comm]
          · simp only [bind, Except.bind, Except.ok.injEq, last, if_false, false_and, iff_false]
            cases entry x words <;> · intro h; cases h

/-- No byte of the letters of the terminator is a line end. -/
theorem newline_not_mem_letters : newline ∉ letters := by
  rw [letters, Text.bytes_eq (by decide)]
  decide

/-- Texts with the same bytes are the same. -/
theorem eq_of_bytes_eq {s t : List Char}
    (h : Text.bytes (String.ofList s) = Text.bytes (String.ofList t)) : s = t := by
  have read := congrArg Text.ofBytes? h
  rw [Text.ofBytes?_bytes, Text.ofBytes?_bytes] at read
  simpa using congrArg String.toList (Option.some.inj read)

/-- The line of a field is the name, a blank, and something that is not white. -/
theorem intercalate_entry (name : String) (f : Field) :
    ∃ c tail, [' '].intercalate (name.toList :: fieldWords f) = name.toList ++ ' ' :: c :: tail ∧
      Text.isBlank c = false := by
  cases f with
  | scalar value =>
      exact ⟨'s', _, by rw [fieldWords, List.intercalate_cons_cons, List.append_assoc]; rfl, rfl⟩
  | list values =>
      exact ⟨'l', _, by rw [fieldWords, List.intercalate_cons_cons, List.append_assoc]; rfl, rfl⟩

/-- The line of a field with a valid name is ASCII. -/
theorem ascii_entry (valid : isValidName name = true) (f : Field) :
    ∀ c ∈ [' '].intercalate (name.toList :: fieldWords f), c.toNat < 128 := by
  have plain : ∀ w ∈ name.toList :: fieldWords f, Text.Plain w :=
    List.forall_mem_cons.2 ⟨Text.plain_of_isValidName valid, fun _ hw => plain_of_mem_fieldWords hw⟩
  exact Text.forall_mem_intercalate (by decide) fun w hw => (plain w hw).ascii

/-- The line of a field that is cut reads like the terminator behind the same letters at the front
of the name, and behind the blank that follows a name of these letters only. -/
theorem lineWords_cut_iff (valid : isValidName name = true)
    (front : p <+: frontBytes (name.toList :: fieldWords f)) :
    lineWords p = .ok [terminator] ↔
      p = letters ∧ terminator <+: name.toList ∨
        p = letters ++ [0x20] ∧ name.toList = terminator := by
  obtain ⟨s, inside, rfl⟩ := Text.exists_prefix_of_prefix_bytes (ascii_entry valid f) front
  obtain ⟨c, tail, same, first⟩ := intercalate_entry name f
  rw [same] at inside
  have words := words_eq_terminator_iff (solid_of_isValidName valid)
    (Text.plain_of_isValidName valid).nonempty first inside
  have blank : letters ++ [0x20] = Text.bytes (String.ofList (terminator ++ [' '])) := by
    rw [Text.bytes_ofList_append, Text.bytes_ofList (s := [' ']) (by simp)]
    rfl
  rw [lineWords, Text.ofBytes?_bytes, blank, letters]
  simp only [String.toList_ofList, Except.ok.injEq, words]
  constructor
  · rintro (⟨rfl, h⟩ | ⟨rfl, h⟩)
    · exact .inl ⟨rfl, h⟩
    · exact .inr ⟨rfl, h⟩
  · rintro (⟨same, h⟩ | ⟨same, h⟩)
    · exact .inl ⟨eq_of_bytes_eq same, h⟩
    · exact .inr ⟨eq_of_bytes_eq same, h⟩

/-! ## Records that are cut -/

/-- The record of an archive in front of its terminator. -/
def bodyBytes (a : Archive) : List UInt8 :=
  lineBytes [magic, Numeral.render recordVersion.toNat, a.kind.toList] ++
    a.fields.flatMap entryBytes

/-- Some fields of a record are cut behind those that are kept: behind the letters of the
terminator, which are its own or the front of the name of the next field, or behind such a name and
a blank. -/
def CutBehind (p : List UInt8) (fields kept : List (String × Field)) : Prop :=
  kept = fields ∧ p = kept.flatMap entryBytes ++ letters ∨
    ∃ name f back, fields = kept ++ (name, f) :: back ∧
      (p = kept.flatMap entryBytes ++ letters ∧ terminator <+: name.toList ∨
        p = kept.flatMap entryBytes ++ (letters ++ [0x20]) ∧ name.toList = terminator)

/-- The line of a field in front of others is put into the archive. -/
theorem entries_entryBytes {extended : Archive} (valid : isValidName name = true)
    (short : f.numbers.length < 2 ^ 64) (added : x.add name f = .ok extended)
    (rest : List UInt8) :
    entries .ends x (entryBytes (name, f) ++ rest) = entries .ends extended rest := by
  have solid := solid_entry (solid_of_isValidName valid) f
  have read := (entry_filter_eq_ok_iff (a := x) (b := extended)).2 ⟨short, added⟩
  rw [entryBytes, entries_of_line (nextLine_lineBytes solid _), lineWords_frontBytes solid]
  simp only [bind, Except.bind, if_neg (filter_entry_ne_terminator name f), read]

/-- A record that is cut within its last line is complete if only the line end is missing. -/
theorem entries_cut_terminator (front : p <+: letters) :
    entries .ends x p = .ok (b, left) ↔ left = [] ∧ p = letters ∧ b = x := by
  have noEnd : newline ∉ p := fun h => newline_not_mem_letters (front.subset h)
  have solid : Solid terminator := solid_of_all (by decide)
  obtain ⟨s, inside, rfl⟩ := Text.exists_prefix_of_prefix_bytes
    (Text.ascii_of_isAscii (show Text.isAscii terminator = true by decide)) front
  rw [entries_eq_ok_iff_of_cut noEnd, lineWords, Text.ofBytes?_bytes]
  have words : (if s = [] then [] else [s]) = [terminator] ↔ s = terminator := by
    by_cases none : s = []
    · simp [none, terminator]
    · simp [none]
  simp only [String.toList_ofList, Text.words_of_solid fun c hc => solid c (inside.subset hc),
    Except.ok.injEq, words]
  constructor
  · rintro ⟨rfl, same, none⟩
    exact ⟨none, rfl, same⟩
  · rintro ⟨none, same, rfl⟩
    exact ⟨eq_of_bytes_eq same, rfl, none⟩

/-- A line is cut in front of its end. -/
theorem prefix_frontBytes {words : List (List Char)} (front : p <+: lineBytes words)
    (proper : p ≠ lineBytes words) : p <+: frontBytes words := by
  rw [lineBytes_eq] at front proper
  exact (List.prefix_concat_iff.1 front).resolve_left proper

/-- A cut that leaves no line whole is in the first line. -/
theorem cut_in_first_line {words : List (List Char)} (solid : ∀ w ∈ words, Solid w)
    {back : List UInt8} (front : p <+: lineBytes words ++ back) (cut : ¬ lineBytes words <+: p) :
    p <+: frontBytes words ∧ newline ∉ p := by
  have line : p <+: lineBytes words :=
    (List.prefix_or_prefix_of_prefix front (List.prefix_append _ back)).resolve_right cut
  have inside := prefix_frontBytes line fun same => cut (same ▸ List.prefix_rfl)
  exact ⟨inside, fun hp => ne_newline_of_mem_frontBytes solid (inside.subset hp) rfl⟩

/-- The lines of fields that are kept are whole, so there is a line end in them. -/
theorem newline_mem_of_cutBehind {fields kept : List (String × Field)}
    (cut : CutBehind p fields kept) (some : kept ≠ []) : newline ∈ p := by
  obtain ⟨entry, others, rfl⟩ := List.exists_cons_of_ne_nil some
  have line : newline ∈ entryBytes entry := by simp [entryBytes, lineBytes_eq]
  rcases cut with ⟨-, rfl⟩ | ⟨_, _, _, -, ⟨rfl, -⟩ | ⟨rfl, -⟩⟩ <;> simp [line]

/-- Where no line is whole, nothing is kept. -/
theorem newline_not_mem_of_cutBehind_nil {fields : List (String × Field)}
    (cut : CutBehind p fields []) : newline ∉ p := by
  have blank : newline ∉ letters ++ [0x20] := by
    rw [List.mem_append]
    rintro (h | h)
    · exact newline_not_mem_letters h
    · exact absurd h (by decide)
  rcases cut with ⟨-, rfl⟩ | ⟨_, _, _, -, ⟨rfl, -⟩ | ⟨rfl, -⟩⟩
  · exact newline_not_mem_letters
  · exact newline_not_mem_letters
  · exact blank

/-- Without fields the cut is behind the terminator. -/
theorem cutBehind_nil_iff {kept : List (String × Field)} :
    CutBehind p [] kept ↔ kept = [] ∧ p = letters := by
  constructor
  · rintro (⟨rfl, same⟩ | ⟨_, _, _, impossible, -⟩)
    · exact ⟨rfl, same⟩
    · cases List.append_eq_nil_iff.1 impossible.symm |>.2
  · rintro ⟨rfl, same⟩
    exact .inl ⟨rfl, same⟩

/-- Behind the whole line of the first field this field is kept, and the cut is among the others. -/
theorem cutBehind_entryBytes_iff {entry : String × Field} {fields kept : List (String × Field)} :
    CutBehind (entryBytes entry ++ p) (entry :: fields) kept ↔
      ∃ others, kept = entry :: others ∧ CutBehind p fields others := by
  constructor
  · intro cut
    cases kept with
    | nil =>
        have line : newline ∈ entryBytes entry ++ p := by simp [entryBytes, lineBytes_eq]
        exact absurd line (newline_not_mem_of_cutBehind_nil cut)
    | cons first others =>
        obtain rfl : first = entry := by
          rcases cut with ⟨same, -⟩ | ⟨_, _, _, same, -⟩
          · exact (List.cons.inj same).1
          · exact (List.cons.inj same).1.symm
        exact ⟨others, rfl, by simpa [CutBehind] using cut⟩
  · rintro ⟨others, rfl, cut⟩
    simpa [CutBehind] using cut

/-- Where no line is whole, nothing is kept, and the cut is in the line of the first field. -/
theorem cutBehind_cons_iff_of_cut {fields kept : List (String × Field)} (noEnd : newline ∉ p) :
    CutBehind p ((name, f) :: fields) kept ↔
      kept = [] ∧ (p = letters ∧ terminator <+: name.toList ∨
        p = letters ++ [0x20] ∧ name.toList = terminator) := by
  constructor
  · intro cut
    obtain rfl : kept = [] :=
      Classical.byContradiction fun some => noEnd (newline_mem_of_cutBehind cut some)
    rcases cut with ⟨impossible, -⟩ | ⟨_, _, _, same, cut⟩
    · cases impossible
    · cases same
      exact ⟨rfl, cut⟩
  · rintro ⟨rfl, cut⟩
    exact .inr ⟨name, f, fields, rfl, cut⟩

/-- A front of the lines of a record is read as an archive if it ends where the archive is cut. -/
theorem entries_eq_ok_iff_of_proper {fields : List (String × Field)} (h : x.Awaits fields a)
    (valid : ∀ entry ∈ fields, isValidName entry.1 = true) (short : p.length < 2 ^ 64)
    (front : p <+: fields.flatMap entryBytes ++ lineBytes [terminator])
    (proper : p ≠ fields.flatMap entryBytes ++ lineBytes [terminator]) :
    entries .ends x p = .ok (b, left) ↔
      left = [] ∧ ∃ kept, CutBehind p fields kept ∧ x.Awaits kept b := by
  induction fields generalizing x p with
  | nil =>
      have front : p <+: letters := prefix_frontBytes front proper
      rw [entries_cut_terminator front]
      refine and_congr_right fun _ => ?_
      constructor
      · rintro ⟨same, rfl⟩
        exact ⟨[], cutBehind_nil_iff.2 ⟨rfl, same⟩, Archive.awaits_nil_iff.2 rfl⟩
      · rintro ⟨kept, cut, awaits⟩
        obtain ⟨rfl, same⟩ := cutBehind_nil_iff.1 cut
        exact ⟨same, Archive.awaits_nil_iff.1 awaits⟩
  | cons first fields ih =>
      obtain ⟨name, f⟩ := first
      have validName := valid (name, f) List.mem_cons_self
      rw [List.flatMap_cons, List.append_assoc] at front proper
      by_cases whole : entryBytes (name, f) <+: p
      · -- the field is put into the archive, and the cut is further behind
        obtain ⟨p, rfl⟩ := whole
        have front := (List.prefix_append_right_inj _).1 front
        obtain ⟨extended, added, awaits⟩ := h.add validName
        have numbers := @length_le_entryBytes name validName f
        rw [List.length_append] at short
        rw [entries_entryBytes validName (Nat.lt_of_le_of_lt numbers (by omega)) added,
          ih awaits (fun other hother => valid other (List.mem_cons_of_mem _ hother)) (by omega)
            front fun same => proper (same ▸ rfl)]
        refine and_congr_right fun _ => ?_
        constructor
        · rintro ⟨others, cut, rest⟩
          exact ⟨(name, f) :: others, cutBehind_entryBytes_iff.2 ⟨others, rfl, cut⟩,
            (h.awaits_iff awaits).1 rest⟩
        · rintro ⟨kept, cut, rest⟩
          obtain ⟨others, rfl, behind⟩ := cutBehind_entryBytes_iff.1 cut
          exact ⟨others, behind, (h.awaits_iff awaits).2 rest⟩
      · -- what is left of the line is the last line, which ends the record or spoils it
        obtain ⟨inside, noEnd⟩ :=
          cut_in_first_line (solid_entry (solid_of_isValidName validName) f) front whole
        rw [entries_eq_ok_iff_of_cut noEnd, lineWords_cut_iff validName inside]
        constructor
        · rintro ⟨cut, rfl, none⟩
          exact ⟨none, [], (cutBehind_cons_iff_of_cut noEnd).2 ⟨rfl, cut⟩,
            Archive.awaits_nil_iff.2 rfl⟩
        · rintro ⟨none, kept, cut, rest⟩
          obtain ⟨rfl, here⟩ := (cutBehind_cons_iff_of_cut noEnd).1 cut
          exact ⟨here, Archive.awaits_nil_iff.1 rest, none⟩

/-- There is no record in a first line that is cut. -/
theorem decode_ne_ok_of_cut (noEnd : newline ∉ p) : decode ⟨p, .ends⟩ ≠ .ok (b, left) := by
  by_cases none : p = []
  · subst none
    rw [decode, record.eq_def]
    rintro ⟨⟩
  rw [decode_lastLine (nextLine_of_cut noEnd none)]
  cases lineWords p with
  | error fault => rintro ⟨⟩
  | ok words =>
      simp only [bind, Except.bind]
      split
      · rintro ⟨⟩
      · cases headerKind words <;> rintro ⟨⟩

/-- A record ends with the letters of the terminator and a line end. -/
theorem bodyBytes_letters (a : Archive) : bodyBytes a ++ letters ++ [newline] = encode a := by
  have line : lineBytes [terminator] = letters ++ [newline] := lineBytes_eq [terminator]
  rw [encode_eq, line, bodyBytes]
  simp only [List.append_assoc]

/-- A record is cut where another archive of its kind, with the first of its fields, ends. -/
structure CutsTo (p : List UInt8) (a b : Archive) : Prop where
  kind : b.kind = a.kind
  cut : b.fields = a.fields ∧ p = bodyBytes b ++ letters ∨
    ∃ name f back, a.fields = b.fields ++ (name, f) :: back ∧
      (p = bodyBytes b ++ letters ∧ terminator <+: name.toList ∨
        p = bodyBytes b ++ (letters ++ [0x20]) ∧ name.toList = terminator)

/-- The header is whole in front of the cut. -/
theorem CutsTo.header (cut : CutsTo p a b) :
    lineBytes [magic, Numeral.render recordVersion.toNat, a.kind.toList] <+: p := by
  obtain ⟨sameKind, cut⟩ := cut
  rw [← sameKind]
  rcases cut with ⟨-, rfl⟩ | ⟨_, _, _, -, ⟨rfl, -⟩ | ⟨rfl, -⟩⟩ <;>
    · rw [bodyBytes, List.append_assoc]
      exact List.prefix_append _ _

/-- A front of a record is read as an archive if it ends where the record is cut. -/
theorem decode_eq_ok_iff_of_proper (kind : isValidName a.kind = true)
    (names : ∀ entry ∈ a.fields, isValidName entry.1 = true) (short : p.length < 2 ^ 64)
    (front : p <+: encode a) (proper : p ≠ encode a) :
    decode ⟨p, .ends⟩ = .ok (b, left) ↔ left = [] ∧ CutsTo p a b := by
  have header := solid_header (solid_of_isValidName kind)
  rw [encode_eq] at front proper
  by_cases whole : lineBytes [magic, Numeral.render recordVersion.toNat, a.kind.toList] <+: p
  · obtain ⟨p, rfl⟩ := whole
    have front := (List.prefix_append_right_inj _).1 front
    rw [List.length_append] at short
    rw [decode_of_line (nextLine_lineBytes header _) (lineWords_frontBytes header)
        (filter_header a.kind ▸ List.cons_ne_nil _ _), headerKind_eq_ok_iff.2 ⟨kind, rfl⟩]
    show entries .ends (Archive.empty a.kind) p = .ok (b, left) ↔ _
    rw [entries_eq_ok_iff_of_proper a.awaits_empty names (by omega) front
      fun same => proper (same ▸ rfl)]
    refine and_congr_right fun _ => ?_
    constructor
    · rintro ⟨kept, cut, sameKind, rfl⟩
      have sameKind : b.kind = a.kind := sameKind.symm
      exact ⟨sameKind, by simpa [CutBehind, bodyBytes, sameKind] using cut⟩
    · rintro ⟨sameKind, cut⟩
      exact ⟨b.fields, by simpa [CutBehind, bodyBytes, sameKind] using cut, sameKind.symm, rfl⟩
  · obtain ⟨-, noEnd⟩ := cut_in_first_line header front whole
    exact ⟨fun h => absurd h (decode_ne_ok_of_cut noEnd), fun h => absurd h.2.header whole⟩

/-- A record that is cut is that of the archive itself without its line end, or it is cut in the
name of a field. -/
theorem CutsTo.eq (cut : CutsTo p a b)
    (other : ∀ entry ∈ a.fields, ¬ terminator <+: entry.1.toList) :
    b = a ∧ p = bodyBytes a ++ letters := by
  obtain ⟨kind, ⟨fields, front⟩ | ⟨name, f, back, split, front⟩⟩ := cut
  · obtain rfl := Archive.ext kind fields
    exact ⟨rfl, front⟩
  · have absent := other (name, f) (by simp [split])
    rcases front with ⟨-, front⟩ | ⟨-, same⟩
    · exact absurd front absent
    · exact absurd (same ▸ List.prefix_rfl) absent

end Portable

namespace Record

variable {a b : Archive} {p : List UInt8} {s s' : Source} {reading : Settings}

/-- A limit lets fewer than 2 ^ 64 bytes through. -/
theorem length_lt_of_limit_eq (limited : s.limit reading.maxBytes.toNat = Source.ofBytes p) :
    p.length < 2 ^ 64 := by
  have room := UInt64.toNat_lt reading.maxBytes
  have bytes := congrArg (fun s => s.bytes.length) limited
  simp only [Source.limit, Source.ofBytes] at bytes
  split at bytes
  · rw [List.length_take] at bytes
    omega
  · omega

/-- A limit cuts a source behind as many bytes. -/
theorem limit_length (front more : List UInt8) (ending : Ending) :
    Source.limit ⟨front ++ more, ending⟩ front.length = Source.ofBytes front := by
  rw [Source.limit, if_pos (by simp), List.take_left]

/-- A portable record that is cut short, by the end of its source or by the limit on the bytes of a
record, loads exactly if it is cut behind the letters of the terminator: its own, and then as the
archive that was saved, or those at the front of the name of a field, and then without this field
and those behind it. -/
theorem read_cut_eq_ok_iff (kind : isValidName a.kind = true)
    (names : ∀ entry ∈ a.fields, isValidName entry.1 = true) (front : p <+: Portable.encode a)
    (proper : p ≠ Portable.encode a)
    (limited : s.limit reading.maxBytes.toNat = Source.ofBytes p) :
    read .portable reading s = .ok (b, s') ↔
      s' = skip s p.length ∧ Portable.CutsTo p a b := by
  have short := length_lt_of_limit_eq limited
  have decoded := fun left => @Portable.decode_eq_ok_iff_of_proper a b p left kind names short front
    proper
  rw [read_eq_ok_iff, limited]
  constructor
  · rintro ⟨left, found, rfl⟩
    obtain ⟨rfl, cut⟩ := (decoded left).1 found
    exact ⟨rfl, cut⟩
  · rintro ⟨rfl, cut⟩
    exact ⟨[], (decoded []).2 ⟨rfl, cut⟩, rfl⟩

/-- A record without its line end, which the limit cuts off, loads as what was saved. -/
theorem read_cut_line_end :
    let a := Archive.ofList "Sample" [("a", .scalar 1), ("b", .list [2, 3])]
    let front := Portable.bodyBytes a ++ Portable.letters
    (isValidName a.kind = true ∧ ∀ entry ∈ a.fields, isValidName entry.1 = true) ∧
      (front <+: Portable.encode a ∧ front ≠ Portable.encode a) ∧
      read .portable (Settings.withMaxBytes .compact 46) ⟨Portable.encode a, .fails .other⟩ =
        .ok (a, ⟨[Portable.newline], .fails .other⟩) := by
  intro a front
  have kind : isValidName a.kind = true := by decide
  have names : ∀ entry ∈ a.fields, isValidName entry.1 = true := by decide
  have split : front ++ [Portable.newline] = Portable.encode a := Portable.bodyBytes_letters a
  have length : front.length = 46 := by decide +kernel
  have proper : front ≠ Portable.encode a := by
    rw [← split]
    exact fun same => List.cons_ne_nil _ _ (List.append_right_eq_self.1 same.symm)
  have limited := limit_length front [Portable.newline] (.fails .other)
  rw [split, show front.length = (Settings.withMaxBytes .compact 46).maxBytes.toNat from length]
    at limited
  have cut : Portable.CutsTo front a a := ⟨rfl, .inl ⟨rfl, rfl⟩⟩
  refine ⟨⟨kind, names⟩, ⟨⟨_, split⟩, proper⟩, ?_⟩
  refine (read_cut_eq_ok_iff kind names ⟨_, split⟩ proper limited).2 ⟨?_, cut⟩
  rw [skip]
  exact congrArg (Source.mk · _) (by rw [← split, List.drop_left])

/-- A record that the limit cuts in the name of a field loads without the field. -/
theorem read_cut_in_name :
    let a := Archive.ofList "Sample" [("a", .scalar 1), ("endpoint", .scalar 2)]
    let b := Archive.ofList "Sample" [("a", .scalar 1)]
    ∃ s, read .portable (Settings.withMaxBytes .compact 36) (Source.ofBytes (Portable.encode a)) =
      .ok (b, s) ∧ b ≠ a := by
  intro a b
  let front := Portable.bodyBytes b ++ Portable.letters
  have kind : isValidName a.kind = true := by decide
  have names : ∀ entry ∈ a.fields, isValidName entry.1 = true := by decide
  have split : front ++ Text.bytes "point s 2\nend\n" = Portable.encode a := by decide +kernel
  have length : front.length = 36 := by decide +kernel
  have proper : front ≠ Portable.encode a := by decide +kernel
  have limited := limit_length front (Text.bytes "point s 2\nend\n") .ends
  rw [length, split] at limited
  have cut : Portable.CutsTo front a b :=
    ⟨rfl, .inr ⟨"endpoint", .scalar 2, [], by decide, .inl ⟨rfl, by decide⟩⟩⟩
  refine ⟨_, read_eq_ok_iff.2 ⟨[], ?_, rfl⟩, by decide⟩
  rw [show Source.ofBytes (Portable.encode a) = ⟨Portable.encode a, .ends⟩ from rfl,
    show (Settings.withMaxBytes .compact 36).maxBytes.toNat = 36 from rfl, limited]
  exact (Portable.decode_eq_ok_iff_of_proper kind names (length ▸ by decide) ⟨_, split⟩ proper).2
    ⟨rfl, cut⟩

end Record

end SparseTensor
