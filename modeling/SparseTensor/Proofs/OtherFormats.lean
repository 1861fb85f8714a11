/-
# Formats are not confused

The records of different formats start with different bytes (`Format.lead`), none of them a blank
and none the start of a byte order mark.  So a reader that is handed a record of another format
finds out at the first byte, whatever the record holds and whatever follows it: no blanks are there
to be skipped, and nothing that it looks at before its own mark of recognition can fail in another
way than by damage.  It looks for no version then, and the source ends where its bytes do, so the
record is damaged and nothing else (`read_other_format`).

A reader that is kept from the first byte by its limit finds a record that is cut short.
-/
import SparseTensor.Proofs.Joints
import SparseTensor.Proofs.JsonValues
import SparseTensor.Proofs.Truncation
import SparseTensor.Proofs.XmlRecords

namespace SparseTensor

/-! ## First bytes -/

namespace Format

/-- The byte that the records of a format start with. -/
def lead : Format → UInt8
  | binary => 'S'.toUInt8
  | portable => 's'.toUInt8
  | json => '\x7b'.toUInt8
  | xml => '<'.toUInt8

/-- What the reader of a format can say of bytes that another format's records start with. -/
def refusals : Format → List Corruption
  | binary => [.truncated .binary, .noBinaryMagic]
  | portable => [.truncated .portable, .invalid .portable, .noPortableMagic]
  | json => [.truncated .json, .malformedJson]
  | xml => [.truncated .xml, .strayText]

/-- The reader of a format ends with one of these. -/
def Refuses {α : Type} (f : Format) (e : Except Fault α) : Prop :=
  ∃ cause ∈ f.refusals, e = .error (.corrupt cause)

/-- Nothing comes behind a refusal. -/
theorem Refuses.bind {α β : Type} {f : Format} {e : Except Fault α} (h : f.Refuses e)
    (k : α → Except Fault β) : f.Refuses (e >>= k) := by
  obtain ⟨cause, known, rfl⟩ := h
  exact ⟨cause, known, rfl⟩

/-- A format is known by the byte that its records start with. -/
theorem lead_injective : Function.Injective lead := by
  intro f g same
  cases f <;> cases g <;> first | rfl | exact absurd same (by decide)

/-- No record starts with a blank. -/
theorem isBlankByte_lead (f : Format) : Text.isBlankByte f.lead = false := by
  cases f <;> decide

/-- Every record starts with an ASCII character. -/
theorem lead_lt (f : Format) : f.lead < 0x80 := by
  cases f <;> decide

/-- The character that the records of a format start with is not white space either. -/
theorem isBlank_of_toUInt8_eq_lead {f : Format} {c : Char} (ascii : c.toNat < 128)
    (same : c.toUInt8 = f.lead) : Text.isBlank c = false := by
  have each : ∀ n < 128, ∀ g : Format, (Char.ofNat n).toUInt8 = g.lead →
      Text.isBlank (Char.ofNat n) = false := by
    intro n hn g
    revert n
    cases g <;> decide
  exact Text.forall_ascii (P := fun c => ∀ g : Format, c.toUInt8 = g.lead → Text.isBlank c = false)
    each ascii f same

/-- Bytes that are cut from a record of another format. -/
def IsStrange (f : Format) (bytes : List UInt8) : Prop :=
  ∀ b ∈ bytes.head?, ∃ g, g ≠ f ∧ b = g.lead

end Format

/-- The record of an archive starts as all records of its format do. -/
theorem Record.head?_encode {format : Format} {settings : Settings} {a : Archive}
    {record : List UInt8} (encoded : encode format settings a = .ok record) :
    record.head? = some format.lead := by
  cases format with
  | binary =>
      rw [encode, Binary.encode] at encoded
      split at encoded
      · cases encoded
        have first : Binary.magic.head? = some 'S'.toUInt8 := by decide +kernel
        rw [Binary.header, List.head?_append, List.head?_append, List.head?_append, first]
        rfl
      · cases encoded
  | portable =>
      cases encoded
      have first : (Portable.frontBytes
          [Portable.magic, Numeral.render recordVersion.toNat, a.kind.toList]).head? =
            some 's'.toUInt8 := by
        rw [Portable.frontBytes, List.intercalate_cons_cons, List.append_assoc,
          Text.bytes_ofList_append, List.head?_append]
        have magic : (Text.bytes (String.ofList Portable.magic)).head? = some 's'.toUInt8 := by
          decide +kernel
        rw [magic]
        rfl
      rw [Portable.encode_eq, Portable.lineBytes_eq, List.head?_append, List.head?_append, first]
      rfl
  | json =>
      cases encoded
      rfl
  | xml =>
      cases encoded
      have first : (Text.bytes (String.ofList XmlRecord.declarationText)).head? =
          some '<'.toUInt8 := by decide +kernel
      rw [XmlRecord.encode, XmlRecord.element, XmlRecord.text]
      simp only [Text.bytes_ofList_append, List.append_assoc]
      rw [List.head?_append, first]
      rfl

/-! ## Readers meet a strange byte -/

variable {bytes : List UInt8}

/-- The letters of a binary record are not there, if there are enough bytes for a header. -/
theorem Binary.refuses_strange (strange : Format.binary.IsStrange bytes) (settings : Settings) :
    Format.binary.Refuses (decode settings ⟨bytes, .ends⟩) := by
  rw [decode]
  dsimp only
  by_cases short : (bytes.take headerSize).length < headerSize
  · rw [if_pos short]
    exact ⟨.truncated .binary, .head _, rfl⟩
  · rw [if_neg short]
    cases bytes with
    | nil => exact absurd (by decide) short
    | cons b bytes =>
        obtain ⟨g, other, rfl⟩ := strange b rfl
        have noMagic : ((g.lead :: bytes).take headerSize).take 4 ≠ magic := by
          intro same
          have first := congrArg List.head? same
          have own : magic.head? = some Format.binary.lead := by decide +kernel
          rw [own] at first
          exact other (Format.lead_injective (Option.some.inj first))
        rw [payloadLength, if_pos noMagic]
        exact ⟨.noBinaryMagic, by decide, rfl⟩

/-- A text starts with the ASCII character that its bytes start with. -/
theorem Text.exists_cons_of_ofBytes? {b : UInt8} {s : String} (ascii : b < 0x80)
    (read : ofBytes? (b :: bytes) = some s) :
    ∃ c t, s.toList = c :: t ∧ c.toNat < 128 ∧ c.toUInt8 = b := by
  have written := bytes_of_ofBytes? read
  rw [← String.ofList_toList (s := s)] at written
  cases characters : s.toList with
  | nil =>
      rw [characters] at written
      cases written
  | cons c t =>
      refine ⟨c, t, rfl, ?_⟩
      rw [characters, ← List.singleton_append, bytes_ofList_append] at written
      -- the bytes of the first character are not empty, so `b` is among them
      have first : b ∈ Text.bytes (String.ofList [c]) := by
        have some := length_le_bytes [c]
        cases own : Text.bytes (String.ofList [c]) with
        | nil =>
            rw [own] at some
            exact absurd some (Nat.not_succ_le_zero 0)
        | cons d ds =>
            rw [own] at written
            rw [(List.cons.inj written).1]
            exact List.mem_cons_self
      obtain ⟨d, hd, small, same⟩ := toUInt8_mem_of_mem_bytes first ascii
      obtain rfl := List.mem_singleton.1 hd
      exact ⟨small, same⟩

/-- The first word of a text that starts with it starts as the text does. -/
theorem Text.exists_words_cons {c : Char} (solid : isBlank c = false) (t : List Char) :
    ∃ w ws, words (c :: t) = (c :: w) :: ws := by
  obtain ⟨run, back, split, inside, blank⟩ := exists_first_run t
  have whole : ∀ d ∈ c :: run, isBlank d = false := by
    intro d hd
    rcases List.mem_cons.1 hd with rfl | hd
    · exact solid
    · exact inside d hd
  refine ⟨run, words back, ?_⟩
  rw [split, ← List.cons_append, words_append (.inr blank), words_of_solid whole,
    if_neg (List.cons_ne_nil c run)]
  rfl

/-- A first line that starts with a strange byte is not text, or it has words and the first is not
that of a portable record. -/
theorem Portable.refuses_line {g : Format} (other : g ≠ .portable) (front : List UInt8) :
    Format.portable.Refuses (lineWords (g.lead :: front)) ∨
      ∃ w ws, lineWords (g.lead :: front) = .ok (w :: ws) ∧
        Format.portable.Refuses (headerKind (w :: ws)) := by
  cases read : Text.ofBytes? (g.lead :: front) with
  | none =>
      left
      refine ⟨.invalid .portable, by decide, ?_⟩
      rw [lineWords, read]
  | some s =>
      right
      obtain ⟨c, t, characters, ascii, first⟩ := Text.exists_cons_of_ofBytes? g.lead_lt read
      obtain ⟨w, ws, cut⟩ :=
        Text.exists_words_cons (Format.isBlank_of_toUInt8_eq_lead ascii first) t
      refine ⟨c :: w, ws, ?_, .noPortableMagic, by decide, ?_⟩
      · rw [lineWords, read]
        dsimp only
        rw [characters, cut]
      · have noMagic : ((c :: w) :: ws).head? ≠ some magic := by
          intro same
          have same : c = 's' := (List.cons.inj (Option.some.inj same)).1
          subst same
          exact other (Format.lead_injective first.symm)
        rw [headerKind, if_pos noMagic]
        rfl

/-- The first line is not blank, so it is the one that has to announce a record. -/
theorem Portable.refuses_strange (strange : Format.portable.IsStrange bytes) :
    Format.portable.Refuses (decode ⟨bytes, .ends⟩) := by
  cases bytes with
  | nil =>
      refine ⟨.truncated .portable, by decide, ?_⟩
      rw [decode, record.eq_def]
      rfl
  | cons b bytes =>
      obtain ⟨g, other, rfl⟩ := strange b rfl
      have inLine : g.lead ≠ newline := by
        intro same
        exact absurd g.isBlankByte_lead (same ▸ by decide)
      have found : nextLine (g.lead :: bytes) = .lastLine (g.lead :: bytes) ∨
          ∃ front rest, nextLine (g.lead :: bytes) = .line (g.lead :: front) rest := by
        rw [nextLine, List.dropWhile_cons_of_pos (by simpa using inLine),
          List.takeWhile_cons_of_pos (by simpa using inLine)]
        cases bytes.dropWhile (· ≠ newline) with
        | nil => exact .inl rfl
        | cons d rest => exact .inr ⟨_, rest, rfl⟩
      rcases found with last | ⟨front, rest, line⟩
      · rw [decode_lastLine last]
        rcases refuses_line other bytes with noText | ⟨w, ws, read, noMagic⟩
        · exact noText.bind _
        · rw [read]
          exact noMagic.bind _
      · rw [decode_line line]
        rcases refuses_line other front with noText | ⟨w, ws, read, noMagic⟩
        · exact noText.bind _
        · rw [read]
          exact noMagic.bind _

/-- No value starts with a strange byte. -/
theorem JsonRecord.refuses_strange (strange : Format.json.IsStrange bytes) :
    Format.json.Refuses (decode ⟨bytes, .ends⟩) := by
  cases bytes with
  | nil => exact ⟨.truncated .json, .head _, rfl⟩
  | cons b bytes =>
      obtain ⟨g, other, rfl⟩ := strange b rfl
      refine ⟨.malformedJson, by decide, ?_⟩
      obtain ⟨inner, starts, -⟩ := Json.scan_value .ends Json.maxLevels (List.forall_mem_nil _)
        g.isBlankByte_lead bytes
      have refused : Json.startingWith .ends inner g.lead bytes = .malformed := by
        cases g with
        | json => exact absurd rfl other
        | binary => rfl
        | portable => rfl
        | xml => rfl
      rw [List.nil_append, refused] at starts
      rw [decode]
      dsimp only
      rw [starts]

/-- Text up to the end of a source is looked at before the end is. -/
theorem XmlRecord.pieces_of_lastText {p : Progress} {run : List UInt8}
    (last : Xml.next bytes = .lastText run) :
    pieces .ends p bytes = (do
      let _ ← onText run p
      throw (.corrupt (.truncated .xml))) := by
  rw [pieces.eq_def]
  split
  · rename_i found
    cases last.symm.trans found
  · rename_i found
    cases last.symm.trans found
  · rename_i found _
    cases last.symm.trans found
    rfl
  · rename_i found _
    cases last.symm.trans found
  · rename_i found _
    cases last.symm.trans found
  · rename_i never _ _
    cases never

/-- A strange byte is text, which must not stand in front of an archive. -/
theorem XmlRecord.refuses_strange (strange : Format.xml.IsStrange bytes) :
    Format.xml.Refuses (decode ⟨bytes, .ends⟩) := by
  cases bytes with
  | nil =>
      refine ⟨.truncated .xml, .head _, ?_⟩
      rw [decode, pieces.eq_def]
      rfl
  | cons b bytes =>
      obtain ⟨g, other, rfl⟩ := strange b rfl
      refine ⟨.strayText, by decide, ?_⟩
      have unmarked : dropMark (g.lead :: bytes) = g.lead :: bytes := by
        rw [dropMark, if_neg]
        intro marked
        have first := (List.cons_prefix_cons.1
          (byteOrderMark_eq ▸ List.isPrefixOf_iff_prefix.1 marked)).1
        exact absurd g.lead_lt (first ▸ by decide)
      have text : g.lead ≠ Xml.opener := fun same => other (Format.lead_injective same)
      have found : (∃ run, Xml.next (g.lead :: bytes) = .lastText run) ∨
          ∃ run rest, Xml.next (g.lead :: bytes) = .piece (.text run) rest := by
        rw [Xml.next, List.dropWhile_cons_of_neg (by simp [g.isBlankByte_lead])]
        dsimp only
        rw [if_neg text]
        cases bytes.dropWhile Xml.isTextByte with
        | nil => exact .inl ⟨_, rfl⟩
        | cons d rest => exact .inr ⟨_, _, rfl⟩
      rw [decode, unmarked]
      rcases found with ⟨run, last⟩ | ⟨run, rest, piece⟩
      · rw [pieces_of_lastText last]
        rfl
      · rw [pieces_of_piece piece]
        rfl

/-! ## Records of other formats -/

/-- A reader refuses strange bytes. -/
theorem Record.refuses_strange {format : Format} (strange : format.IsStrange bytes)
    (settings : Settings) : format.Refuses (decode format settings ⟨bytes, .ends⟩) := by
  cases format with
  | binary => exact Binary.refuses_strange strange settings
  | portable => exact Portable.refuses_strange strange
  | json => exact JsonRecord.refuses_strange strange
  | xml => exact XmlRecord.refuses_strange strange

/-- A record that is read in another format than it was written in is damaged, whatever its archive
holds, whatever follows it, and wherever the limit of the reader lies: it is not read, and neither
its version nor its source is to blame. -/
theorem read_other_format {format other : Format} (differ : format ≠ other) (a : Archive)
    (writing reading : Settings) {record : List UInt8}
    (encoded : Record.encode format writing a = .ok record) (suffix : List UInt8) :
    ∃ cause ∈ other.refusals, Record.read other reading (.ofBytes (record ++ suffix)) =
      .error (.corrupt cause) := by
  have strange : other.IsStrange ((record ++ suffix).take reading.maxBytes.toNat) := by
    intro b hb
    rw [List.head?_take] at hb
    split at hb
    · cases hb
    · rw [List.head?_append, Record.head?_encode encoded] at hb
      cases hb
      exact ⟨format, differ, rfl⟩
  show other.Refuses _
  rw [Record.read, Source.limit_ofBytes]
  exact (Record.refuses_strange strange reading).bind _

/-- A binary record whose kind could be the start of an object and of an element, with an object
behind it, is neither. -/
theorem read_binary_record_as_json :
    Format.binary ≠ Format.json ∧ ∃ record,
      Record.encode .binary .compact (Archive.empty "\x7b\n<") = .ok record ∧
        ∃ cause ∈ Format.json.refusals,
          Record.read .json .humanReadable (.ofBytes (record ++ Text.bytes "\x7b\x7d")) =
            .error (.corrupt cause) := by
  have differ : Format.binary ≠ Format.json := by decide
  have encoded : Record.encode .binary .compact (Archive.empty "\x7b\n<") =
      .ok (Text.bytes "SDRB" ++ [1, 0, 5, 0, 0, 0, 3, 0x7B, 0x0A, 0x3C, 0]) := by decide +kernel
  exact ⟨differ, _, encoded,
    read_other_format differ _ .compact .humanReadable encoded (Text.bytes "\x7b\x7d")⟩

end SparseTensor
