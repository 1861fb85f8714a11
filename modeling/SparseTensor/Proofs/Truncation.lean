/-
# Records that are cut short are damaged

The record of a node or of a generator that has lost a byte, to the end of its source or to the limit
on the bytes that are read, is refused as damaged, wherever it is cut
(`cut_records_are_damaged`).  Only the line end behind a record can be missing.

It is not read as an archive.  In the formats that mark the end of a record, what is read is read
again when the lost bytes follow, and then the whole record would be read up to an earlier place than
its end (`Record.admitted_of_decode`).  In the portable format a cut behind the letters of the
terminator is read as an archive if they start the name of a field, which no field of a node or of a
generator does (`Portable.CutsTo`).

It is not taken for a record of another version either (`Record.onlyCorrupt_of_front`).  What is left
in front of the cut starts like the record, so the version is found to be missing, or found as it was
written, and behind the place of the version a record can only be damaged.
-/
import SparseTensor.Proofs.CutPortable
import SparseTensor.Proofs.Damage
import SparseTensor.Proofs.Streams

namespace SparseTensor

variable {α β : Type}

/-! ## Fronts of records -/

/-- An archive is read from its own record, or a name of it is refused. -/
theorem Archive.onlyCorrupt_admitted (a : Archive) : OnlyCorrupt a.admitted := by
  unfold admitted
  exact .ite (.foldlM (fun b entry => b.onlyCorrupt_add entry.1 entry.2) _ _)
    (onlyCorrupt_corrupt _)

variable {a : Archive} {front record : List UInt8}

namespace Binary

/-- The header is whole, and then the version is the one that was written, or it is cut, and then
nobody looks at the version. -/
theorem onlyCorrupt_of_front (encoded : encode a = .ok record) (h : front <+: record)
    (reading : Settings) : OnlyCorrupt (decode reading ⟨front, .ends⟩) := by
  rw [encode] at encoded
  split at encoded
  swap
  · cases encoded
  rename_i fits
  obtain rfl := Except.ok.inj encoded
  rw [decode]
  dsimp only
  by_cases short : (front.take headerSize).length < headerSize
  · rw [if_pos short]
    exact onlyCorrupt_corrupt _
  rw [if_neg short]
  have enough : headerSize ≤ front.length := by
    rw [List.length_take] at short
    omega
  have same : front.take headerSize = header (payload a).length := by
    have starts := List.prefix_of_prefix_length_le (List.prefix_append _ _) h
      ((length_header (payload a).length).trans_le enough)
    rw [List.prefix_iff_eq_take.1 starts, length_header]
  rw [same, payloadLength_header fits]
  refine Only.bind (.ite (onlyCorrupt_corrupt _) (Only.ok _)) fun length => ?_
  exact .ite (onlyCorrupt_corrupt _) ((onlyCorrupt_ofPayload _).bind fun b => Only.ok _)

end Binary

namespace JsonRecord

/-- An object that is closed in front of the cut is that of the archive. -/
theorem onlyCorrupt_of_front {writing : Settings} (h : front <+: encode writing a) :
    OnlyCorrupt (decode ⟨front, .ends⟩) := by
  obtain ⟨more, h⟩ := h
  rw [decode]
  split
  · rename_i value rest found
    refine Only.bind ?_ fun b => Only.ok _
    cases value with
    | object members =>
        have again := Json.scan_append_of_object found more
        have scanned := takes_object a .ends 124 writing.pretty [] (Text.bytes "\n")
          (List.forall_mem_nil _)
        rw [h, encode] at again
        obtain ⟨same, -⟩ := Json.Scan.done.inj (again.symm.trans scanned)
        rw [same, ofJson_archiveMembers]
        exact a.onlyCorrupt_admitted
    | _ => exact onlyCorrupt_corrupt _
  · exact onlyCorrupt_corrupt _
  · exact onlyCorrupt_corrupt _
  · rename_i never
    cases never

end JsonRecord

/-! ## Fronts of XML records -/

namespace XmlRecord

open Xml (ascii)

/-- Nothing inside an archive leads outside again. -/
theorem inside_of_onPiece {piece : Xml.Piece} {p further : Progress} (inside : p ≠ .outside)
    (h : onPiece piece p = .ok (.goOn further)) : further ≠ .outside := by
  rintro rfl
  cases p with
  | outside => exact inside rfl
  | inArchive a =>
      cases piece with
      | text bytes => cases h
      | opening tag =>
          obtain ⟨_, _, -, -, -, same⟩ := exists_of_onOpening h
          cases same
      | empty tag =>
          obtain ⟨_, _, _, -, -, -, -, same⟩ := exists_of_onEmpty h
          cases same
      | closing name =>
          rw [onPiece, onClosing] at h
          split at h <;> cases h
      | characterData => cases h
      | ignored => cases h
  | inField a f =>
      cases piece with
      | text bytes =>
          rw [onPiece, onText] at h
          split at h <;> cases h
      | closing name =>
          rw [onPiece, onClosing] at h
          split at h
          · obtain ⟨b, -, h⟩ := exists_of_bind_eq_ok h
            cases h
          · cases h
      | opening tag => cases h
      | empty tag => cases h
      | characterData => cases h
      | ignored => cases h

/-- Inside an archive a piece can only be damaged. -/
theorem onlyCorrupt_onPiece (piece : Xml.Piece) {p : Progress} (inside : p ≠ .outside) :
    OnlyCorrupt (onPiece piece p) := by
  cases piece with
  | text bytes => exact onlyCorrupt_onText bytes p
  | opening tag => exact onlyCorrupt_onOpening tag inside
  | empty tag => exact onlyCorrupt_onEmpty tag inside
  | closing name => exact onlyCorrupt_onClosing name p
  | characterData => exact onlyCorrupt_corrupt _
  | ignored => exact Only.ok _

/-- Pieces fail with a damage where the next one does, and those behind it. -/
theorem onlyCorrupt_pieces_of_next {p : Progress} {bytes : List UInt8}
    (next : ∀ piece rest, Xml.next bytes = .piece piece rest → OnlyCorrupt (onPiece piece p) ∧
      ∀ further, onPiece piece p = .ok (.goOn further) → OnlyCorrupt (pieces .ends further rest)) :
    OnlyCorrupt (pieces .ends p bytes) := by
  rw [pieces.eq_def]
  split
  · rename_i piece rest found
    obtain ⟨here, behind⟩ := next piece rest found
    cases result : onPiece piece p with
    | error fault =>
        rw [result] at here
        exact here
    | ok outcome =>
        cases outcome with
        | goOn further => exact behind further result
        | complete b => exact Only.ok _
  · exact onlyCorrupt_corrupt _
  · rename_i text _ _
    exact (onlyCorrupt_onText text p).bind fun _ => onlyCorrupt_corrupt _
  · exact onlyCorrupt_corrupt _
  · exact onlyCorrupt_corrupt _
  · rename_i never _ _
    cases never

/-- Inside an archive there is only damage, by induction on the bytes that are left. -/
theorem onlyCorrupt_pieces {p : Progress} (inside : p ≠ .outside) (bytes : List UInt8) :
    OnlyCorrupt (pieces .ends p bytes) := by
  induction bytes using (measure List.length).wf.induction generalizing p with
  | h bytes ih =>
      refine onlyCorrupt_pieces_of_next fun piece rest found => ?_
      exact ⟨onlyCorrupt_onPiece piece inside, fun further h =>
        ih rest (Xml.length_next_lt found) (inside_of_onPiece inside h)⟩

/-- A piece in front of the cut is that of the record, and what is left behind it is cut as well. -/
theorem onlyCorrupt_pieces_of_front {p : Progress} {bytes rest : List UInt8} {piece : Xml.Piece}
    (found : Xml.next bytes = .piece piece rest) (here : OnlyCorrupt (onPiece piece p))
    (behind : ∀ further, onPiece piece p = .ok (.goOn further) → ∀ front, front <+: rest →
      OnlyCorrupt (pieces .ends further front)) (h : front <+: bytes) :
    OnlyCorrupt (pieces .ends p front) := by
  obtain ⟨more, rfl⟩ := h
  refine onlyCorrupt_pieces_of_next fun other left early => ?_
  cases (Xml.next_append early more).symm.trans found
  exact ⟨here, fun further h => behind further h left (List.prefix_append left more)⟩

/-- No byte order mark stands at the front of a declaration that is cut. -/
theorem dropMark_of_front {rest : List UInt8} (h : front <+: ascii declarationText ++ rest) :
    dropMark front = front := by
  rw [dropMark, if_neg]
  intro marked
  obtain ⟨more, same⟩ := (List.isPrefixOf_iff_prefix.1 marked).trans h
  have first := congrArg List.head? same
  rw [byteOrderMark_eq] at first
  exact absurd (Option.some.inj (show some 0xEF = some '<'.toUInt8 from first)) (by decide)

/-- The version stands in the tag of the archive, which is whole and as it was written where anybody
looks at it. -/
theorem onlyCorrupt_of_front {writing : Settings} (h : front <+: encode writing a) :
    OnlyCorrupt (decode ⟨front, .ends⟩) := by
  rw [encode, element_eq] at h
  simp only [List.append_assoc] at h
  generalize behind : breakBytes writing.pretty 0 ++ _ = rest at h
  have declaration := next_declaration (List.forall_mem_nil _) rest
  rw [List.nil_append] at declaration
  rw [decode, dropMark_of_front h]
  refine onlyCorrupt_pieces_of_front declaration (Only.ok _) (fun further start front h => ?_) h
  cases start
  rw [← behind, openingBytes_append] at h
  have opening := Xml.next_opening (@isBlankByte_of_mem_breakBytes writing.pretty 0)
    (Element.isValidName_name .archive) (isValidName_of_mem_archiveAttributes a.kind)
    (by simp [archiveAttributes])
  refine onlyCorrupt_pieces_of_front (opening _) ?_ (fun further start front h => ?_) h
  · rw [onPiece, onOpening, ofTag?_tagBytes .archive, openArchive_tagBytes]
    exact Only.bind (.ite (Only.ok _) (onlyCorrupt_corrupt _)) fun _ => Only.ok _
  · rw [onPiece, onOpening, ofTag?_tagBytes .archive] at start
    obtain ⟨x, -, same⟩ := exists_of_bind_eq_ok start
    cases same
    have inside : Progress.inArchive x ≠ .outside := by rintro ⟨⟩
    exact onlyCorrupt_pieces inside front

end XmlRecord

/-! ## Fronts of portable records -/

/-- The words of the front of a text that starts with a word and a blank: at most a front of the word
if there is no more of it, and otherwise the word and those of a front of what follows. -/
theorem Text.words_of_front {w s tail : List Char} (solid : ∀ c ∈ w, isBlank c = false)
    (ne : w ≠ []) (front : s <+: w ++ ' ' :: tail) :
    (words s = [] ∨ words s = [s] ∧ s <+: w) ∨ ∃ t, t <+: tail ∧ words s = w :: words t := by
  rcases List.prefix_or_prefix_of_prefix front (List.prefix_append w _) with inside | ⟨t, rfl⟩
  · left
    rw [words_of_solid fun c hc => solid c (inside.subset hc)]
    split
    · exact .inl rfl
    · exact .inr ⟨rfl, inside⟩
  · have rest := (List.prefix_append_right_inj w).1 front
    cases t with
    | nil =>
        left
        rw [List.append_nil, words_of_solid solid, if_neg ne]
        exact .inr ⟨rfl, List.prefix_rfl⟩
    | cons c t =>
        obtain ⟨rfl, others⟩ := List.cons_prefix_cons.1 rest
        exact .inr ⟨t, others, words_append_cons solid ne t⟩

namespace Portable

/-- A first line is damaged, if the word in the place of the version is the version. -/
theorem onlyCorrupt_headerKind {words : List (List Char)}
    (version : ∀ word, words[1]? = some word → word = Numeral.render recordVersion.toNat) :
    OnlyCorrupt (headerKind words) := by
  refine .ite (onlyCorrupt_corrupt _) ?_
  cases second : words[1]? with
  | none => exact onlyCorrupt_corrupt _
  | some word =>
      have same : recordVersion.toNat.toUInt64.toNat = recordVersion.toNat := by decide
      rw [version word second, number_render (by decide)]
      simp only [bind, Except.bind, same, ne_eq, not_true_eq_false, if_false]
      refine .ite (onlyCorrupt_corrupt _) ?_
      split
      · exact onlyCorrupt_corrupt _
      · exact .ite (Only.ok _) (onlyCorrupt_corrupt _)
      · exact onlyCorrupt_corrupt _

/-- In the front of a first line the version is missing or as it was written, since it is a single
digit. -/
theorem version_of_front {kind s : List Char}
    (front : s <+: [' '].intercalate [magic, Numeral.render recordVersion.toNat, kind]) :
    ∀ word, (Text.words s)[1]? = some word → word = Numeral.render recordVersion.toNat := by
  have digit : Numeral.render recordVersion.toNat = ['1'] := by decide
  intro word second
  rcases Text.words_of_front (solid_of_all (by decide)) (by decide) front with
    (none | ⟨one, -⟩) | ⟨t, behind, more⟩
  · rw [none] at second
    cases second
  · rw [one] at second
    cases second
  · rw [more, List.getElem?_cons_succ] at second
    rw [digit] at behind ⊢
    rcases Text.words_of_front (solid_of_all (by decide)) (by decide) behind with
      (none | ⟨one, inside⟩) | ⟨u, -, more⟩
    · rw [none] at second
      cases second
    · -- a front of one digit with a character in it is the digit
      rw [one] at second
      obtain rfl := Option.some.inj second
      rcases List.prefix_cons_iff.1 inside with rfl | ⟨u, rfl, none⟩
      · cases one
      · rw [List.prefix_nil.1 none]
    · rw [more] at second
      exact (Option.some.inj second).symm

/-- In a first line that is cut there is only damage, if there is in its words. -/
theorem onlyCorrupt_of_cut (noEnd : newline ∉ front)
    (announced : ∀ words, lineWords front = .ok words → OnlyCorrupt (headerKind words)) :
    OnlyCorrupt (decode ⟨front, .ends⟩) := by
  by_cases none : front = []
  · subst none
    rw [decode, record.eq_def]
    exact onlyCorrupt_corrupt _
  rw [decode_lastLine (nextLine_of_cut noEnd none)]
  cases read : lineWords front with
  | error fault =>
      have damaged := onlyCorrupt_lineWords front
      rw [read] at damaged
      exact damaged
  | ok words =>
      refine .ite (onlyCorrupt_corrupt _) ?_
      exact (announced words read).bind fun _ => onlyCorrupt_corrupt _

/-- The version is in the first line, and this line is whole, or what is left of it is all there
is. -/
theorem onlyCorrupt_of_front (kind : isValidName a.kind = true) (h : front <+: encode a) :
    OnlyCorrupt (decode ⟨front, .ends⟩) := by
  have header := solid_header (solid_of_isValidName kind)
  rw [encode_eq] at h
  by_cases whole : lineBytes [magic, Numeral.render recordVersion.toNat, a.kind.toList] <+: front
  · obtain ⟨rest, rfl⟩ := whole
    rw [decode_of_line (nextLine_lineBytes header _) (lineWords_frontBytes header)
        (filter_header a.kind ▸ List.cons_ne_nil _ _), headerKind_eq_ok_iff.2 ⟨kind, rfl⟩]
    exact onlyCorrupt_entries _ rest
  · obtain ⟨inside, noEnd⟩ := cut_in_first_line header h whole
    have ascii : ∀ c ∈ [' '].intercalate [magic, Numeral.render recordVersion.toNat,
        a.kind.toList], c.toNat < 128 := by
      refine Text.forall_mem_intercalate (by decide) fun w hw => ?_
      simp only [List.mem_cons, List.not_mem_nil, or_false] at hw
      rcases hw with rfl | rfl | rfl
      · exact Text.ascii_of_isAscii (by decide)
      · exact (Text.plain_render _).ascii
      · exact (Text.plain_of_isValidName kind).ascii
    obtain ⟨s, start, rfl⟩ := Text.exists_prefix_of_prefix_bytes ascii inside
    refine onlyCorrupt_of_cut noEnd fun words read => ?_
    rw [lineWords, Text.ofBytes?_bytes] at read
    cases read
    rw [String.toList_ofList]
    exact onlyCorrupt_headerKind (version_of_front start)

end Portable

/-! ## Records that are cut -/

namespace Record

/-- The end of a record that can be missing. -/
def lineEnd : Format → List UInt8
  | .binary => []
  | .portable | .json | .xml => Text.bytes "\n"

variable {format : Format} {reading writing : Settings}

/-- A record of a text format ends with a line end. -/
theorem exists_body (encoded : encode format writing a = .ok record) :
    ∃ body, record = body ++ lineEnd format := by
  cases format with
  | binary => exact ⟨record, (List.append_nil record).symm⟩
  | portable =>
      obtain rfl := Except.ok.inj encoded
      exact ⟨Portable.bodyBytes a ++ Portable.letters, (Portable.bodyBytes_letters a).symm⟩
  | json =>
      obtain rfl := Except.ok.inj encoded
      exact ⟨_, rfl⟩
  | xml =>
      obtain rfl := Except.ok.inj encoded
      exact ⟨_, rfl⟩

/-- In the front of a record there is only damage. -/
theorem onlyCorrupt_of_front (kind : isValidName a.kind = true)
    (encoded : encode format writing a = .ok record) (h : front <+: record) :
    OnlyCorrupt (decode format reading ⟨front, .ends⟩) := by
  cases format with
  | binary => exact Binary.onlyCorrupt_of_front encoded h reading
  | portable =>
      obtain rfl := Except.ok.inj encoded
      exact Portable.onlyCorrupt_of_front kind h
  | json =>
      obtain rfl := Except.ok.inj encoded
      exact JsonRecord.onlyCorrupt_of_front h
  | xml =>
      obtain rfl := Except.ok.inj encoded
      exact XmlRecord.onlyCorrupt_of_front h

/-- A record of which more is missing than its line end is not read, if no field starts like the
terminator of a portable record. -/
theorem decode_ne_ok_of_cut (kind : isValidName a.kind = true)
    (names : ∀ entry ∈ a.fields, isValidName entry.1 = true)
    (endless : ∀ entry ∈ a.fields, ¬ Portable.terminator <+: entry.1.toList)
    (encoded : encode format writing a = .ok record) (h : front <+: record)
    (cut : front.length + (lineEnd format).length < record.length) (short : front.length < 2 ^ 64)
    (b : Archive) (left : List UInt8) :
    decode format reading ⟨front, .ends⟩ ≠ .ok (b, left) := by
  intro decoded
  by_cases portable : format = .portable
  · subst portable
    obtain rfl := Except.ok.inj encoded
    have proper : front ≠ Portable.encode a := by
      rintro rfl
      omega
    obtain ⟨-, found⟩ :=
      (Portable.decode_eq_ok_iff_of_proper kind names short h proper).1 decoded
    -- only the line end is missing
    obtain ⟨-, whole⟩ := found.eq endless
    have one : (Text.bytes "\n").length = 1 := by decide +kernel
    rw [← Portable.bodyBytes_letters, ← whole, List.length_append, lineEnd, one] at cut
    exact Nat.lt_irrefl _ cut
  · obtain ⟨more, rfl⟩ := h
    have whole := decode_append portable decoded more
    rw [← List.append_nil (front ++ more)] at whole
    obtain ⟨-, rest⟩ := admitted_of_decode encoded (fun same => absurd same portable) whole
    have lengths := congrArg List.length rest
    have same : unread format = lineEnd format := by
      cases format <;> first | rfl | exact absurd rfl portable
    rw [List.length_append, List.append_nil, same] at lengths
    rw [List.length_append] at cut
    omega

/-- A record of which more is missing than its line end is damaged. -/
theorem exists_corrupt_of_cut (kind : isValidName a.kind = true)
    (names : ∀ entry ∈ a.fields, isValidName entry.1 = true)
    (endless : ∀ entry ∈ a.fields, ¬ Portable.terminator <+: entry.1.toList)
    (encoded : encode format writing a = .ok record) (h : front <+: record)
    (cut : front.length + (lineEnd format).length < record.length) {s : Source}
    (limited : s.limit reading.maxBytes.toNat = .ofBytes front) :
    ∃ cause, read format reading s = .error (.corrupt cause) := by
  have damaged : OnlyCorrupt (decode format reading ⟨front, .ends⟩) :=
    onlyCorrupt_of_front kind encoded h
  have short := length_lt_of_limit_eq limited
  rw [read, limited, Source.ofBytes]
  cases decoded : decode format reading ⟨front, .ends⟩ with
  | ok found =>
      exact absurd decoded
        (decode_ne_ok_of_cut kind names endless encoded h cut short found.1 found.2)
  | error fault =>
      obtain ⟨cause, rfl⟩ := damaged.exists_corrupt decoded
      exact ⟨cause, rfl⟩

end Record

/-! ## Saving and loading -/

namespace Forest

variable {f g : Forest α} {format : Format} {settings : Settings} {record : List UInt8}

/-- An archive that is saved has this record. -/
theorem encode_of_saveArchive (saved : saveArchive format settings .unlimited a f = .ok record g) :
    Record.encode format settings a = .ok record := by
  cases encoded : Record.encode format settings a with
  | ok bytes =>
      cases (saveArchive_eq encoded f).symm.trans saved
      rfl
  | error fault =>
      have failed : saveArchive format settings .unlimited a f = .error fault f := by
        unfold saveArchive
        rw [Record.write, encoded]
        rfl
      cases failed.symm.trans saved

/-- A node that is saved has a record of some shape and some cells. -/
theorem exists_snapshot_of_save {id : NodeId}
    (saved : save id format settings .unlimited f = .ok record g) :
    ∃ s : Snapshot, Record.encode format settings s.toArchive = .ok record := by
  cases seen : snapshot id f with
  | error fault h => cases (bind_of_error seen).symm.trans saved
  | ok s h => exact ⟨s, encode_of_saveArchive ((bind_of_ok seen).symm.trans saved)⟩

end Forest

/-- An item that is saved has a record of some value. -/
theorem Item.exists_value_of_save {f g : Forest α} {item : Item} {format : Format}
    {settings : Settings} {record : List UInt8}
    (saved : item.save format settings f = .ok record g) :
    ∃ v : Value, Record.encode format settings v.archive = .ok record := by
  cases item with
  | node id =>
      obtain ⟨s, encoded⟩ := Forest.exists_snapshot_of_save saved
      exact ⟨.node s, encoded⟩
  | generator r => exact ⟨.generator r, Forest.encode_of_saveArchive saved⟩

/-- No field of a node or of a generator starts like the terminator of a portable record. -/
theorem Value.not_terminator_prefix (v : Value) :
    ∀ entry ∈ v.archive.fields, ¬ Portable.terminator <+: entry.1.toList := by
  cases v with
  | node s =>
      rw [archive, s.fields_toArchive, List.forall_mem_cons, List.forall_mem_singleton]
      exact show ¬ Portable.terminator <+: "dimensions".toList ∧
        ¬ Portable.terminator <+: "sparse".toList by decide
  | generator r =>
      rw [archive, r.fields_toArchive, List.forall_mem_cons, List.forall_mem_singleton]
      exact show ¬ Portable.terminator <+: "position".toList ∧
        ¬ Portable.terminator <+: "seed".toList by decide

/-- Nothing is loaded from a source that is not read. -/
theorem Kind.load_of_error {format : Format} {settings : Settings} {source : Source} {fault : Fault}
    (failed : Record.read format settings source = .error fault) (kind : Kind) (f : Forest α) :
    ∃ g, kind.load format settings source f = .error fault g ∧ g.nodes = f.nodes := by
  cases kind with
  | node =>
      have loaded := f.load_eq format settings source
      rw [Record.readAs_of_error failed] at loaded
      obtain ⟨g, loaded, nodes⟩ := loaded
      exact ⟨g, bind_of_error loaded, nodes⟩
  | generator =>
      have loaded := f.loadGenerator_eq format settings source
      rw [Record.readAs_of_error failed] at loaded
      obtain ⟨g, loaded, nodes⟩ := loaded
      exact ⟨g, bind_of_error loaded, nodes⟩

/-- A record that was saved, of a node or of a generator, in any format, is refused as damaged if more
of it is missing than its line end: where its front is all there is, whatever the limit on the bytes
that are read, and where such a limit cuts it, whatever stands behind it.  Nothing is created. -/
theorem cut_records_are_damaged {item : Item} {format : Format} {writing : Settings}
    {f g : Forest α} {record : List UInt8}
    (saved : item.save format writing f = .ok record g) :
    ∃ body, record = body ++ Record.lineEnd format ∧
      ∀ (kind : Kind) (reading : Settings) (h : Forest α),
        (∀ n < body.length, ∃ cause k,
          kind.load format reading (.ofBytes (record.take n)) h = .error (.corrupt cause) k ∧
            k.nodes = h.nodes) ∧
        (reading.maxBytes.toNat < body.length → ∀ (suffix : List UInt8) (ending : Ending),
          ∃ cause k,
            kind.load format reading ⟨record ++ suffix, ending⟩ h = .error (.corrupt cause) k ∧
              k.nodes = h.nodes) := by
  obtain ⟨v, encoded⟩ := Item.exists_value_of_save saved
  obtain ⟨body, whole⟩ := Record.exists_body encoded
  have length := congrArg List.length whole
  rw [List.length_append] at length
  refine ⟨body, whole, fun kind reading h => ?_⟩
  have damaged : ∀ n < body.length, ∀ s : Source,
      s.limit reading.maxBytes.toNat = .ofBytes (record.take n) →
        ∃ cause k, kind.load format reading s h = .error (.corrupt cause) k ∧ k.nodes = h.nodes := by
    intro n cut s limited
    have taken : (record.take n).length ≤ n := List.length_take_le ..
    obtain ⟨cause, failed⟩ := Record.exists_corrupt_of_cut v.isValidName_archive.1
      v.isValidName_archive.2 v.not_terminator_prefix encoded (List.take_prefix n record) (by omega)
      limited
    exact ⟨cause, kind.load_of_error failed h⟩
  constructor
  · intro n cut
    -- the limit may cut off even more
    refine damaged (min n reading.maxBytes.toNat) (by omega) _ ?_
    rw [Source.limit_ofBytes, List.take_take, Nat.min_comm]
  · intro cut suffix ending
    refine damaged _ cut _ ?_
    rw [Source.limit, if_pos (by rw [List.length_append]; omega),
      List.take_append_of_le_length (by omega)]

/-- The indented XML record of a view without its last bracket and its line end, and the portable
record of a generator under a limit that cuts its last line off. -/
theorem cut_records_are_damaged_view_and_generator : ∃ f : Forest Unit,
    (∃ record g, (Item.node 1).save .xml .humanReadable f = .ok record g ∧ record.length = 195 ∧
      ∃ cause k, Kind.load .xml .standard (.ofBytes (record.take 193)) .node f =
        .error (.corrupt cause) k ∧ k.nodes = f.nodes) ∧
    ∃ record g, (Item.generator ⟨7, ⟨3, by decide⟩⟩).save .portable .compact f = .ok record g ∧
      record.length = 57 ∧
        ∃ cause k, Kind.load .portable (Settings.withMaxBytes .compact 53)
            ⟨record ++ [0x3C], .fails .other⟩ .generator f = .error (.corrupt cause) k ∧
          k.nodes = f.nodes := by
  obtain ⟨f, reached, -, -, has⟩ := exists_stale_view
  have one : (Text.bytes "\n").length = 1 := by decide +kernel
  have saves : ∀ {item : Item} {v : Value} {format : Format} {writing : Settings} {n : Nat},
      item.Has f v → Record.lineEnd format = Text.bytes "\n" →
        (Record.encode format writing v.archive).toOption.map List.length = some (n + 1) →
          ∃ record g, item.save format writing f = .ok record g ∧ record.length = n + 1 ∧
            ∀ body, record = body ++ Record.lineEnd format → body.length = n := by
    intro item v format writing n has line length
    cases encoded : Record.encode format writing v.archive with
    | error fault =>
        rw [encoded] at length
        cases length
    | ok record =>
        rw [encoded] at length
        have length : record.length = n + 1 := Option.some.inj length
        obtain ⟨g, saved⟩ := Item.save_eq reached.ordered.forest.sound has encoded
        refine ⟨record, g, saved, length, fun body whole => ?_⟩
        rw [whole, List.length_append, line, one] at length
        exact Nat.succ.inj length
  refine ⟨f, ?_, ?_⟩
  · obtain ⟨record, g, saved, length, bodies⟩ :=
      @saves _ _ .xml .humanReadable 194 has rfl (by decide +kernel)
    obtain ⟨body, whole, damaged⟩ := cut_records_are_damaged saved
    have cut : 193 < body.length := bodies body whole ▸ by decide
    exact ⟨record, g, saved, length, (damaged .node .standard f).1 193 cut⟩
  · obtain ⟨record, g, saved, length, bodies⟩ :=
      @saves _ _ .portable .compact 56 (.generator ⟨7, ⟨3, by decide⟩⟩) rfl (by decide +kernel)
    obtain ⟨body, whole, damaged⟩ := cut_records_are_damaged saved
    have cut : (Settings.withMaxBytes .compact 53).maxBytes.toNat < body.length :=
      bodies body whole ▸ by decide
    exact ⟨record, g, saved, length, (damaged .generator _ f).2 cut [0x3C] (.fails .other)⟩

end SparseTensor
