/-
# Sources that fail

A source that fails inside a record makes the load fail, in every format and wherever it fails
(`Record.decode_of_failing`).  It never makes a value, since what is read from the front of a record
would be read from the whole of it, up to an earlier place than its end.  And it is never taken for a
record of bad bytes, since bytes that nothing can mend stay as they are in the whole record.

JSON and XML readers report the failure of the source as it is.  The two other readers look at the
kind of the failure: an unexpected end and invalid data are reported as damage of the record, every
other kind as it is (`Record.failure_eq_io_iff`).
-/
import SparseTensor.Proofs.DeadEnds
import SparseTensor.Proofs.Truncation

namespace SparseTensor

variable {α : Type} {front more rest : List UInt8} {kind : IoKind} {a b : Archive}
  {settings : Settings}

/-! ## Portable records -/

namespace Portable

/-- A line with its end is the same whatever follows. -/
theorem nextLine_append {line : List UInt8} (h : nextLine front = .line line rest)
    (more : List UInt8) : nextLine (front ++ more) = .line line (rest ++ more) := by
  rw [nextLine] at h
  split at h
  · rename_i b behind left
    cases h
    rw [nextLine, dropWhile_append_of_eq_cons left]
    show NextLine.line ((front ++ more).takeWhile (· ≠ newline)) (rest ++ more) = _
    rw [takeWhile_append_of_dropWhile_eq_cons left]
  · split at h <;> cases h

/-- What is no whole line in front of a failure is not looked at. -/
theorem entries_of_stop (stop : ∀ line rest, nextLine front ≠ .line line rest) (a : Archive) :
    entries (.fails kind) a front = .error (readFailure .portable (.fails kind)) := by
  rw [entries.eq_def]
  split
  · rename_i found
    exact absurd found (stop _ _)
  · rename_i never
    cases never
  · rename_i never
    cases never
  · rename_i same _
    cases same
    rfl

theorem decode_of_stop (stop : ∀ line rest, nextLine front ≠ .line line rest) :
    decode ⟨front, .fails kind⟩ = .error (readFailure .portable (.fails kind)) := by
  rw [decode, record.eq_def]
  split
  · rename_i found
    exact absurd found (stop _ _)
  · rename_i never
    cases never
  · rename_i never
    cases never
  · rfl

/-- In front of a failure the lines of a record are read up to the last whole one. -/
theorem entries_of_failing (h : entries (.fails kind) a (front ++ more) = .ok (b, rest))
    (inside : rest.length < more.length) :
    entries (.fails kind) a front = .error (readFailure .portable (.fails kind)) := by
  induction front using (measure List.length).wf.induction generalizing a with
  | h front ih =>
      cases found : nextLine front with
      | line line left =>
          rw [entries_of_line (nextLine_append found more)] at h
          rw [entries_of_line found]
          obtain ⟨words, read, h⟩ := exists_of_bind_eq_ok h
          rw [read]
          simp only [bind, Except.bind]
          split at h
          · -- the terminator would have been the end of the whole record
            cases h
            rw [List.length_append] at inside
            omega
          rename_i noEnd
          obtain ⟨extended, put, h⟩ := exists_of_bind_eq_ok h
          rw [if_neg noEnd, put]
          exact ih left (length_rest_lt found) h
      | lastLine line => exact entries_of_stop (by simp [found]) a
      | nothing => exact entries_of_stop (by simp [found]) a

/-- A record in front of whose end the source fails is not read. -/
theorem decode_of_failing (h : decode ⟨front ++ more, .fails kind⟩ = .ok (a, rest))
    (inside : rest.length < more.length) :
    decode ⟨front, .fails kind⟩ = .error (readFailure .portable (.fails kind)) := by
  induction front using (measure List.length).wf.induction with
  | h front ih =>
      cases found : nextLine front with
      | line line left =>
          rw [decode_line (nextLine_append found more)] at h
          rw [decode_line found]
          obtain ⟨words, read, h⟩ := exists_of_bind_eq_ok h
          rw [read]
          simp only [bind, Except.bind]
          split at h
          · rename_i blank
            rw [if_pos blank]
            exact ih left (length_rest_lt found) h
          · rename_i header
            obtain ⟨announced, kinds, h⟩ := exists_of_bind_eq_ok h
            rw [if_neg header, kinds]
            exact entries_of_failing h inside
      | lastLine line => exact decode_of_stop (by simp [found])
      | nothing => exact decode_of_stop (by simp [found])

end Portable

/-! ## Binary records -/

namespace Binary

/-- A record in front of whose end the source fails is not read. -/
theorem decode_of_failing (h : decode settings ⟨front ++ more, .fails kind⟩ = .ok (a, rest))
    (inside : rest.length < more.length) :
    decode settings ⟨front, .fails kind⟩ = .error (readFailure .binary (.fails kind)) := by
  rw [decode] at h ⊢
  dsimp only at h ⊢
  by_cases short : (front.take headerSize).length < headerSize
  · rw [if_pos short]
  have header : headerSize ≤ front.length := by
    rw [List.length_take] at short
    omega
  rw [List.take_append_of_le_length header, if_neg short,
    List.drop_append_of_le_length header] at h
  rw [if_neg short]
  obtain ⟨length, announced, h⟩ := exists_of_bind_eq_ok h
  rw [announced]
  simp only [bind, Except.bind]
  refine if_pos ?_
  -- a whole payload would be followed by all of what the source does not deliver
  by_contra complete
  have enough : length ≤ (front.drop headerSize).length := by
    rw [List.length_take] at complete
    omega
  rw [List.take_append_of_le_length enough, List.drop_append_of_le_length enough,
    if_neg complete] at h
  obtain ⟨found, -, h⟩ := exists_of_bind_eq_ok h
  cases h
  rw [List.length_append] at inside
  omega

end Binary

/-! ## JSON records -/

namespace JsonRecord

/-- A record in front of whose end the source fails is not read. -/
theorem decode_of_failing (h : decode ⟨front ++ more, .fails kind⟩ = .ok (a, rest))
    (inside : rest.length < more.length) :
    decode ⟨front, .fails kind⟩ = .error (.io kind) := by
  rw [decode] at h ⊢
  dsimp only at h ⊢
  cases scanned : (Json.value (.fails kind) Json.maxLevels).scan front with
  | starved => rfl
  | malformed =>
      rw [(Json.final_value kind Json.maxLevels).append scanned more] at h
      cases h
  | done value left =>
      -- the value would end in the same place of the whole record
      rw [(Json.closed_value kind Json.maxLevels).append scanned more] at h
      obtain ⟨found, -, h⟩ := exists_of_bind_eq_ok h
      cases h
      rw [List.length_append] at inside
      omega

end JsonRecord

/-! ## XML records -/

namespace XmlRecord

/-- What is neither a piece nor malformed in front of a failure is not looked at. -/
theorem pieces_of_stop (stop : ∀ piece rest, Xml.next front ≠ .piece piece rest)
    (mendable : Xml.next front ≠ .malformed) (p : Progress) :
    pieces (.fails kind) p front = .error (.io kind) := by
  rw [pieces.eq_def]
  split
  · rename_i found
    exact absurd found (stop _ _)
  · rename_i found
    exact absurd found mendable
  · rename_i never
    cases never
  · rename_i never
    cases never
  · rename_i never
    cases never
  · rename_i same _ _
    cases same
    rfl

/-- In front of a failure the pieces of a record are read up to the last whole one. -/
theorem pieces_of_failing {p : Progress}
    (h : pieces (.fails kind) p (front ++ more) = .ok (a, rest))
    (inside : rest.length < more.length) : pieces (.fails kind) p front = .error (.io kind) := by
  induction front using (measure List.length).wf.induction generalizing p with
  | h front ih =>
      cases found : Xml.next front with
      | piece piece left =>
          rw [pieces_of_piece (Xml.next_append found more)] at h
          rw [pieces_of_piece found]
          obtain ⟨outcome, step, h⟩ := exists_of_bind_eq_ok h
          rw [step]
          cases outcome with
          | complete b =>
              -- the archive would be complete in the same place of the whole record
              cases h
              rw [List.length_append] at inside
              omega
          | goOn further => exact ih left (Xml.length_next_lt found) h
      | malformed =>
          obtain ⟨piece, left, other⟩ := exists_piece_of_pieces h
          cases (Xml.next_append_of_malformed found more).symm.trans other
      | lastText run => exact pieces_of_stop (by simp [found]) (by simp [found]) p
      | nothing => exact pieces_of_stop (by simp [found]) (by simp [found]) p
      | unfinished => exact pieces_of_stop (by simp [found]) (by simp [found]) p

/-- A byte order mark that is cut short is not malformed. -/
theorem next_of_partial_mark_ne_malformed (cutShort : front <+: byteOrderMark) :
    Xml.next front ≠ .malformed := by
  have fine : ∀ n < 4, Xml.next ([0xEF, 0xBB, 0xBF].take n) ≠ .malformed := by
    intro n hn
    rcases n with _ | _ | _ | _ | n
    · exact nofun
    · exact nofun
    · exact nofun
    · exact nofun
    · omega
  have length := cutShort.length_le
  rw [List.prefix_iff_eq_take.1 cutShort]
  rw [byteOrderMark_eq] at length ⊢
  exact fine _ (Nat.lt_succ_of_le length)

/-- A record in front of whose end the source fails is not read. -/
theorem decode_of_failing (h : decode ⟨front ++ more, .fails kind⟩ = .ok (a, rest))
    (inside : rest.length < more.length) :
    decode ⟨front, .fails kind⟩ = .error (.io kind) := by
  rw [decode] at h ⊢
  dsimp only at h ⊢
  by_cases early : front <+: byteOrderMark ∧ front ≠ byteOrderMark
  · -- nothing is dropped from a mark that is cut short, and nothing is found in it
    rw [dropMark_of_partial early.1 early.2]
    exact pieces_of_stop (fun _ _ => next_of_partial_mark early.1 early.2)
      (next_of_partial_mark_ne_malformed early.1) .outside
  · rw [dropMark_append_of_not_partial early] at h
    exact pieces_of_failing h inside

end XmlRecord

/-! ## Records -/

namespace Record

variable {format : Format}

/-- What is reported of a source that fails inside a record. -/
def failure (format : Format) (kind : IoKind) : Fault :=
  match format with
  | .binary | .portable => readFailure format (.fails kind)
  | .json | .xml => .io kind

/-- A failure is reported as it is, but for an unexpected end and invalid data in front of a binary or
a portable reader. -/
theorem failure_eq_io_iff (format : Format) (kind : IoKind) : failure format kind = .io kind ↔
    format = .json ∨ format = .xml ∨ kind ≠ .unexpectedEof ∧ kind ≠ .invalidData := by
  cases format <;> cases kind <;> simp [failure, readFailure]

/-- A record in front of whose end the source fails is not read, whatever its bytes are. -/
theorem decode_of_failing
    (h : decode format settings ⟨front ++ more, .fails kind⟩ = .ok (a, rest))
    (inside : rest.length < more.length) :
    decode format settings ⟨front, .fails kind⟩ = .error (failure format kind) := by
  cases format with
  | binary => exact Binary.decode_of_failing h inside
  | portable => exact Portable.decode_of_failing h inside
  | json => exact JsonRecord.decode_of_failing h inside
  | xml => exact XmlRecord.decode_of_failing h inside

/-- The record of an archive is not read from a source that fails in front of its end. -/
theorem read_of_failing {writing : Settings} (reading : Settings) {record : List UInt8}
    (encoded : encode format writing a = .ok record) (validKind : isValidName a.kind = true)
    (names : ∀ entry ∈ a.fields, isValidName entry.1 = true) :
    ∃ body, record = body ++ unread format ∧
      ∀ n < body.length, record.length ≤ reading.maxBytes.toNat → ∀ kind,
        read format reading ⟨record.take n, .fails kind⟩ = .error (failure format kind) := by
  obtain ⟨body, same, decoded⟩ :=
    decode_front validKind names (fits_of_encode encoded) writing
  obtain rfl := Except.ok.inj (encoded.symm.trans same)
  refine ⟨body, rfl, fun n inside room kind => ?_⟩
  have whole := decoded reading [] (unread format) (.fails kind) (.inl rfl) room
  rw [List.nil_append] at whole
  have split := List.take_append_drop n (body ++ unread format)
  rw [← split] at whole
  have left : (unread format).length < ((body ++ unread format).drop n).length := by
    rw [List.length_drop, List.length_append]
    omega
  have failed := decode_of_failing whole left
  -- the limit lies behind what the source delivers
  have short : ((body ++ unread format).take n).length < reading.maxBytes.toNat := by
    rw [List.length_append] at room
    rw [List.length_take, List.length_append]
    omega
  have limited : (⟨(body ++ unread format).take n, .fails kind⟩ : Source).limit
      reading.maxBytes.toNat = ⟨(body ++ unread format).take n, .fails kind⟩ :=
    if_neg (Nat.not_le.2 short)
  rw [read, limited, failed]
  rfl

end Record

/-! ## Loading -/

/-- A record that has been written: of an archive with valid names, or of a node or a generator that
was saved. -/
inductive IsWritten (α : Type) (format : Format) (writing : Settings) (record : List UInt8) : Prop
  | archive (a : Archive) : isValidName a.kind = true →
    (∀ entry ∈ a.fields, isValidName entry.1 = true) →
      Record.encode format writing a = .ok record → IsWritten α format writing record
  | item (f g : Forest α) (item : Item) : item.save format writing f = .ok record g →
    IsWritten α format writing record

/-- A written record is that of an archive with valid names. -/
theorem IsWritten.exists_archive {format : Format} {writing : Settings} {record : List UInt8}
    (written : IsWritten α format writing record) :
    ∃ a, isValidName a.kind = true ∧ (∀ entry ∈ a.fields, isValidName entry.1 = true) ∧
      Record.encode format writing a = .ok record := by
  cases written with
  | archive a validKind names encoded => exact ⟨a, validKind, names, encoded⟩
  | item f g item saved =>
      obtain ⟨v, encoded⟩ := Item.exists_value_of_save saved
      exact ⟨v.archive, v.isValidName_archive.1, v.isValidName_archive.2, encoded⟩

/-- A source delivers the front of a record that was written, and fails in front of its end (or of the
line end that a reader of JSON and XML leaves).  No archive is read, no node and no generator is made
and nothing is noted.  The failure is reported with its own kind in JSON and XML, and in the binary
and the portable format if it is neither an unexpected end nor invalid data; these two are reported as
damage there. -/
theorem failing_sources {format : Format} {writing : Settings} {record : List UInt8}
    (written : IsWritten α format writing record) :
    ∃ body, record = body ++ Record.unread format ∧
      ∀ (reading : Settings) (n : Nat) (kind : IoKind), n < body.length →
        record.length ≤ reading.maxBytes.toNat →
          (Record.read format reading ⟨record.take n, .fails kind⟩ =
            .error (Record.failure format kind) ∧
          (∀ f : Forest α, Forest.loadArchive format reading ⟨record.take n, .fails kind⟩ f =
            .error (Record.failure format kind) f) ∧
          ∀ (k : Kind) (f : Forest α), ∃ g,
            k.load format reading ⟨record.take n, .fails kind⟩ f =
              .error (Record.failure format kind) g ∧ g.nodes = f.nodes) ∧
          (Record.failure format kind = .io kind ↔
            format = .json ∨ format = .xml ∨ kind ≠ .unexpectedEof ∧ kind ≠ .invalidData) := by
  obtain ⟨a, validKind, names, encoded⟩ := written.exists_archive
  obtain ⟨body, whole, -⟩ :=
    Record.read_of_failing .compact encoded validKind names
  refine ⟨body, whole, fun reading n kind inside room => ?_⟩
  have failed : Record.read format reading ⟨record.take n, .fails kind⟩ =
      .error (Record.failure format kind) := by
    obtain ⟨body', whole', fails⟩ :=
      Record.read_of_failing reading encoded validKind names
    obtain rfl := List.append_cancel_right (whole.symm.trans whole')
    exact fails n inside room kind
  refine ⟨⟨failed, fun f => ?_, fun k f => k.load_of_error failed f⟩,
    Record.failure_eq_io_iff format kind⟩
  have loaded := f.loadArchive_eq format reading ⟨record.take n, .fails kind⟩
  rw [failed] at loaded
  exact loaded

/-- The JSON record of a view from a source that fails in its middle with the kind of bad bytes. -/
theorem failing_sources_view : ∃ (f g : Forest Unit) (record : List UInt8),
    (Item.node 1).save .json .humanReadable f = .ok record g ∧ record.length = 167 ∧
      ∀ f : Forest Unit, ∃ g, Kind.load .json .compact ⟨record.take 90, .fails .invalidData⟩ .node f =
        .error (.io .invalidData) g ∧ g.nodes = f.nodes := by
  obtain ⟨f, reached, -, -, has⟩ := exists_stale_view
  have one : (Record.unread .json).length = 1 := by decide +kernel
  have length : (JsonRecord.encode .humanReadable (Snapshot.toArchive
      ⟨⟨[2, 2], by decide, by simp, by decide⟩, [1, 2]⟩)).length = 167 := by decide +kernel
  obtain ⟨g, saved⟩ : ∃ g, (Item.node 1).save .json .humanReadable f = .ok _ g :=
    Item.save_eq reached.ordered.forest.sound has rfl
  obtain ⟨body, whole, fails⟩ := failing_sources (.item f g (.node 1) saved)
  have lengths := congrArg List.length whole
  rw [List.length_append, one] at lengths
  refine ⟨f, g, _, saved, length, fun h => ?_⟩
  have inside : 90 < body.length := by
    have := length.symm.trans lengths
    omega
  have room : (JsonRecord.encode .humanReadable (Snapshot.toArchive
      ⟨⟨[2, 2], by decide, by simp, by decide⟩, [1, 2]⟩)).length ≤
        Settings.compact.maxBytes.toNat := by
    rw [length]
    decide
  exact (fails .compact 90 .invalidData inside room).1.2.2 .node h

/-- A binary reader takes the failure of its source for damage, if the source calls its bytes
invalid. -/
theorem binary_reader_takes_failure_for_damage :
    let a := Archive.ofList "Sample" [("a", .scalar 1)]
    ∃ record, Record.encode .binary .compact a = .ok record ∧ 5 < record.length ∧
      Record.read .binary .compact ⟨record.take 5, .fails .invalidData⟩ =
        .error (.corrupt (.invalid .binary)) := by
  intro a
  have fits : (Binary.payload a).length = 12 := by decide +kernel
  have encoded : Record.encode .binary .compact a =
      .ok (Binary.header (Binary.payload a).length ++ Binary.payload a) :=
    if_pos (by rw [fits]; decide)
  have length : (Binary.header (Binary.payload a).length ++ Binary.payload a).length = 22 := by
    rw [List.length_append, Binary.length_header, fits]
    rfl
  obtain ⟨body, whole, fails⟩ := Record.read_of_failing .compact encoded
    (by decide) (by decide)
  have lengths := congrArg List.length whole
  rw [length, Record.unread, List.append_nil] at lengths
  exact ⟨_, encoded, by rw [length]; decide,
    fails 5 (by rw [← lengths]; decide) (by rw [length]; decide) .invalidData⟩

end SparseTensor
