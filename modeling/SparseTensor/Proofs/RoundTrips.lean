/-
# Records are read back

In every format the record of an archive can be written if the names are valid (and, for the
binary format, the payload is not too long for its length field), and reading it gives the archive
again (`read_write`).  The reader stops behind the record whatever comes next: behind the last
byte of a binary or portable record, in front of the line end of the others.
-/
import SparseTensor.Proofs.BinaryRecords
import SparseTensor.Proofs.JsonRecords
import SparseTensor.Proofs.PortableRecords
import SparseTensor.Proofs.XmlRecords
import SparseTensor.Record

namespace SparseTensor.Record

/-- The end of a record that its reader leaves: a line end in the formats that are text without
lines of their own. -/
def unread : Format → List UInt8
  | .binary | .portable => []
  | .json | .xml => Text.bytes "\n"

variable {a : Archive} {format : Format}

/-- The record of an archive, without the end that is left, is decoded as the archive, also behind
such an end of another record. -/
theorem decode_front (kind : isValidName a.kind = true)
    (names : ∀ entry ∈ a.fields, isValidName entry.1 = true)
    (fits : format = .binary → (Binary.payload a).length < UInt32.size) (settings : Settings) :
    ∃ front, encode format settings a = .ok (front ++ unread format) ∧
      ∀ (reading : Settings) (lead suffix : List UInt8) (ending : Ending),
        lead = [] ∨ lead = unread format →
          (front ++ unread format).length ≤ reading.maxBytes.toNat →
            decode format reading ⟨lead ++ (front ++ suffix), ending⟩ = .ok (a, suffix) := by
  have short : ∀ {bytes : List UInt8} {reading : Settings},
      bytes.length ≤ reading.maxBytes.toNat → bytes.length < 2 ^ 64 :=
    fun room => Nat.lt_of_le_of_lt room (UInt64.toNat_lt _)
  have blank : ∀ {lead : List UInt8}, lead = [] ∨ lead = Text.bytes "\n" →
      ∀ b ∈ lead, Text.isBlankByte b = true := by
    rintro lead (rfl | rfl)
    · exact List.forall_mem_nil _
    · rw [Json.bytes_lineEnd]
      exact List.forall_mem_singleton.2 (by decide)
  cases format with
  | binary =>
      obtain ⟨bytes, encoded, decoded⟩ := Binary.decode_encode kind names (fits rfl)
      refine ⟨bytes, by rw [unread, List.append_nil]; exact encoded, ?_⟩
      rintro reading lead suffix ending led room
      obtain rfl : lead = [] := led.elim id id
      rw [unread, List.append_nil] at room
      exact decoded reading suffix ending room
  | portable =>
      refine ⟨Portable.encode a, by rw [unread, List.append_nil]; rfl, ?_⟩
      intro reading lead suffix ending led room
      obtain rfl : lead = [] := led.elim id id
      rw [unread, List.append_nil] at room
      exact Portable.decode_encode kind names (short room) suffix ending
  | json =>
      refine ⟨JsonRecord.object settings.pretty a, rfl, fun reading lead suffix ending led _ => ?_⟩
      have decoded := JsonRecord.decode_blanks_object a settings.pretty (blank led) suffix ending
      rwa [Archive.admitted_eq kind names] at decoded
  | xml =>
      refine ⟨XmlRecord.element settings a, rfl, fun reading lead suffix ending led room => ?_⟩
      have countable := XmlRecord.countable_of_length (short room)
      exact (XmlRecord.decode_blanks_element_eq_ok_iff (blank led)).2
        ⟨countable, Archive.admitted_eq kind names, rfl⟩

/-- The record of an archive is decoded as the archive, up to the end that is left. -/
theorem decode_encode (kind : isValidName a.kind = true)
    (names : ∀ entry ∈ a.fields, isValidName entry.1 = true)
    (fits : format = .binary → (Binary.payload a).length < UInt32.size) (settings : Settings) :
    ∃ front, encode format settings a = .ok (front ++ unread format) ∧
      ∀ (reading : Settings) (suffix : List UInt8) (ending : Ending),
        (front ++ unread format).length ≤ reading.maxBytes.toNat →
          decode format reading ⟨front ++ (unread format ++ suffix), ending⟩ =
            .ok (a, unread format ++ suffix) := by
  obtain ⟨front, encoded, decoded⟩ := decode_front kind names fits settings
  refine ⟨front, encoded, fun reading suffix ending room => ?_⟩
  exact decoded reading [] (unread format ++ suffix) ending (.inl rfl) room

/-- Bytes within the limit of a source are not cut off. -/
theorem limit_append {bytes : List UInt8} {n : Nat} (room : bytes.length ≤ n)
    (suffix : List UInt8) (ending : Ending) :
    ∃ (suffix' : List UInt8) (ending' : Ending),
      Source.limit ⟨bytes ++ suffix, ending⟩ n = ⟨bytes ++ suffix', ending'⟩ := by
  unfold Source.limit
  split
  · refine ⟨suffix.take (n - bytes.length), .ends, ?_⟩
    rw [Source.ofBytes, List.take_append, List.take_of_length_le room]
  · exact ⟨suffix, ending, rfl⟩

/-- A record that is decoded whatever stands behind it is read, under any limit that lets it
through. -/
theorem read_of_decode {reading : Settings} {bytes : List UInt8}
    (decoded : ∀ (suffix : List UInt8) (ending : Ending),
      decode format reading ⟨bytes ++ suffix, ending⟩ = .ok (a, suffix))
    (room : bytes.length ≤ reading.maxBytes.toNat) (suffix : List UInt8) (ending : Ending) :
    read format reading ⟨bytes ++ suffix, ending⟩ = .ok (a, ⟨suffix, ending⟩) := by
  obtain ⟨suffix', ending', limited⟩ := limit_append room suffix ending
  have taken : (bytes ++ suffix').length - suffix'.length = bytes.length := by
    rw [List.length_append, Nat.add_sub_cancel]
  rw [read, limited, decoded]
  simp only [bind, Except.bind, pure, Except.pure, skip, taken, List.drop_left]

/-- An archive is read back from its record in every format, and what stands behind the record
is left unread. -/
theorem read_write (kind : isValidName a.kind = true)
    (names : ∀ entry ∈ a.fields, isValidName entry.1 = true)
    (fits : format = .binary → (Binary.payload a).length < UInt32.size) (writing : Settings) :
    ∃ bytes, write format writing .unlimited a = (bytes, .ok ()) ∧
      ∀ (reading : Settings) (suffix : List UInt8) (ending : Ending),
        bytes.length ≤ reading.maxBytes.toNat →
          read format reading ⟨bytes ++ suffix, ending⟩ =
            .ok (a, ⟨unread format ++ suffix, ending⟩) := by
  obtain ⟨front, encoded, decoded⟩ := decode_encode kind names fits writing
  refine ⟨front ++ unread format, by rw [write, encoded]; rfl, ?_⟩
  intro reading suffix ending room
  obtain ⟨suffix', ending', limited⟩ := limit_append room suffix ending
  rw [read, limited]
  have left : (front ++ (unread format ++ suffix')).length - (unread format ++ suffix').length =
      front.length := by
    rw [List.length_append, Nat.add_sub_cancel]
  simp only [List.append_assoc, decoded reading suffix' ending' room, bind, Except.bind, skip, left,
    List.drop_left]
  rfl

/-- An archive with an empty list and with the greatest number, read back from its binary record
under the least limit and from an indented XML record. -/
theorem read_write_empty_list :
    let a := Archive.ofList "state" [("cells", .list []), ("seed", .scalar 18446744073709551615)]
    (∃ bytes, write .binary .compact .unlimited a = (bytes, .ok ()) ∧
      read .binary (Settings.withMaxBytes .compact 41) ⟨bytes ++ [0x3C], .fails .other⟩ =
        .ok (a, ⟨[0x3C], .fails .other⟩)) ∧
    ∃ bytes, write .xml .humanReadable .unlimited a = (bytes, .ok ()) ∧
      read .xml .standard ⟨bytes ++ [0x3C], .ends⟩ =
        .ok (a, ⟨Text.bytes "\n" ++ [0x3C], .ends⟩) := by
  intro a
  have kind : isValidName a.kind = true := by decide
  have names : ∀ entry ∈ a.fields, isValidName entry.1 = true := by decide
  have size : (Binary.payload a).length = 31 := by decide +kernel
  constructor
  · obtain ⟨bytes, wrote, reads⟩ :=
      @read_write a .binary kind names (fun _ => size ▸ by decide) .compact
    have length : (write .binary .compact .unlimited a).1.length = 41 := by decide +kernel
    rw [wrote] at length
    exact ⟨bytes, wrote, reads _ [0x3C] _ (Nat.le_of_eq length)⟩
  · obtain ⟨bytes, wrote, reads⟩ := @read_write a .xml kind names nofun .humanReadable
    have length : (write .xml .humanReadable .unlimited a).1.length = 201 := by decide +kernel
    rw [wrote] at length
    have room : 201 ≤ Settings.standard.maxBytes.toNat := by decide
    exact ⟨bytes, wrote, reads .standard [0x3C] .ends (length ▸ room)⟩

end SparseTensor.Record
