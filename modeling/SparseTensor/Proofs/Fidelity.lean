/-
# A record loads as its archive or not at all

Any texts can be the kind and the names of an archive, and every format writes them.  Three formats
delimit or escape a text so that a reader finds the same text again, and then refuses it if it is
not a valid name.  So whatever a record is read as is the archive that was written (`eq_of_read`),
and a limit on the bytes that are read makes no difference to that, since a reader of these formats
finds in the front of a record nothing that the rest of it could change.

The portable format writes its texts as they are.  It has this property for archives without white
space in their kind and names, read as a whole (`Portable.Unspaced`).  With white space in a name a
record can be that of another archive (`portable_read_as_other`).
-/
import SparseTensor.Proofs.Continuations
import SparseTensor.Proofs.RoundTrips

namespace SparseTensor

/-- An archive without white space in its kind and its names. -/
structure Portable.Unspaced (a : Archive) : Prop where
  kind : Solid a.kind.toList
  names : ∀ entry ∈ a.fields, Solid entry.1.toList

namespace Record

variable {a b : Archive} {format : Format} {reading writing : Settings}
  {bytes suffix left : List UInt8} {ending : Ending} {s s' : Source}

/-- A whole record is decoded as its archive only, and only if the archive can be read. -/
theorem admitted_of_decode (encoded : encode format writing a = .ok bytes)
    (unspaced : format = .portable → Portable.Unspaced a)
    (decoded : decode format reading ⟨bytes ++ suffix, ending⟩ = .ok (b, left)) :
    a.admitted = .ok b ∧ left = unread format ++ suffix := by
  cases format with
  | binary => exact ((Binary.decode_of_encode_eq_ok_iff encoded).1 decoded).2
  | portable =>
      obtain rfl := Except.ok.inj encoded
      exact ((Portable.decode_encode_eq_ok_iff (unspaced rfl).kind (unspaced rfl).names).1
        decoded).2
  | json =>
      obtain rfl := Except.ok.inj encoded
      have read := JsonRecord.decode_blanks_object a writing.pretty (List.forall_mem_nil _)
        (Text.bytes "\n" ++ suffix) ending
      rw [List.nil_append] at read
      rw [JsonRecord.encode, List.append_assoc, decode, read] at decoded
      cases admitted : a.admitted with
      | ok c =>
          rw [admitted] at decoded
          cases decoded
          exact ⟨rfl, rfl⟩
      | error fault =>
          rw [admitted] at decoded
          cases decoded
  | xml =>
      obtain rfl := Except.ok.inj encoded
      have read := @XmlRecord.decode_blanks_element_eq_ok_iff ending a writing []
        (List.forall_mem_nil _) (Text.bytes "\n" ++ suffix) left b
      rw [List.nil_append] at read
      rw [XmlRecord.encode, List.append_assoc] at decoded
      exact (read.1 decoded).2

/-- A record was read if one was decoded within the limit. -/
theorem read_eq_ok_iff :
    read format reading s = .ok (a, s') ↔
      ∃ left, decode format reading (s.limit reading.maxBytes.toNat) = .ok (a, left) ∧
        s' = skip s ((s.limit reading.maxBytes.toNat).bytes.length - left.length) := by
  rw [read]
  cases decode format reading (s.limit reading.maxBytes.toNat) with
  | error fault => simp [bind, Except.bind]
  | ok found =>
      obtain ⟨c, left⟩ := found
      simp [bind, Except.bind, pure, Except.pure, eq_comm, and_assoc]

/-- What a limit lets through is the front of what there is. -/
theorem exists_limit_eq (s : Source) (n : Nat) :
    ∃ front more ending, s.limit n = ⟨front, ending⟩ ∧ s.bytes = front ++ more := by
  unfold Source.limit
  split
  · exact ⟨_, s.bytes.drop n, .ends, rfl, (List.take_append_drop n s.bytes).symm⟩
  · exact ⟨s.bytes, [], s.ending, rfl, (List.append_nil _).symm⟩

/-- A sink holds the whole record once it has been written. -/
theorem encode_of_write {sink : Sink} (wrote : write format writing sink a = (bytes, .ok ())) :
    encode format writing a = .ok bytes := by
  unfold write at wrote
  split at wrote
  · cases wrote
  · rename_i encoded found
    rw [found]
    cases failure : sink.failure? encoded with
    | some kind =>
        rw [failure] at wrote
        cases wrote
    | none =>
        have whole : sink.accepted encoded = encoded := by
          unfold Sink.failure? at failure
          unfold Sink.accepted
          split at failure
          · rfl
          · split at failure
            · rename_i enough
              exact List.take_of_length_le enough
            · cases failure
        rw [failure, whole] at wrote
        rw [(Prod.mk.inj wrote).1]

/-- Whatever a saved record is read as is the archive that was saved: under every limit if the
format marks the end of a record, and in the portable format if the record is read as a whole and
there is no white space in the names. -/
theorem eq_of_read {sink : Sink} (wrote : write format writing sink a = (bytes, .ok ()))
    (portable : format = .portable →
      Portable.Unspaced a ∧ bytes.length ≤ reading.maxBytes.toNat)
    (loaded : read format reading ⟨bytes ++ suffix, ending⟩ = .ok (b, s)) : b = a := by
  have encoded := encode_of_write wrote
  obtain ⟨left, decoded, -⟩ := read_eq_ok_iff.1 loaded
  suffices admitted : a.admitted = .ok b from (Archive.admitted_eq_ok_iff.1 admitted).2
  by_cases marked : format = .portable
  · obtain ⟨unspaced, room⟩ := portable marked
    obtain ⟨suffix', ending', limited⟩ := limit_append room suffix ending
    rw [limited] at decoded
    exact (admitted_of_decode encoded (fun _ => unspaced) decoded).1
  · -- the record goes on behind the limit, and is then read in the same way
    obtain ⟨front, more, ending', limited, split⟩ :=
      exists_limit_eq ⟨bytes ++ suffix, ending⟩ reading.maxBytes.toNat
    rw [limited] at decoded
    have whole := decode_append marked decoded more
    rw [← split] at whole
    exact (admitted_of_decode encoded (fun portable => absurd portable marked) whole).1

/-- A portable record within the limit loads, if its names are valid. -/
theorem exists_read_portable (kind : isValidName a.kind = true)
    (names : ∀ entry ∈ a.fields, isValidName entry.1 = true)
    (room : (Portable.encode a).length ≤ reading.maxBytes.toNat) (suffix : List UInt8)
    (ending : Ending) :
    ∃ s, read .portable reading ⟨Portable.encode a ++ suffix, ending⟩ = .ok (a, s) := by
  have decoded : ∀ (suffix : List UInt8) (ending : Ending),
      decode .portable reading ⟨Portable.encode a ++ suffix, ending⟩ = .ok (a, suffix) :=
    Portable.decode_encode kind names (Nat.lt_of_le_of_lt room (UInt64.toNat_lt _))
  exact ⟨_, read_of_decode decoded room suffix ending⟩

/-- A record with a field named like the terminator, loaded from the portable format. -/
theorem eq_of_read_field_named_end :
    let a := Archive.ofList "Sample" [("a", .scalar 1), ("end", .scalar 2)]
    ∃ bytes, write .portable .compact .unlimited a = (bytes, .ok ()) ∧
      (∃ s, read .portable .compact ⟨bytes ++ [], .ends⟩ = .ok (a, s)) ∧
      ∀ b s, read .portable .compact ⟨bytes ++ [], .ends⟩ = .ok (b, s) → b = a := by
  intro a
  have kind : isValidName a.kind = true := by decide
  have names : ∀ entry ∈ a.fields, isValidName entry.1 = true := by decide
  have length : (Portable.encode a).length = 45 := by decide +kernel
  have room : (Portable.encode a).length ≤ Settings.compact.maxBytes.toNat := by
    rw [length]
    decide
  have unspaced : Portable.Unspaced a :=
    ⟨Portable.solid_of_isValidName kind, fun entry hentry =>
      Portable.solid_of_isValidName (names entry hentry)⟩
  have wrote : write .portable .compact .unlimited a = (Portable.encode a, .ok ()) := rfl
  exact ⟨Portable.encode a, wrote, exists_read_portable kind names room [] .ends,
    fun b s loaded => eq_of_read wrote (fun _ => ⟨unspaced, room⟩) loaded⟩

/-- A field whose name has white space in it is saved like two fields, and loads as these. -/
theorem portable_read_as_other :
    let a := Archive.ofList "Sample" [("x s 1\ny", .scalar 2)]
    let b := Archive.ofList "Sample" [("x", .scalar 1), ("y", .scalar 2)]
    ∃ bytes s, write .portable .compact .unlimited a = (bytes, .ok ()) ∧
      read .portable .compact (Source.ofBytes bytes) = .ok (b, s) ∧ b ≠ a := by
  intro a b
  have kind : isValidName b.kind = true := by decide
  have names : ∀ entry ∈ b.fields, isValidName entry.1 = true := by decide
  have length : (Portable.encode b).length = 43 := by decide +kernel
  have room : (Portable.encode b).length ≤ Settings.compact.maxBytes.toNat := by
    rw [length]
    decide
  have same : Portable.encode a = Portable.encode b := by decide +kernel
  obtain ⟨s, loaded⟩ := exists_read_portable kind names room [] .ends
  rw [List.append_nil] at loaded
  refine ⟨Portable.encode b, s, ?_, loaded, by decide⟩
  rw [← same]
  rfl

end Record

end SparseTensor
