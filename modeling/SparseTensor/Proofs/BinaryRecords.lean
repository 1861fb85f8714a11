/-
# Binary records are read back

What the writer puts into a record is taken by the reader piece by piece, whatever stands behind
each piece (`Reader.Takes`): numbers in groups of seven bits, texts behind their length, fields and
the archive.  Counts never exceed the bytes that are left, since everything that is counted takes
up a byte.
-/
import SparseTensor.Proofs.Extending
import SparseTensor.Proofs.PlainText
import SparseTensor.Record.Binary

namespace SparseTensor

namespace Reader

/-- A number of at most `width` bytes is found again in them. -/
theorem ofLittleEndian_littleEndian {width n : Nat} (h : n < 256 ^ width) :
    ofLittleEndian (littleEndian width n) = n := by
  induction width generalizing n with
  | zero => simp [littleEndian, ofLittleEndian] at *; omega
  | succ width ih =>
    have small : n / 256 < 256 ^ width := by
      rw [Nat.pow_succ] at h
      omega
    have low : n % 256 % 256 = n % 256 := Nat.mod_mod _ _
    simp only [littleEndian, ofLittleEndian, ih small, UInt8.toNat_ofNat', Nat.toUInt8]
    omega

/-- A written word is read back, and what follows it is left. -/
theorem word_littleEndian {width n : Nat} (h : n < 256 ^ width) (rest : List UInt8) :
    word width (littleEndian width n ++ rest) = .ok n rest := by
  have taken := take_append (littleEndian width n) rest
  rw [length_littleEndian] at taken
  unfold word
  rw [bind_of_ok taken]
  simp [pure, EStateM.pure, ofLittleEndian_littleEndian h]

/-- A byte below 128 ends an integer. -/
theorem last_group : ∀ n < 128, continues n.toUInt8 = false ∧ (n.toUInt8 &&& 0x7F).toNat = n := by
  decide

/-- A group with the high bit is followed by another one. -/
theorem inner_group :
    ∀ n < 128, continues (n + 128).toUInt8 = true ∧ ((n + 128).toUInt8 &&& 0x7F).toNat = n := by
  decide

/-- A group is put above those that are there. -/
theorem toNat_withGroup {index g : Nat} {value : UInt64} {b : UInt8}
    (below : value.toNat < 2 ^ (7 * index)) (group : (b &&& 0x7F).toNat = g) (small : index ≤ 9)
    (fits : value.toNat + g * 2 ^ (7 * index) < 2 ^ 64) :
    (value ||| ((b &&& 0x7F).toUInt64 <<< (7 * index).toUInt64)).toNat =
      value.toNat + g * 2 ^ (7 * index) := by
  have shift : (7 * index).toUInt64.toNat % 64 = 7 * index := by
    rw [Nat.toUInt64, UInt64.toNat_ofNat']
    omega
  rw [UInt64.toNat_or, UInt64.toNat_shiftLeft, UInt8.toNat_toUInt64, group, shift,
    Nat.shiftLeft_eq, Nat.mod_eq_of_lt (by omega), Nat.or_comm, Nat.mul_comm g,
    ← Nat.two_pow_add_eq_or_of_lt below, Nat.add_comm]

/-- The groups of a number are put above those that are there.  There are at most ten, and the
last of ten is a single bit. -/
theorem varintFrom_varintGroups {index m : Nat} {value : UInt64}
    (below : value.toNat < 2 ^ (7 * index)) (fits : value.toNat + m * 2 ^ (7 * index) < 2 ^ 64)
    (more : index = 0 ∨ 0 < m) (rest : List UInt8) :
    varintFrom index value (varintGroups m ++ rest) =
      .ok (value.toNat + m * 2 ^ (7 * index)).toUInt64 rest := by
  induction m using Nat.strongRecOn generalizing index value with
  | ind m ih =>
      -- there is no eleventh group: it would stand for more than 64 bits
      have small : index ≤ 9 := by
        refine Nat.le_of_not_lt fun large => ?_
        have : 2 ^ (7 * 10) ≤ 2 ^ (7 * index) := Nat.pow_le_pow_right (by decide) (by omega)
        have : 1 * 2 ^ (7 * index) ≤ m * 2 ^ (7 * index) := Nat.mul_le_mul_right _ (by omega)
        omega
      rw [varintGroups]
      split
      · rename_i last
        obtain ⟨ends, group⟩ := last_group m last
        -- the tenth group has room for a single bit
        have room : ¬ (index = 9 ∧ 1 < m.toUInt8) := by
          rintro ⟨rfl, big⟩
          rw [UInt8.lt_iff_toNat_lt, Nat.toUInt8, UInt8.toNat_ofNat',
            Nat.mod_eq_of_lt (by omega)] at big
          have : 1 < m := big
          omega
        rw [← toNat_withGroup below group small fits]
        simp only [List.singleton_append, varintFrom, if_neg room, ends, Bool.false_eq_true,
          if_false]
        exact congrArg (EStateM.Result.ok · rest) UInt64.ofNat_toNat.symm
      · rename_i large
        obtain ⟨goesOn, group⟩ := inner_group (m % 128) (Nat.mod_lt _ (by decide))
        have power : 2 ^ (7 * (index + 1)) = 128 * 2 ^ (7 * index) := by
          rw [show 7 * (index + 1) = 7 * index + 7 by omega, Nat.pow_add]
          omega
        have parts : m * 2 ^ (7 * index) =
            (m % 128) * 2 ^ (7 * index) + m / 128 * 2 ^ (7 * (index + 1)) := by
          rw [power, ← Nat.mul_assoc, ← Nat.add_mul]
          congr 1
          omega
        have least : 2 ^ (7 * (index + 1)) ≤ m / 128 * 2 ^ (7 * (index + 1)) :=
          Nat.le_mul_of_pos_left _ (by omega)
        have room : ¬ (index = 9 ∧ 1 < (m % 128 + 128).toUInt8) := by
          rintro ⟨rfl, -⟩
          omega
        have value' := toNat_withGroup below group small (by omega)
        simp only [List.cons_append, varintFrom, if_neg room, goesOn, if_true]
        have upper : m % 128 * 2 ^ (7 * index) ≤ 127 * 2 ^ (7 * index) :=
          Nat.mul_le_mul_right _ (by omega)
        rw [ih (m / 128) (by omega) (by omega) (by omega) (.inr (by omega)), value', parts,
          Nat.add_assoc]

/-- A number below 2 ^ 64 is read back. -/
theorem varint_varintGroups {n : Nat} (h : n < 2 ^ 64) (rest : List UInt8) :
    varint (varintGroups n ++ rest) = .ok n.toUInt64 rest := by
  unfold varint
  rw [varintFrom_varintGroups (by decide) (by simpa using h) (.inl rfl)]
  simp

/-- A written word is read back. -/
theorem varint_varintBytes (v : UInt64) (rest : List UInt8) :
    varint (varintBytes v ++ rest) = .ok v rest := by
  rw [varintBytes, varint_varintGroups v.toNat_lt, Nat.toUInt64, UInt64.ofNat_toNat]

variable {α : Type}

/-- A reader takes certain bytes for a value, whatever stands behind them. -/
def Takes (r : Reader α) (bytes : List UInt8) (a : α) : Prop :=
  ∀ rest, r (bytes ++ rest) = .ok a rest

/-- Every number has a group. -/
theorem length_varintGroups_pos (n : Nat) : 0 < (varintGroups n).length := by
  rw [varintGroups]
  split <;> simp

/-- A written count is read back in front of as many bytes. -/
theorem count_varintGroups {n : Nat} (h : n < 2 ^ 64) {rest : List UInt8}
    (enough : n ≤ rest.length) : count (varintGroups n ++ rest) = .ok n rest := by
  have same : n.toUInt64.toNat = n := UInt64.toNat_ofNat_of_lt' h
  unfold count
  rw [bind_of_ok (varint_varintGroups h rest),
    bind_of_ok (show remaining rest = .ok _ rest from rfl), same, if_pos enough]
  rfl

/-- A text takes up at least its bytes. -/
theorem length_bytes_le (s : String) : (Text.bytes s).length ≤ (textBytes s).length := by
  simp [textBytes]

/-- A written text is read back. -/
theorem takes_text {s : String} (h : (textBytes s).length < 2 ^ 64) :
    Takes text (textBytes s) s := by
  intro rest
  have short := length_bytes_le s
  unfold text textBytes
  rw [List.append_assoc, bind_of_ok (count_varintGroups (by omega) (by simp)),
    bind_of_ok (take_append _ _), Text.ofBytes?_bytes]
  rfl

end Reader

namespace Binary

open Reader (Takes)

/-- Written integers are read back. -/
theorem varints_append (values before : List UInt64) (rest : List UInt8) :
    varints values.length before (values.flatMap Reader.varintBytes ++ rest) =
      .ok (before.reverse ++ values) rest := by
  induction values generalizing before with
  | nil => simp [varints]
  | cons v values ih =>
      rw [List.flatMap_cons, List.append_assoc, List.length_cons, varints,
        Reader.varint_varintBytes]
      simp only
      rw [ih, List.reverse_cons, List.append_assoc, List.singleton_append]

/-- There are no more items than bytes if every item takes up a byte. -/
theorem length_le_flatMap {α : Type} {items : List α} {write : α → List UInt8}
    (some : ∀ item ∈ items, 0 < (write item).length) :
    items.length ≤ (items.flatMap write).length := by
  induction items with
  | nil => simp
  | cons item items ih =>
      have first := some item List.mem_cons_self
      have others := ih fun other hother => some other (List.mem_cons_of_mem _ hother)
      simp only [List.flatMap_cons, List.length_append, List.length_cons]
      omega

/-- The first byte is taken. -/
theorem byte_cons (b : UInt8) (rest : List UInt8) : Reader.byte (b :: rest) = .ok b rest := rfl

/-- A written field is read back. -/
theorem takes_field (name : String) {f : Field} (h : (fieldBytes f).length < 2 ^ 64) :
    Takes (field name) (fieldBytes f) f := by
  intro rest
  cases f with
  | scalar value =>
      simp only [fieldBytes, List.cons_append]
      rw [field, bind_of_ok (byte_cons scalarTag _), if_pos rfl,
        bind_of_ok (Reader.varint_varintBytes value rest)]
      rfl
  | list values =>
      have enough : values.length ≤ (values.flatMap Reader.varintBytes).length :=
        length_le_flatMap fun v _ => Reader.length_varintGroups_pos v.toNat
      simp only [fieldBytes, List.length_append, List.length_cons] at h
      simp only [fieldBytes, List.cons_append, List.append_assoc]
      have room : values.length ≤ (values.flatMap Reader.varintBytes ++ rest).length := by
        rw [List.length_append]
        omega
      have counted := Reader.count_varintGroups (by omega) room
      rw [field, bind_of_ok (byte_cons listTag _), if_neg (by decide), if_pos rfl,
        bind_of_ok counted, bind_of_ok (varints_append values [] rest)]
      rfl

/-- The bytes of a field and its name. -/
def entryBytes (entry : String × Field) : List UInt8 :=
  Reader.textBytes entry.1 ++ fieldBytes entry.2

/-- The next field is put into an archive, or refused by it. -/
theorem entry_entryBytes (a : Archive) {name : String} {f : Field}
    (short : (entryBytes (name, f)).length < 2 ^ 64) (rest : List UInt8) :
    entry a (entryBytes (name, f) ++ rest) =
      match a.add name f with
      | .ok extended => .ok extended rest
      | .error fault => .error fault rest := by
  rw [entryBytes, List.length_append] at short
  rw [entry, entryBytes, List.append_assoc, bind_of_ok (Reader.takes_text (by omega) _),
    bind_of_ok (takes_field name (by omega) rest)]
  cases a.add name f <;> rfl

/-- Written fields are put into an archive, up to the first one that is refused. -/
theorem entries_flatMap (fields : List (String × Field)) (a : Archive)
    (short : (fields.flatMap entryBytes).length < 2 ^ 64) (rest : List UInt8) :
    ∃ left, entries fields.length a (fields.flatMap entryBytes ++ rest) =
      match a.addAll fields with
      | .ok b => .ok b rest
      | .error fault => .error fault left := by
  induction fields generalizing a with
  | nil => exact ⟨rest, rfl⟩
  | cons first fields ih =>
      obtain ⟨name, f⟩ := first
      rw [List.flatMap_cons, List.length_append] at short
      have read := @entry_entryBytes a name f (by omega) (fields.flatMap entryBytes ++ rest)
      simp only [List.flatMap_cons, List.append_assoc, List.length_cons, entries, read,
        Archive.addAll_cons]
      cases a.add name f with
      | ok extended => exact ih extended (by omega)
      | error fault => exact ⟨_, rfl⟩

/-- A payload is the kind, the number of fields and the fields. -/
theorem payload_eq (a : Archive) : payload a = Reader.textBytes a.kind ++
    (Reader.varintGroups a.fields.length ++ a.fields.flatMap entryBytes) := by
  rw [payload, List.append_assoc]
  rfl

/-- A payload is read as its archive, if that can be read. -/
theorem ofPayload_payload {a : Archive} (fits : (payload a).length < UInt32.size) :
    ofPayload (payload a) = a.admitted := by
  have size : UInt32.size = 2 ^ 32 := rfl
  have enough : a.fields.length ≤ (a.fields.flatMap entryBytes).length := by
    refine length_le_flatMap fun entry _ => ?_
    have := Reader.length_varintGroups_pos (Text.bytes entry.1).length
    simp only [entryBytes, Reader.textBytes, List.length_append]
    omega
  have lengths := fits
  rw [payload_eq, List.length_append, List.length_append] at lengths
  have counted := Reader.count_varintGroups (n := a.fields.length) (by omega) enough
  obtain ⟨left, taken⟩ := entries_flatMap a.fields (.empty a.kind) (by omega) []
  rw [List.append_nil] at taken
  rw [ofPayload, archive, payload_eq, bind_of_ok (Reader.takes_text (by omega) _),
    Archive.admitted]
  by_cases kind : isValidName a.kind = true
  · rw [kind, if_neg (by decide), bind_of_ok counted, if_pos rfl]
    cases added : (Archive.empty a.kind).addAll a.fields with
    | ok b =>
        rw [added] at taken
        rw [bind_of_ok taken]
        rfl
    | error fault =>
        -- what refuses a field is damage, so it is not taken for a read past the end
        obtain ⟨cause, rfl⟩ := Archive.corrupt_of_addAll added
        rw [added] at taken
        rw [bind_of_error taken]
  · rw [if_neg kind, if_pos (by simpa using kind)]
    rfl

/-- A record starts with four letters. -/
theorem length_magic : magic.length = 4 := by
  rw [magic, Text.bytes_eq (by decide)]
  rfl

/-- A header has a fixed size. -/
theorem length_header (n : Nat) : (header n).length = headerSize := by
  simp [header, Reader.length_littleEndian, length_magic, headerSize]

/-- The length that a header announces is found, unless it exceeds the limit. -/
theorem payloadLength_header {n : Nat} (h : n < UInt32.size) (limit : UInt64) :
    payloadLength limit (header n) =
      if limit.toNat < n then .error (.corrupt (.payloadExceedsLimit n.toUInt32 limit))
      else .ok n := by
  have two : (Reader.littleEndian 2 recordVersion.toNat).length = 2 := Reader.length_littleEndian ..
  have four : (Reader.littleEndian 4 n).length = 4 := Reader.length_littleEndian ..
  have first : (header n).take 4 = magic := by
    rw [header, List.append_assoc, List.take_left' length_magic]
  have version : ((header n).drop 4).take 2 = Reader.littleEndian 2 recordVersion.toNat := by
    rw [header, List.append_assoc, List.drop_left' length_magic, List.take_left' two]
  have length : ((header n).drop 6).take 4 = Reader.littleEndian 4 n := by
    rw [header, List.drop_left' (by simp [length_magic, two]),
      List.take_of_length_le (by simp [four])]
  rw [payloadLength, first, version, length, Reader.ofLittleEndian_littleEndian (by decide),
    Reader.ofLittleEndian_littleEndian h]
  simp

/-- A record within the limit is read as its archive, if that can be read, and what stands behind it
is left. -/
theorem decode_of_encode_eq_ok_iff {a b : Archive} {bytes : List UInt8}
    (encoded : encode a = .ok bytes) {settings : Settings} {suffix left : List UInt8}
    {ending : Ending} :
    decode settings ⟨bytes ++ suffix, ending⟩ = .ok (b, left) ↔
      (payload a).length ≤ settings.maxBytes.toNat ∧ a.admitted = .ok b ∧ left = suffix := by
  rw [encode] at encoded
  split at encoded
  · rename_i fits
    obtain rfl := Except.ok.inj encoded
    rw [decode, List.append_assoc, List.take_left' (length_header _),
      List.drop_left' (length_header _), if_neg (by rw [length_header]; omega),
      payloadLength_header fits]
    by_cases exceeds : settings.maxBytes.toNat < (payload a).length
    · simp only [if_pos exceeds, bind, Except.bind, Nat.not_le.2 exceeds, false_and, reduceCtorEq]
    · simp only [if_neg exceeds, bind, Except.bind, List.take_left, List.drop_left, Nat.lt_irrefl,
        if_false, ofPayload_payload fits, Nat.not_lt.1 exceeds, true_and]
      cases a.admitted <;> simp [pure, Except.pure, eq_comm]
  · cases encoded

/-- A record is read back, and what stands behind it is left. -/
theorem decode_encode {a : Archive} (kind : isValidName a.kind = true)
    (names : ∀ entry ∈ a.fields, isValidName entry.1 = true)
    (fits : (payload a).length < UInt32.size) :
    ∃ bytes, encode a = .ok bytes ∧
      ∀ (settings : Settings) (suffix : List UInt8) (ending : Ending),
        bytes.length ≤ settings.maxBytes.toNat →
          decode settings ⟨bytes ++ suffix, ending⟩ = .ok (a, suffix) := by
  have encoded : encode a = .ok (header (payload a).length ++ payload a) := by
    rw [encode, if_pos fits]
  refine ⟨_, encoded, fun settings suffix ending room => ?_⟩
  rw [List.length_append] at room
  exact (decode_of_encode_eq_ok_iff encoded).2 ⟨by omega, Archive.admitted_eq kind names, rfl⟩

end Binary

end SparseTensor
