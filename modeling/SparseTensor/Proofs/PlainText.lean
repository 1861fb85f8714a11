/-
# Plain texts

Names and numbers are plain: letters, digits and underscores, one byte each.  What stands around
them in a record is of other bytes or of blanks, so a reader can tell where they end.
-/
import Mathlib.Algebra.Group.Nat.Defs
import Mathlib.Data.Bool.AllAny
import SparseTensor.Archive
import SparseTensor.Text.Blank
import SparseTensor.Text.Numeral
import SparseTensor.Text.Utf8

namespace SparseTensor.Text

/-! ## Bytes of texts -/

/-- Texts that stand one behind the other are written so. -/
theorem bytes_ofList_append (s t : List Char) :
    bytes (String.ofList (s ++ t)) = bytes (String.ofList s) ++ bytes (String.ofList t) := by
  simp [bytes, String.toByteArray_ofList]

/-- Texts that are put together are written one behind the other. -/
theorem bytes_flatMap {α : Type} {f : α → List Char} {g : α → List UInt8} {items : List α}
    (h : ∀ x ∈ items, bytes (String.ofList (f x)) = g x) :
    bytes (String.ofList (items.flatMap f)) = items.flatMap g := by
  induction items with
  | nil => rfl
  | cons x items ih =>
      rw [List.flatMap_cons, List.flatMap_cons, bytes_ofList_append, h x List.mem_cons_self,
        ih fun y hy => h y (List.mem_cons_of_mem x hy)]

/-- ASCII characters are written as one byte each. -/
theorem bytes_ofList {s : List Char} (ascii : ∀ c ∈ s, c.toNat < 128) :
    bytes (String.ofList s) = s.map Char.toUInt8 := by
  induction s with
  | nil => rfl
  | cons c s ih =>
      have small : c.utf8Size = 1 := by
        have : c.val ≤ 127 := Nat.le_of_lt_succ (ascii c List.mem_cons_self)
        simp [Char.utf8Size, this]
      have first : bytes (String.ofList [c]) = [c.toUInt8] := by
        simp [bytes, List.utf8Encode_singleton, String.utf8EncodeChar_eq_singleton small]
      have split := bytes_ofList_append [c] s
      rw [first, ih fun d hd => ascii d (List.mem_cons_of_mem c hd)] at split
      exact split

/-- Whether a text is ASCII. -/
def isAscii (s : List Char) : Bool := s.all fun c => c.toNat < 128

/-- The characters of an ASCII text. -/
theorem ascii_of_isAscii {s : List Char} (h : isAscii s = true) : ∀ c ∈ s, c.toNat < 128 :=
  List.all_iff_forall_prop.1 h

/-- An ASCII text is written as one byte for each character. -/
theorem bytes_eq {s : String} (h : isAscii s.toList = true) :
    bytes s = s.toList.map Char.toUInt8 := by
  rw [← bytes_ofList (ascii_of_isAscii h), String.ofList_toList]

/-- A character that is not ASCII has no ASCII byte. -/
theorem high_of_mem_utf8EncodeChar {c : Char} (wide : ¬ c.toNat < 128) {b : UInt8}
    (h : b ∈ String.utf8EncodeChar c) : 0x80 ≤ b := by
  have wide : ¬ c.val.toNat ≤ 127 := fun small => wide (Nat.lt_succ_of_le small)
  have continuation : ∀ n, 0x80 ≤ UInt8.ofNat (n % 64 + 128) := by
    intro n
    simp only [UInt8.le_iff_toNat_le, UInt8.toNat_ofNat', UInt8.toNat_ofNat]
    omega
  have leads : ∀ n, 0x80 ≤ UInt8.ofNat (n % 32 + 192) ∧ 0x80 ≤ UInt8.ofNat (n % 16 + 224) ∧
      0x80 ≤ UInt8.ofNat (n % 8 + 240) := by
    intro n
    simp only [UInt8.le_iff_toNat_le, UInt8.toNat_ofNat', UInt8.toNat_ofNat]
    omega
  simp only [String.utf8EncodeChar, if_neg wide] at h
  split at h
  · simp only [List.mem_cons, List.not_mem_nil, or_false] at h
    rcases h with rfl | rfl
    · exact (leads _).1
    · exact continuation _
  split at h
  · simp only [List.mem_cons, List.not_mem_nil, or_false] at h
    rcases h with rfl | rfl | rfl
    · exact (leads _).2.1
    · exact continuation _
    · exact continuation _
  · simp only [List.mem_cons, List.not_mem_nil, or_false] at h
    rcases h with rfl | rfl | rfl | rfl
    · exact (leads _).2.2
    · exact continuation _
    · exact continuation _
    · exact continuation _

/-- An ASCII byte of a text is an ASCII character of it. -/
theorem toUInt8_mem_of_mem_bytes {s : List Char} {b : UInt8} (h : b ∈ bytes (String.ofList s))
    (ascii : b < 0x80) : ∃ c ∈ s, c.toNat < 128 ∧ c.toUInt8 = b := by
  induction s with
  | nil => simp [bytes] at h
  | cons c s ih =>
      rw [← List.singleton_append, bytes_ofList_append] at h
      rcases List.mem_append.1 h with h | h
      · by_cases small : c.toNat < 128
        · rw [bytes_ofList (by simpa using small), List.map_singleton, List.mem_singleton] at h
          exact ⟨c, List.mem_cons_self, small, h.symm⟩
        · have same : bytes (String.ofList [c]) = String.utf8EncodeChar c := by
            simp [bytes, List.utf8Encode_singleton]
          rw [same] at h
          exact absurd ascii (UInt8.not_lt.2 (high_of_mem_utf8EncodeChar small h))
      · obtain ⟨d, hd, found⟩ := ih h
        exact ⟨d, List.mem_cons_of_mem c hd, found⟩

/-- What holds of all ASCII characters can be checked one by one. -/
theorem forall_ascii {P : Char → Prop} (h : ∀ n < 128, P (Char.ofNat n)) {c : Char}
    (ascii : c.toNat < 128) : P c := by
  have := h c.toNat ascii
  rwa [Char.ofNat_toNat] at this

/-- A text has no fewer bytes than characters. -/
theorem length_le_bytes (s : List Char) : s.length ≤ (bytes (String.ofList s)).length := by
  induction s with
  | nil => exact Nat.zero_le _
  | cons c s ih =>
      have first : 0 < (bytes (String.ofList [c])).length := by
        simp [bytes, List.utf8Encode_singleton, String.length_utf8EncodeChar, Char.utf8Size_pos]
      rw [← List.singleton_append, bytes_ofList_append, List.length_append, List.length_append]
      simp only [List.length_cons, List.length_nil]
      omega

/-! ## Plain characters and bytes -/

/-- A character of names and numbers. -/
def isPlain (c : Char) : Bool := c.isAlphanum || c = '_'

/-- A byte of names and numbers. -/
def isPlainByte (b : UInt8) : Bool :=
  (0x30 ≤ b && b ≤ 0x39) || (0x41 ≤ b && b ≤ 0x5A) || b == 0x5F || (0x61 ≤ b && b ≤ 0x7A)

/-- Plain characters are ASCII. -/
theorem toNat_lt_of_isPlain {c : Char} (h : isPlain c = true) : c.toNat < 128 := by
  have ranges : isPlain c = ((decide ('A'.val ≤ c.val ∧ c.val ≤ 'Z'.val) ||
      ('a'.val ≤ c.val && c.val ≤ 'z'.val)) || ('0'.val ≤ c.val && c.val ≤ '9'.val) ||
        c = '_') := rfl
  simp only [ranges, Bool.or_eq_true, Bool.and_eq_true, decide_eq_true_eq,
    UInt32.le_iff_toNat_le] at h
  rcases h with ((⟨-, h⟩ | ⟨-, h⟩) | ⟨-, h⟩) | rfl
  · exact Nat.lt_of_le_of_lt h (by decide)
  · exact Nat.lt_of_le_of_lt h (by decide)
  · exact Nat.lt_of_le_of_lt h (by decide)
  · decide

/-- Plain characters are written as plain bytes. -/
theorem isPlainByte_toUInt8 {c : Char} (h : isPlain c = true) : isPlainByte c.toUInt8 = true :=
  forall_ascii (P := fun c => isPlain c = true → isPlainByte c.toUInt8 = true) (by decide)
    (toNat_lt_of_isPlain h) h

/-- A plain character is not white. -/
theorem isBlank_of_isPlain {c : Char} (h : isPlain c = true) : isBlank c = false :=
  forall_ascii (P := fun c => isPlain c = true → isBlank c = false) (by decide)
    (toNat_lt_of_isPlain h) h

/-- A plain byte is none that is not plain. -/
theorem ne_of_isPlainByte {b d : UInt8} (h : isPlainByte b = true) (other : isPlainByte d = false) :
    b ≠ d := by
  rintro rfl
  rw [h] at other
  cases other

/-- A plain byte is no blank. -/
theorem isBlankByte_of_isPlainByte {b : UInt8} (h : isPlainByte b = true) :
    isBlankByte b = false := by
  simp only [isBlankByte, Bool.or_eq_false_iff, beq_eq_false_iff_ne]
  exact ⟨⟨⟨ne_of_isPlainByte h (by decide), ne_of_isPlainByte h (by decide)⟩,
    ne_of_isPlainByte h (by decide)⟩, ne_of_isPlainByte h (by decide)⟩

/-- A written number below 2 ^ 64 is read back. -/
theorem word64?_render_of_lt {n : Nat} (h : n < 2 ^ 64) :
    Numeral.word64? (Numeral.render n) = some n.toUInt64 := by
  rw [Numeral.word64?, Numeral.parse?_render (show n ≤ UInt64.size - 1 from Nat.le_sub_one_of_lt h),
    Option.map_some]

/-- A greater number is too great for a word. -/
theorem word64?_render_of_le {n : Nat} (h : 2 ^ 64 ≤ n) :
    Numeral.word64? (Numeral.render n) = none := by
  have digits : ∀ c ∈ Numeral.render n, c.isDigit = true := fun c hc =>
    Nat.isDigit_of_mem_toDigits (by decide) (by decide) hc
  have value : Nat.ofDigitChars 10 (Numeral.render n) 0 = n := Nat.ofDigitChars_ten_toDigits
  have large : ¬ n ≤ UInt64.size - 1 := Nat.not_le.2 (Nat.lt_of_lt_of_le (by decide) h)
  simp only [Numeral.word64?, Numeral.parse?, Numeral.dropSign_of_isDigit digits, value,
    if_neg large, ite_self, Option.map_none]

/-! ## Plain texts -/

/-- A text of plain characters, one at least. -/
structure Plain (s : List Char) : Prop where
  nonempty : s ≠ []
  plain : ∀ c ∈ s, isPlain c = true

/-- Valid names are plain. -/
theorem plain_of_isValidName {name : String} (h : isValidName name = true) :
    Plain name.toList := by
  simp only [isValidName, Bool.and_eq_true, Bool.not_eq_true', List.isEmpty_eq_false_iff,
    List.all_eq_true] at h
  exact ⟨h.1, h.2⟩

/-- Written numbers are plain. -/
theorem plain_render (n : Nat) : Plain (Numeral.render n) where
  nonempty := Nat.toDigits_ne_nil
  plain := by
    intro c hc
    have digit : c.isDigit = true := Nat.isDigit_of_mem_toDigits (by decide) (by decide) hc
    simp [isPlain, Char.isAlphanum, digit]

variable {s : List Char}

/-- A plain text has no blanks. -/
theorem Plain.isBlank (h : Plain s) : ∀ c ∈ s, Text.isBlank c = false :=
  fun c hc => isBlank_of_isPlain (h.plain c hc)

/-- A plain text is ASCII. -/
theorem Plain.ascii (h : Plain s) : ∀ c ∈ s, c.toNat < 128 :=
  fun c hc => toNat_lt_of_isPlain (h.plain c hc)

/-- A plain text is written as one byte for each character. -/
theorem Plain.bytes (h : Plain s) : Text.bytes (String.ofList s) = s.map Char.toUInt8 :=
  bytes_ofList h.ascii

/-- The bytes of a plain text are plain. -/
theorem Plain.isPlainByte (h : Plain s) {b : UInt8} (hb : b ∈ s.map Char.toUInt8) :
    Text.isPlainByte b = true := by
  obtain ⟨c, hc, rfl⟩ := List.mem_map.1 hb
  exact isPlainByte_toUInt8 (h.plain c hc)

/-! ## Words -/

/-- Cutting at blanks undoes putting blanks between runs without any. -/
theorem splitOnP_intercalate {ws : List (List Char)} (some : ws ≠ [])
    (solid : ∀ w ∈ ws, ∀ c ∈ w, isBlank c = false) :
    ([' '].intercalate ws).splitOnP isBlank = ws := by
  induction ws with
  | nil => exact absurd rfl some
  | cons w ws ih =>
      have first := solid w List.mem_cons_self
      cases ws with
      | nil =>
          rw [List.intercalate_singleton]
          exact List.splitOnP_eq_singleton first
      | cons v ws =>
          rw [List.intercalate_cons_cons, List.append_assoc, List.cons_append, List.nil_append,
            List.splitOnP_append_cons_of_forall_mem first ' ' (by decide),
            ih (by simp) fun u hu => solid u (List.mem_cons_of_mem w hu)]

/-- The words of texts with blanks between them are those that are not empty. -/
theorem words_intercalate_eq_filter {ws : List (List Char)}
    (solid : ∀ w ∈ ws, ∀ c ∈ w, isBlank c = false) :
    words ([' '].intercalate ws) = ws.filter fun w => !w.isEmpty := by
  cases ws with
  | nil => rfl
  | cons w ws => rw [words, splitOnP_intercalate (by simp) solid]

/-- The words of words with blanks between them. -/
theorem words_intercalate {ws : List (List Char)} (nonempty : ∀ w ∈ ws, w ≠ [])
    (solid : ∀ w ∈ ws, ∀ c ∈ w, isBlank c = false) : words ([' '].intercalate ws) = ws := by
  rw [words_intercalate_eq_filter solid, List.filter_eq_self]
  intro w hw
  simpa using nonempty w hw

/-- What holds of a blank and of the characters of words holds of words with blanks between
them. -/
theorem forall_mem_intercalate {P : Char → Prop} {ws : List (List Char)} (blank : P ' ')
    (h : ∀ w ∈ ws, ∀ c ∈ w, P c) : ∀ c ∈ [' '].intercalate ws, P c := by
  induction ws with
  | nil => simp
  | cons w ws ih =>
      have others := ih fun v hv => h v (List.mem_cons_of_mem w hv)
      intro c hc
      cases ws with
      | nil =>
          rw [List.intercalate_singleton] at hc
          exact h w List.mem_cons_self c hc
      | cons v ws =>
          rw [List.intercalate_cons_cons, List.append_assoc, List.singleton_append] at hc
          rcases List.mem_append.1 hc with hc | hc
          · exact h w List.mem_cons_self c hc
          · rcases List.mem_cons.1 hc with rfl | hc
            · exact blank
            · exact others c hc

/-- There are no more words than characters. -/
theorem length_le_intercalate {ws : List (List Char)} (nonempty : ∀ w ∈ ws, w ≠ []) :
    ws.length ≤ ([' '].intercalate ws).length := by
  induction ws with
  | nil => simp
  | cons w ws ih =>
      have first := List.length_pos_iff.2 (nonempty w List.mem_cons_self)
      have others := ih fun v hv => nonempty v (List.mem_cons_of_mem w hv)
      cases ws with
      | nil =>
          rw [List.intercalate_singleton]
          exact first
      | cons v ws =>
          rw [List.intercalate_cons_cons]
          simp only [List.length_append, List.length_cons] at others ⊢
          omega

/-- Words with blanks between them start and end with characters of words. -/
theorem isPlain_of_ends {ws : List (List Char)} (plain : ∀ w ∈ ws, Plain w) {c : Char}
    (h : ([' '].intercalate ws).head? = some c ∨ ([' '].intercalate ws).getLast? = some c) :
    isPlain c = true := by
  induction ws with
  | nil => simp at h
  | cons w ws ih =>
      have first := plain w List.mem_cons_self
      cases ws with
      | nil =>
          rw [List.intercalate_singleton] at h
          rcases h with h | h
          · exact first.plain c (List.mem_of_head? h)
          · exact first.plain c (List.mem_of_getLast? h)
      | cons v ws =>
          have second := (plain v (by simp)).nonempty
          have some : [' '].intercalate (v :: ws) ≠ [] := by
            cases ws <;> simp [second]
          rw [List.intercalate_cons_cons, List.append_assoc] at h
          rcases h with h | h
          · obtain ⟨d, ds, rfl⟩ := List.exists_cons_of_ne_nil first.nonempty
            obtain rfl : d = c := Option.some.inj h
            exact first.plain d List.mem_cons_self
          · rw [List.getLast?_append, List.getLast?_append, List.getLast?_eq_some_getLast some] at h
            refine ih (fun u hu => plain u (List.mem_cons_of_mem w hu)) (.inr ?_)
            rw [List.getLast?_eq_some_getLast some]
            exact h

/-- Trimming does nothing where there are no blanks. -/
theorem trim_eq (solid : ∀ c ∈ s, isBlank c = false) : trim s = s := by
  have front : ∀ t : List Char, (∀ c ∈ t, isBlank c = false) → t.dropWhile isBlank = t := by
    intro t h
    cases t with
    | nil => rfl
    | cons c t => rw [List.dropWhile_cons_of_neg (by simp [h c])]
  unfold trim
  rw [front s solid, front s.reverse (by simpa using solid), List.reverse_reverse]

end SparseTensor.Text
