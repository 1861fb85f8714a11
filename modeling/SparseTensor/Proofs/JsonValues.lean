/-
# JSON values are read back

A scanner reads a value from its bytes wherever these stand: behind any blanks, and in front of a
byte that can follow a value (`Reads`).  Strings end at their quote, but a number is only complete
when the byte behind it is known.  Arrays and objects are read item by item.
-/
import SparseTensor.Proofs.JsonNumerals
import SparseTensor.Proofs.PlainText
import SparseTensor.Record.Json

namespace SparseTensor.Json

variable {α : Type}

/-! ## Bytes around values -/

/-- A byte that stands behind a value in a record. -/
def isStop (b : UInt8) : Bool :=
  b == ','.toUInt8 || b == ']'.toUInt8 || b == '\x7d'.toUInt8 || b == '\n'.toUInt8

/-- Stops may stand behind values. -/
theorem canFollow_of_isStop {b : UInt8} (stop : isStop b = true) : canFollow b = true := by
  simp only [isStop, Bool.or_eq_true, beq_iff_eq] at stop
  rcases stop with ((rfl | rfl) | rfl) | rfl <;> decide

/-- Blanks are skipped. -/
theorem skipBlanks_append {blanks : List UInt8} (h : ∀ b ∈ blanks, Text.isBlankByte b = true)
    (rest : List UInt8) : skipBlanks (blanks ++ rest) = skipBlanks rest :=
  List.dropWhile_append_of_pos h

/-- Nothing is skipped in front of a byte that is not blank. -/
theorem skipBlanks_cons {b : UInt8} (h : Text.isBlankByte b = false) (rest : List UInt8) :
    skipBlanks (b :: rest) = b :: rest :=
  List.dropWhile_cons_of_neg (by simp [h])

/-- A scanner reads a value from some bytes behind any blanks and in front of any byte that stands
behind values. -/
def Reads (item : Scanner α) (bytes : List UInt8) (a : α) : Prop :=
  ∀ (blanks : List UInt8) (b : UInt8) (rest : List UInt8),
    (∀ b ∈ blanks, Text.isBlankByte b = true) → isStop b = true →
      item.scan (blanks ++ (bytes ++ b :: rest)) = .done a (b :: rest)

/-- A scanner takes a value from some bytes behind any blanks, whatever stands behind them. -/
def Takes (item : Scanner α) (bytes : List UInt8) (a : α) : Prop :=
  ∀ blanks rest : List UInt8, (∀ b ∈ blanks, Text.isBlankByte b = true) →
    item.scan (blanks ++ (bytes ++ rest)) = .done a rest

/-- What is taken wherever it ends is read in front of a stop. -/
theorem Takes.reads {item : Scanner α} {bytes : List UInt8} {a : α} (h : Takes item bytes a) :
    Reads item bytes a :=
  fun blanks b rest blank _ => h blanks (b :: rest) blank

/-! ## Numbers -/

/-- The digits of a number, one byte each. -/
def digitBytes (n : Nat) : List UInt8 := (SparseTensor.Numeral.render n).map Char.toUInt8

/-- Digits are digits again as bytes. -/
theorem digit_toUInt8 :
    ∀ d < 10, isDigit d.digitChar.toUInt8 = true ∧ digitValue d.digitChar.toUInt8 = d := by
  decide

/-- The digits of a number below ten. -/
theorem digitBytes_of_lt {n : Nat} (h : n < 10) : digitBytes n = [n.digitChar.toUInt8] := by
  rw [digitBytes, SparseTensor.Numeral.render, Nat.toDigits_of_lt_base h]
  rfl

/-- The digits of any other number. -/
theorem digitBytes_of_le {n : Nat} (h : 10 ≤ n) :
    digitBytes n = digitBytes (n / 10) ++ [(n % 10).digitChar.toUInt8] := by
  rw [digitBytes, SparseTensor.Numeral.render, Nat.toDigits_of_base_le (by decide) h,
    List.map_append]
  rfl

/-- All bytes of a number are digits. -/
theorem isDigit_of_mem_digitBytes {n : Nat} {b : UInt8} (h : b ∈ digitBytes n) :
    isDigit b = true := by
  induction n using Nat.strongRecOn with
  | ind n ih =>
      rcases Nat.lt_or_ge n 10 with small | large
      · rw [digitBytes_of_lt small] at h
        obtain rfl := List.mem_singleton.1 h
        exact (digit_toUInt8 n small).1
      · rw [digitBytes_of_le large] at h
        rcases List.mem_append.1 h with h | h
        · exact ih (n / 10) (by omega) h
        · obtain rfl := List.mem_singleton.1 h
          exact (digit_toUInt8 (n % 10) (by omega)).1

/-- A number has digits, and only zero starts with zero. -/
theorem digitBytes_eq_cons (n : Nat) :
    ∃ d ds, digitBytes n = d :: ds ∧ (d = 0x30 → ds = []) := by
  suffices h : 0 < n → ∃ d ds, digitBytes n = d :: ds ∧ d ≠ 0x30 by
    rcases Nat.eq_zero_or_pos n with rfl | pos
    · exact ⟨0x30, [], rfl, fun _ => rfl⟩
    · obtain ⟨d, ds, same, other⟩ := h pos
      exact ⟨d, ds, same, fun zero => absurd zero other⟩
  intro pos
  induction n using Nat.strongRecOn with
  | ind n ih =>
      rcases Nat.lt_or_ge n 10 with small | large
      · have nonzero : ∀ d < 10, 0 < d → d.digitChar.toUInt8 ≠ 0x30 := by decide
        exact ⟨_, [], digitBytes_of_lt small, nonzero n small pos⟩
      · obtain ⟨d, ds, same, other⟩ := ih (n / 10) (by omega) (by omega)
        exact ⟨d, ds ++ _, by rw [digitBytes_of_le large, same]; rfl, other⟩

/-- Digits are appended one after another. -/
theorem absorb_append {k m : Nat} {ds : List UInt8} (h : absorb k ds = (m, []))
    (more : List UInt8) : absorb k (ds ++ more) = absorb m more := by
  induction ds generalizing k with
  | nil =>
      cases h
      rfl
  | cons d ds ih =>
      rw [absorb] at h
      rw [List.cons_append, absorb]
      split at h
      · rename_i fits
        rw [if_pos fits]
        exact ih h
      · cases h

/-- The digits of a number below 2 ^ 64 give the number. -/
theorem absorb_digitBytes {n : Nat} (h : n < UInt64.size) : absorb 0 (digitBytes n) = (n, []) := by
  induction n using Nat.strongRecOn with
  | ind n ih =>
      rcases Nat.lt_or_ge n 10 with small | large
      · rw [digitBytes_of_lt small, absorb]
        simp [(digit_toUInt8 n small).2, h, absorb]
      · have value : 10 * (n / 10) + n % 10 = n := by omega
        rw [digitBytes_of_le large, absorb_append (ih (n / 10) (by omega) (by omega)), absorb]
        simp [(digit_toUInt8 (n % 10) (by omega)).2, value, h, absorb]

/-- The digits of a number are those of an integer. -/
theorem isInteger_digitBytes (n : Nat) : Numeral.IsInteger (digitBytes n) := by
  obtain ⟨d, ds, same, zero⟩ := digitBytes_eq_cons n
  refine ⟨⟨?_, fun b hb => isDigit_of_mem_digitBytes hb⟩, fun first => ?_⟩
  · rw [same]
    exact List.cons_ne_nil d ds
  · rw [same] at first ⊢
    obtain rfl := Option.some.inj first
    rw [zero rfl]

/-- A written number is read back in front of a byte that stands behind values. -/
theorem scanNumber_digitBytes (ending : Ending) {n : Nat} (h : n < 2 ^ 64) {b : UInt8}
    (stop : isStop b = true) (rest : List UInt8) :
    scanNumber ending (digitBytes n ++ b :: rest) = .done (some n.toUInt64) (b :: rest) := by
  have spelled : Numeral.IsNumeral (digitBytes n) ⟨false, digitBytes n, none, none⟩ := by
    simpa using Numeral.IsNumeral.parts false (isInteger_digitBytes n) .absent .absent
  have value : (⟨false, digitBytes n, none, none⟩ : Numeral).natural? = some n.toUInt64 := by
    simp [Numeral.natural?, absorb_digitBytes h]
  have bounded : (⟨false, digitBytes n, none, none⟩ : Numeral).Bounded :=
    ⟨rfl, .inl (by rw [value]; rfl)⟩
  rw [spelled.scanNumber_append bounded (canFollow_of_isStop stop), value]

/-! ## Strings -/

/-- An escape is read as the bytes that it stands for. -/
theorem textUpToQuote_of_escape {before rest meant behind : List UInt8}
    (h : escape rest = .done meant behind) :
    textUpToQuote before (backslash :: rest) = textUpToQuote (meant.reverseAux before) behind := by
  rw [textUpToQuote.eq_def]
  simp only [if_neg (show backslash ≠ quote by decide), if_pos]
  split
  · rename_i found
    cases h.symm.trans found
    rfl
  · rename_i found
    cases h.symm.trans found
  · rename_i found
    cases h.symm.trans found

/-- A letter stands for its control. -/
theorem escape_letter : ∀ entry ∈ controlLetters, ∀ rest,
    escape (entry.2.toUInt8 :: rest) = .done [entry.1] rest := by
  intro entry hentry rest
  simp only [controlLetters, List.mem_cons, List.not_mem_nil, or_false] at hentry
  rcases hentry with rfl | rfl | rfl | rfl | rfl <;> rfl

/-- The four digits of a control. -/
def controlDigits (b : UInt8) : List UInt8 :=
  [0x30, 0x30] ++ [(b / 16).toNat, (b % 16).toNat].map fun digit => (Nat.digitChar digit).toUInt8

/-- The digits of a control denote it. -/
theorem value?_controlDigits :
    ∀ n < 32, Hexadecimal.value? ((controlDigits n.toUInt8).map Char.ofUInt8) = some n := by
  decide

/-- The code of a control stands for it. -/
theorem escape_code {b : UInt8} (control : b < 0x20) (rest : List UInt8) :
    escape ('u'.toUInt8 :: (controlDigits b ++ rest)) = .done [b] rest := by
  have small : b.toNat < 32 := UInt8.lt_iff_toNat_lt.1 control
  have value := value?_controlDigits b.toNat small
  rw [show b.toNat.toUInt8 = b from UInt8.ofNat_toNat] at value
  have coded : code (controlDigits b ++ rest) = .done b.toNat rest := by
    have four : (controlDigits b).length = 4 := rfl
    rw [code, List.take_left' four, List.drop_left' four, if_neg (by omega), value]
  have char : ∀ n < 32, isTrailing n = false ∧ isLeading n = false ∧ (Char.ofNat n).toNat < 128 ∧
      (Char.ofNat n).toUInt8 = n.toUInt8 := by decide
  obtain ⟨noTrailing, noLeading, ascii, same⟩ := char b.toNat small
  have bytes : Text.bytes (Char.ofNat b.toNat).toString = [b] := by
    have written := Text.bytes_ofList (s := [Char.ofNat b.toNat]) (by simpa using ascii)
    rw [List.map_singleton, same, show b.toNat.toUInt8 = b from UInt8.ofNat_toNat] at written
    exact written
  rw [escape, if_neg (by decide), if_pos rfl, codedChar, coded]
  simp only [Scan.andThen, noTrailing, noLeading, Bool.false_eq_true, if_false, Bool.not_false,
    if_true, Scan.map, bytes]

/-- A byte that is written as an escape is read back from it. -/
theorem escape_escaped {b : UInt8} (special : b = quote ∨ b = backslash ∨ b < 0x20) :
    ∃ written, escaped b = backslash :: written ∧
      ∀ rest, escape (written ++ rest) = .done [b] rest := by
  by_cases mark : b = quote ∨ b = backslash
  · refine ⟨[b], by rw [escaped, if_pos mark], fun rest => ?_⟩
    rw [List.singleton_append, escape, if_pos (or_assoc.1 (.inl mark))]
  have control : b < 0x20 := by
    rcases special with h | h | h
    · exact absurd (.inl h) mark
    · exact absurd (.inr h) mark
    · exact h
  rw [escaped, if_neg mark, if_pos control]
  cases found : controlLetters.lookup b with
  | some letter =>
      obtain ⟨before, after, split, -⟩ := List.lookup_eq_some_iff.1 found
      exact ⟨[letter.toUInt8], rfl, escape_letter (b, letter) (by simp [split])⟩
  | none =>
      have front : Text.bytes "\\u00" = [backslash, 'u'.toUInt8, 0x30, 0x30] :=
        Text.bytes_eq (by decide)
      exact ⟨'u'.toUInt8 :: controlDigits b, by rw [front]; rfl, escape_code control⟩

/-- A written byte is read back. -/
theorem textUpToQuote_escaped (b : UInt8) (before rest : List UInt8) :
    textUpToQuote before (escaped b ++ rest) = textUpToQuote (b :: before) rest := by
  by_cases special : b = quote ∨ b = backslash ∨ b < 0x20
  · obtain ⟨written, same, read⟩ := escape_escaped special
    rw [same, List.cons_append, textUpToQuote_of_escape (read rest)]
    rfl
  · obtain ⟨noQuote, noBackslash, high⟩ : b ≠ quote ∧ b ≠ backslash ∧ ¬ b < 0x20 := by
      simpa only [not_or] using special
    rw [escaped, if_neg (by simp [noQuote, noBackslash]), if_neg high, List.singleton_append,
      textUpToQuote, if_neg noQuote, if_neg noBackslash, if_neg high]

/-- A string in front of other bytes. -/
theorem stringBytes_append (s : String) (rest : List UInt8) :
    stringBytes s ++ rest = quote :: ((Text.bytes s).flatMap escaped ++ quote :: rest) := by
  simp [stringBytes]

/-- A written text is read back up to its quote. -/
theorem scanText_flatMap (s : String) (rest : List UInt8) :
    scanText ((Text.bytes s).flatMap escaped ++ quote :: rest) = .done s rest := by
  suffices h : ∀ bs before : List UInt8, before.reverse ++ bs = Text.bytes s →
      textUpToQuote before (bs.flatMap escaped ++ quote :: rest) = .done s rest from
    h (Text.bytes s) [] rfl
  intro bs
  induction bs with
  | nil =>
      intro before text
      rw [List.append_nil] at text
      rw [List.flatMap_nil, List.nil_append, textUpToQuote, if_pos rfl, text, Text.ofBytes?_bytes]
  | cons b bs ih =>
      intro before text
      rw [List.flatMap_cons, List.append_assoc, textUpToQuote_escaped]
      exact ih (b :: before) (by simpa using text)

/-! ## Sequences -/

/-- What follows an item decides whether there are more. -/
theorem itemsUpTo_of_done {item : Scanner α} {close : UInt8} {before : List α}
    {bytes rest next : List UInt8} {a : α} {b : UInt8} (found : item.scan bytes = .done a rest)
    (behind : skipBlanks rest = b :: next) :
    item.itemsUpTo close before bytes =
      if b = close then .done (a :: before).reverse next
      else if b = ','.toUInt8 then item.itemsUpTo close (a :: before) next else .malformed := by
  rw [Scanner.itemsUpTo.eq_def]
  split
  · rename_i other
    cases found.symm.trans other
  · rename_i other
    cases found.symm.trans other
  · rename_i other
    cases found.symm.trans other
    split
    · rename_i other
      cases behind.symm.trans other
    · rename_i other
      cases behind.symm.trans other
      rfl

/-- Written items are read back up to the closing byte.  Blanks may stand in front of the first
item and behind every comma. -/
theorem itemsUpTo_intercalate {item : Scanner α} {close : UInt8} {items : List (α × List UInt8)}
    {front back : List UInt8} (some : items ≠ []) (reads : ∀ i ∈ items, Reads item i.2 i.1)
    (frontBlank : ∀ b ∈ front, Text.isBlankByte b = true)
    (backBlank : ∀ b ∈ back, Text.isBlankByte b = true)
    (solid : Text.isBlankByte close = false) (other : close ≠ ','.toUInt8) {rest : List UInt8}
    (stops : ∃ b more, back ++ close :: rest = b :: more ∧ isStop b = true)
    {lead : List UInt8} (leadBlank : ∀ b ∈ lead, Text.isBlankByte b = true) (before : List α) :
    item.itemsUpTo close before
        (lead ++ ((','.toUInt8 :: front).intercalate (items.map Prod.snd) ++
          (back ++ close :: rest))) =
      .done (before.reverse ++ items.map Prod.fst) rest := by
  induction items generalizing before lead with
  | nil => exact absurd rfl some
  | cons i items ih =>
      have first := reads i List.mem_cons_self
      cases items with
      | nil =>
          obtain ⟨b, more, same, stop⟩ := stops
          have behind : skipBlanks (b :: more) = close :: rest := by
            rw [← same, skipBlanks_append backBlank, skipBlanks_cons solid]
          rw [List.map_cons, List.map_nil, List.intercalate_singleton, same,
            itemsUpTo_of_done (first lead b more leadBlank stop) behind, if_pos rfl]
          simp
      | cons j items =>
          have others := ih (by simp) (fun k hk => reads k (List.mem_cons_of_mem i hk))
            frontBlank (i.1 :: before)
          rw [List.map_cons, List.map_cons, List.intercalate_cons_cons, ← List.map_cons]
          simp only [List.append_assoc, List.cons_append]
          rw [itemsUpTo_of_done (first lead ','.toUInt8 _ leadBlank (by decide))
            (skipBlanks_cons (by decide) _), if_neg (Ne.symm other), if_pos rfl, others]
          simp

/-! ## Indented sequences -/

/-- A line end is one byte. -/
theorem bytes_lineEnd : Text.bytes "\n" = ['\n'.toUInt8] := Text.bytes_eq (by decide)

/-- Line breaks are blank. -/
theorem isBlankByte_of_mem_lineBreak {pretty : Bool} {level : Nat} {b : UInt8}
    (h : b ∈ JsonRecord.lineBreak pretty level) : Text.isBlankByte b = true := by
  unfold JsonRecord.lineBreak at h
  split at h
  · rw [bytes_lineEnd] at h
    rcases List.mem_append.1 h with h | h
    · obtain rfl := List.mem_singleton.1 h
      decide
    · obtain ⟨-, rfl⟩ := List.mem_replicate.1 h
      decide
  · cases h

/-- A closing bracket, behind a line break or not, is a stop. -/
theorem exists_stop_of_lineBreak (pretty : Bool) (level : Nat) {close : UInt8}
    (stop : isStop close = true) (rest : List UInt8) :
    ∃ b more, JsonRecord.lineBreak pretty level ++ close :: rest = b :: more ∧
      isStop b = true := by
  unfold JsonRecord.lineBreak
  split
  · rw [bytes_lineEnd]
    exact ⟨_, _, rfl, by decide⟩
  · exact ⟨close, rest, rfl, stop⟩

/-- The items between brackets are read back. -/
theorem sequence_bracketed {item : Scanner α} {items : List (α × List UInt8)} {close : UInt8}
    (closes : close = ']'.toUInt8 ∨ close = '\x7d'.toUInt8)
    (reads : ∀ i ∈ items, Reads item i.2 i.1)
    (starts : ∀ i ∈ items, ∃ b more, i.2 = b :: more ∧ Text.isBlankByte b = false ∧ b ≠ close)
    (pretty : Bool) (level : Nat) (opening : UInt8) (rest : List UInt8) :
    ∃ body, JsonRecord.bracketed pretty level opening close (items.map Prod.snd) =
        opening :: body ∧
      item.sequence close (body ++ rest) = .done (items.map Prod.fst) rest := by
  have solid : Text.isBlankByte close = false ∧ close ≠ ','.toUInt8 ∧ isStop close = true := by
    rcases closes with rfl | rfl <;> decide
  have blank : ∀ n, ∀ b ∈ JsonRecord.lineBreak pretty n, Text.isBlankByte b = true :=
    fun n b hb => isBlankByte_of_mem_lineBreak hb
  cases items with
  | nil =>
      refine ⟨[close], rfl, ?_⟩
      rw [List.singleton_append, Scanner.sequence, skipBlanks_cons solid.1]
      simp
  | cons i items =>
      obtain ⟨b, more, same, noBlank, other⟩ := starts i List.mem_cons_self
      have read := itemsUpTo_intercalate (by simp) reads (blank (level + 1)) (blank level) solid.1
        solid.2.1 (exists_stop_of_lineBreak pretty level solid.2.2 rest)
        (List.forall_mem_nil _) []
      -- the first item does not start as the closing bracket, so the sequence is not empty
      have leads : ∃ after,
          (','.toUInt8 :: JsonRecord.lineBreak pretty (level + 1)).intercalate
            ((i :: items).map Prod.snd) = b :: after := by
        rw [List.map_cons, same]
        cases items.map Prod.snd with
        | nil => exact ⟨more, List.intercalate_singleton⟩
        | cons second others => exact ⟨_, List.intercalate_cons_cons⟩
      obtain ⟨after, leads⟩ := leads
      refine ⟨JsonRecord.lineBreak pretty (level + 1) ++
        ((','.toUInt8 :: JsonRecord.lineBreak pretty (level + 1)).intercalate
          ((i :: items).map Prod.snd) ++ (JsonRecord.lineBreak pretty level ++ [close])), ?_, ?_⟩
      · rw [List.map_cons, JsonRecord.bracketed]
        · simp only [List.cons_append, List.append_assoc]
        · simp
      · simp only [List.append_assoc, List.cons_append, List.nil_append]
        rw [leads] at read ⊢
        rw [Scanner.sequence, skipBlanks_append (blank (level + 1)), List.cons_append,
          skipBlanks_cons noBlank]
        simp only [if_neg other]
        exact read

/-! ## Values -/

/-- A value is told by its first byte. -/
theorem scan_value (ending : Ending) (levels : Nat) {blanks : List UInt8}
    (blank : ∀ b ∈ blanks, Text.isBlankByte b = true) {b : UInt8}
    (solid : Text.isBlankByte b = false) (rest : List UInt8) :
    ∃ inner, (value ending levels).scan (blanks ++ b :: rest) =
      startingWith ending inner b rest ∧
        ∀ below, levels = below + 1 → inner = some (value ending below) := by
  have skip := skipBlanks_append blank (b :: rest)
  rw [skipBlanks_cons solid] at skip
  cases levels with
  | zero =>
      refine ⟨none, ?_, fun _ h => nomatch h⟩
      simp only [value, valueOver, skip]
  | succ below =>
      refine ⟨some (value ending below), ?_, fun _ h => by cases h; rfl⟩
      simp only [value, valueOver, skip]

/-- The digits of a number start with one that is not blank. -/
theorem digitBytes_starts (n : Nat) {close : UInt8} (noDigit : isDigit close = false) :
    ∃ d ds, digitBytes n = d :: ds ∧ Text.isBlankByte d = false ∧ d ≠ close := by
  obtain ⟨d, ds, same, -⟩ := digitBytes_eq_cons n
  have digit : isDigit d = true := isDigit_of_mem_digitBytes (same ▸ List.mem_cons_self)
  refine ⟨d, ds, same, ?_, ?_⟩
  · simp only [Text.isBlankByte, Bool.or_eq_false_iff, beq_eq_false_iff_ne]
    refine ⟨⟨⟨?_, ?_⟩, ?_⟩, ?_⟩ <;>
      · rintro rfl
        exact absurd digit (by decide)
  · rintro rfl
    rw [digit] at noDigit
    cases noDigit

/-- A written number is a value. -/
theorem reads_number (ending : Ending) (levels : Nat) {n : Nat} (h : n < 2 ^ 64) :
    Reads (value ending levels) (digitBytes n) (.natural n.toUInt64) := by
  intro blanks b rest blank stop
  have noDigit := (not_numeric_of_canFollow (canFollow_of_isStop stop)).1
  obtain ⟨d, ds, same, noBlank, -⟩ := digitBytes_starts n noDigit
  have digit : isDigit d = true := isDigit_of_mem_digitBytes (same ▸ List.mem_cons_self)
  have scanned := scanNumber_digitBytes ending h stop rest
  rw [same, List.cons_append] at scanned ⊢
  obtain ⟨inner, starts, -⟩ := scan_value ending levels blank noBlank (ds ++ b :: rest)
  rw [starts, startingWith.eq_def, if_pos (.inl digit), scanned]
  rfl

/-- A written string is a value. -/
theorem takes_string (ending : Ending) (levels : Nat) (s : String) :
    Takes (value ending levels) (stringBytes s) (.string s) := by
  intro blanks rest blank
  obtain ⟨inner, starts, -⟩ := scan_value ending levels blank (b := quote) (by decide)
    ((Text.bytes s).flatMap escaped ++ quote :: rest)
  rw [stringBytes_append, starts, startingWith.eq_def, if_neg (by decide), if_pos rfl,
    scanText_flatMap]
  rfl

/-- A written array is a value. -/
theorem takes_array (ending : Ending) (levels : Nat) (items : List (Json × List UInt8))
    (reads : ∀ i ∈ items, Reads (value ending levels) i.2 i.1)
    (starts : ∀ i ∈ items, ∃ b more, i.2 = b :: more ∧ Text.isBlankByte b = false ∧
      b ≠ ']'.toUInt8) (pretty : Bool) (level : Nat) :
    Takes (value ending (levels + 1)) (JsonRecord.arrayBytes pretty level (items.map Prod.snd))
      (.array (items.map Prod.fst)) := by
  intro blanks rest blank
  obtain ⟨body, same, sequence⟩ := sequence_bracketed (.inl rfl) reads starts pretty level
    '['.toUInt8 rest
  obtain ⟨inner, first, nested⟩ := scan_value ending (levels + 1) blank (b := '['.toUInt8)
    (by decide) (body ++ rest)
  rw [JsonRecord.arrayBytes, same, List.cons_append, first, nested levels rfl, startingWith,
    if_neg (by decide), if_neg (by decide), if_pos rfl]
  simp only [sequence]
  rfl

/-- A member as it is written, its value being written already. -/
def memberBytes (pretty : Bool) (name : String) (bytes : List UInt8) : List UInt8 :=
  stringBytes name ++ Text.bytes (if pretty then ": " else ":") ++ bytes

/-- The colon of a member, and what stands behind it. -/
theorem bytes_colon (pretty : Bool) :
    ∃ blanks, Text.bytes (if pretty then ": " else ":") = ':'.toUInt8 :: blanks ∧
      ∀ b ∈ blanks, Text.isBlankByte b = true := by
  cases pretty with
  | true =>
      exact ⟨[0x20], Text.bytes_eq (by decide), List.forall_mem_singleton.2 (by decide)⟩
  | false => exact ⟨[], Text.bytes_eq (by decide), List.forall_mem_nil _⟩

/-- A written member is read back. -/
theorem reads_member {item : Scanner Json} (name : String) {bytes : List UInt8} {v : Json}
    (reads : Reads item bytes v) (pretty : Bool) :
    Reads (member item) (memberBytes pretty name bytes) (name, v) := by
  intro blanks b rest blank stop
  obtain ⟨gap, colon, gapBlank⟩ := bytes_colon pretty
  rw [memberBytes, colon]
  simp only [List.append_assoc, stringBytes_append, List.cons_append]
  show memberScan item _ = _
  have read := reads gap b rest gapBlank stop
  rw [memberScan, skipBlanks_append blank, skipBlanks_cons (by decide), expect, if_pos rfl]
  simp only [Scan.andThen, scanText_flatMap, skipBlanks_cons (b := ':'.toUInt8)
    (by decide), expect, if_true, read, Scan.map]

/-- A written object is a value. -/
theorem takes_object (ending : Ending) (levels : Nat)
    (members : List (String × Json × List UInt8))
    (reads : ∀ m ∈ members, Reads (value ending levels) m.2.2 m.2.1) (pretty : Bool)
    (level : Nat) :
    Takes (value ending (levels + 1))
      (JsonRecord.objectBytes pretty level (members.map fun m => (m.1, m.2.2)))
      (.object (members.map fun m => (m.1, m.2.1))) := by
  intro blanks rest blank
  let items : List ((String × Json) × List UInt8) :=
    members.map fun m => ((m.1, m.2.1), memberBytes pretty m.1 m.2.2)
  have all : ∀ i ∈ items, Reads (member (value ending levels)) i.2 i.1 := by
    intro i hi
    obtain ⟨m, hm, rfl⟩ := List.mem_map.1 hi
    exact reads_member m.1 (reads m hm) pretty
  have starts : ∀ i ∈ items, ∃ b more, i.2 = b :: more ∧ Text.isBlankByte b = false ∧
      b ≠ '\x7d'.toUInt8 := by
    intro i hi
    obtain ⟨m, -, rfl⟩ := List.mem_map.1 hi
    exact ⟨quote, _, rfl, by decide, by decide⟩
  obtain ⟨body, same, sequence⟩ := sequence_bracketed (.inr rfl) all starts pretty level
    '\x7b'.toUInt8 rest
  obtain ⟨inner, first, nested⟩ := scan_value ending (levels + 1) blank (b := '\x7b'.toUInt8)
    (by decide) (body ++ rest)
  have written : JsonRecord.objectBytes pretty level (members.map fun m => (m.1, m.2.2)) =
      '\x7b'.toUInt8 :: body := by
    rw [← same, JsonRecord.objectBytes, List.map_map, List.map_map]
    rfl
  rw [written, List.cons_append, first, nested levels rfl, startingWith, if_neg (by decide),
    if_neg (by decide), if_neg (by decide), if_pos rfl]
  simp only [sequence, Scan.map, Scan.andThen, items, List.map_map]
  rfl

end SparseTensor.Json
