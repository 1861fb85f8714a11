/-
# Records in front of more bytes

A reader that finds a record at the front of some bytes finds the same record if more bytes follow,
and leaves them behind what it left before (`Record.decode_append`).  This holds of every format
that marks the end of a record: by its length, by a closing bracket, by a closing tag.  It does not
hold of the portable format, which takes the last line for complete although it may go on.

A part of a record has this property if it is closed by a byte of its own (`Closed`).  A number is
not: it is complete only when another byte stands behind it (`Steady`), as inside arrays and objects
one always does.  A string is decided either way: what is malformed in it stays malformed whatever
follows (`Decided`), and so does markup of XML.
-/
import SparseTensor.Proofs.JsonRecords
import SparseTensor.Proofs.XmlRecords
import SparseTensor.Record

namespace SparseTensor

/-- Dropping from the front goes no further than to the first byte that stays. -/
theorem dropWhile_append_of_eq_cons {α : Type} {p : α → Bool} {bytes rest : List α} {b : α}
    (h : bytes.dropWhile p = b :: rest) (more : List α) :
    (bytes ++ more).dropWhile p = b :: (rest ++ more) := by
  rw [List.dropWhile_append, h]
  rfl

/-- Taking from the front goes no further than to the first byte that is not taken. -/
theorem takeWhile_append_of_dropWhile_eq_cons {α : Type} {p : α → Bool} {bytes rest : List α}
    {b : α} (h : bytes.dropWhile p = b :: rest) (more : List α) :
    (bytes ++ more).takeWhile p = bytes.takeWhile p := by
  induction bytes with
  | nil => cases h
  | cons c bytes ih =>
      by_cases taken : p c = true
      · rw [List.dropWhile_cons_of_pos taken] at h
        rw [List.cons_append, List.takeWhile_cons_of_pos taken, List.takeWhile_cons_of_pos taken,
          ih h]
      · rw [List.cons_append, List.takeWhile_cons_of_neg taken, List.takeWhile_cons_of_neg taken]

namespace Json

variable {α β : Type}

/-- A scan that finds the same if more bytes follow. -/
structure Closed (scan : List UInt8 → Scan α) : Prop where
  append : ∀ {bytes : List UInt8} {a : α} {rest : List UInt8}, scan bytes = .done a rest →
    ∀ more, scan (bytes ++ more) = .done a (rest ++ more)

/-- A scan that finds the same if more bytes follow, once it has left a byte. -/
structure Steady (scan : List UInt8 → Scan α) : Prop where
  append : ∀ {bytes : List UInt8} {a : α} {b : UInt8} {rest : List UInt8},
    scan bytes = .done a (b :: rest) → ∀ more, scan (bytes ++ more) = .done a (b :: (rest ++ more))

variable {scan : List UInt8 → Scan α} {next : α → List UInt8 → Scan β}

/-- What is closed is steady. -/
theorem Closed.steady (h : Closed scan) : Steady scan := ⟨h.append⟩

/-- Closed scans one behind the other are closed. -/
theorem Closed.andThen (first : Closed scan) (second : ∀ a, Closed (next a)) :
    Closed fun bytes => (scan bytes).andThen next where
  append := by
    intro bytes b rest h more
    obtain ⟨a, behind, found, others⟩ := Scan.andThen_eq_done h
    rw [first.append found more]
    exact (second a).append others more

/-- A steady scan behind a steady one is steady, if it leaves nothing of nothing. -/
theorem Steady.andThen (first : Steady scan) (second : ∀ a, Steady (next a))
    (empty : ∀ {a b rest}, next a [] = .done b rest → rest = []) :
    Steady fun bytes => (scan bytes).andThen next where
  append := by
    intro bytes b c rest h more
    obtain ⟨a, behind, found, others⟩ := Scan.andThen_eq_done h
    cases behind with
    | nil => cases empty others
    | cons d behind =>
        rw [first.append found more]
        exact (second a).append others more

/-- A steady scan behind a closed one is steady. -/
theorem Closed.andThen_steady (first : Closed scan) (second : ∀ a, Steady (next a)) :
    Steady fun bytes => (scan bytes).andThen next where
  append := by
    intro bytes b c rest h more
    obtain ⟨a, behind, found, others⟩ := Scan.andThen_eq_done h
    rw [first.append found more]
    exact (second a).append others more

/-- A value that is found without looking at any byte. -/
theorem closed_done (a : α) : Closed (Scan.done a) := ⟨fun found more => by cases found; rfl⟩

/-- Nothing is found in bytes that are always malformed. -/
theorem closed_malformed : Closed fun _ => (.malformed : Scan α) := ⟨nofun⟩

/-- A scan is still closed when what it finds is turned into something else. -/
theorem Closed.map {f : α → β} (h : Closed scan) : Closed fun bytes => (scan bytes).map f :=
  h.andThen fun a => closed_done (f a)

/-- A scan is still steady when what it finds is turned into something else. -/
theorem Steady.map {f : α → β} (h : Steady scan) : Steady fun bytes => (scan bytes).map f :=
  h.andThen (fun a => (closed_done (f a)).steady) fun found => by cases found; rfl

/-- One of two closed scans is closed. -/
theorem Closed.ite {p : Prop} [Decidable p] {other : List UInt8 → Scan α}
    (first : p → Closed scan) (second : ¬ p → Closed other) :
    Closed fun bytes => if p then scan bytes else other bytes := by
  by_cases h : p
  · simp only [if_pos h]
    exact first h
  · simp only [if_neg h]
    exact second h

/-- One of two steady scans is steady. -/
theorem Steady.ite {p : Prop} [Decidable p] {other : List UInt8 → Scan α}
    (first : p → Steady scan) (second : ¬ p → Steady other) :
    Steady fun bytes => if p then scan bytes else other bytes := by
  by_cases h : p
  · simp only [if_pos h]
    exact first h
  · simp only [if_neg h]
    exact second h

/-- A scan that leaves nothing of no bytes is steady if it is behind every first byte. -/
theorem steady_of_cons (none : ∀ a b rest, scan [] ≠ .done a (b :: rest))
    (some : ∀ b, Steady fun bytes => scan (b :: bytes)) : Steady scan where
  append := by
    intro bytes a b rest h more
    cases bytes with
    | nil => exact absurd h (none a b rest)
    | cons c bytes => exact (some c).append h more

/-! ## Scans that decide -/

/-- What a scan has found, if more bytes follow those that are left. -/
def Scan.extend (more : List UInt8) : Scan α → Scan α
  | .done a rest => .done a (rest ++ more)
  | .starved => .starved
  | .malformed => .malformed

/-- A scan that finds the same if more bytes follow, and finds the same bytes malformed. -/
structure Decided (scan : List UInt8 → Scan α) : Prop where
  append : ∀ {bytes : List UInt8}, scan bytes ≠ .starved →
    ∀ more, scan (bytes ++ more) = (scan bytes).extend more

/-- What is decided is closed. -/
theorem Decided.closed (h : Decided scan) : Closed scan where
  append := by
    intro bytes a rest found more
    rw [h.append (found ▸ nofun), found]
    rfl

/-- Scans that decide one behind the other decide. -/
theorem Decided.andThen (first : Decided scan) (second : ∀ a, Decided (next a)) :
    Decided fun bytes => (scan bytes).andThen next where
  append := by
    intro bytes found more
    cases verdict : scan bytes with
    | starved =>
        rw [verdict] at found
        exact absurd rfl found
    | malformed =>
        rw [first.append (verdict ▸ nofun), verdict]
        rfl
    | done a rest =>
        rw [verdict] at found
        rw [first.append (verdict ▸ nofun), verdict]
        exact (second a).append found more

theorem decided_done (a : α) : Decided (Scan.done a) := ⟨fun _ _ => rfl⟩

theorem decided_malformed : Decided fun _ => (.malformed : Scan α) := ⟨fun _ _ => rfl⟩

/-- A scan still decides when what it finds is turned into something else. -/
theorem Decided.map {f : α → β} (h : Decided scan) : Decided fun bytes => (scan bytes).map f :=
  h.andThen fun a => decided_done (f a)

/-- One of two scans that decide decides. -/
theorem Decided.ite {p : Prop} [Decidable p] {other : List UInt8 → Scan α}
    (first : p → Decided scan) (second : ¬ p → Decided other) :
    Decided fun bytes => if p then scan bytes else other bytes := by
  by_cases h : p
  · simp only [if_pos h]
    exact first h
  · simp only [if_neg h]
    exact second h

/-- A scan decides if it finds no end in no bytes, and decides behind every first byte. -/
theorem decided_of_cons (none : scan [] = .starved)
    (some : ∀ b, Decided fun bytes => scan (b :: bytes)) : Decided scan where
  append := by
    intro bytes found more
    cases bytes with
    | nil => exact absurd none found
    | cons b bytes => exact (some b).append found more

/-! ## Single bytes and strings -/

/-- Blanks are skipped up to the same byte. -/
theorem skipBlanks_append_of_eq_cons {bytes rest : List UInt8} {b : UInt8}
    (h : skipBlanks bytes = b :: rest) (more : List UInt8) :
    skipBlanks (bytes ++ more) = b :: (rest ++ more) :=
  dropWhile_append_of_eq_cons h more

theorem decided_expect (b : UInt8) : Decided (expect b) :=
  decided_of_cons rfl fun _ => .ite (fun _ => decided_done ()) fun _ => decided_malformed

theorem decided_expect_skipBlanks (b : UInt8) :
    Decided fun bytes => expect b (skipBlanks bytes) where
  append := by
    intro bytes found more
    cases left : skipBlanks bytes with
    | nil =>
        rw [left] at found
        exact absurd rfl found
    | cons first behind =>
        rw [left] at found
        rw [skipBlanks_append_of_eq_cons left]
        exact (decided_expect b).append found more

theorem decided_literal (bs : List UInt8) : Decided (literal bs) := by
  induction bs with
  | nil => exact decided_done ()
  | cons b bs ih => exact (decided_expect b).andThen fun _ => ih

/-- Four bytes are a code or none, whatever follows. -/
theorem decided_code : Decided code where
  append := by
    intro bytes found more
    rw [code] at found
    split at found
    · exact absurd rfl found
    rename_i enough
    have four : 4 ≤ bytes.length := by
      rw [List.length_take] at enough
      omega
    rw [code, code, List.take_append_of_le_length four, List.drop_append_of_le_length four,
      if_neg enough, if_neg enough]
    cases Hexadecimal.value? ((bytes.take 4).map Char.ofUInt8) <;> rfl

theorem decided_codedChar : Decided codedChar := by
  refine decided_code.andThen fun first => ?_
  split
  · exact decided_malformed
  split
  · exact decided_done _
  refine (decided_literal _).andThen fun _ => decided_code.andThen fun second => ?_
  split
  · exact decided_done _
  · exact decided_malformed

theorem decided_escape : Decided escape := by
  refine decided_of_cons rfl fun b => .ite (fun _ => decided_done [b]) fun _ => ?_
  refine .ite (fun _ => decided_codedChar.map) fun _ => ?_
  split
  · exact decided_done _
  · exact decided_malformed

/-- An escape that is malformed makes a text malformed. -/
theorem textUpToQuote_of_malformed {before rest : List UInt8} (h : escape rest = .malformed) :
    textUpToQuote before (backslash :: rest) = .malformed := by
  have noQuote : backslash ≠ quote := by decide
  rw [textUpToQuote.eq_def]
  simp only [if_neg noQuote, if_true]
  split
  · rename_i found
    cases h.symm.trans found
  · rename_i found
    cases h.symm.trans found
  · rfl

/-- A text is decided by its quote, or by the first of its bytes that cannot stand there. -/
theorem decided_textUpToQuote (before : List UInt8) : Decided (textUpToQuote before) where
  append := by
    intro bytes found more
    fun_induction textUpToQuote before bytes with
    | case1 => exact absurd rfl found
    | case2 before rest | case3 before rest =>
        rw [List.cons_append, textUpToQuote, if_pos rfl]
        cases Text.ofBytes? before.reverse <;> rfl
    | case4 before rest meant behind escaped shorter noQuote ih =>
        rw [List.cons_append, textUpToQuote_of_escape (decided_escape.closed.append escaped more)]
        exact ih found
    | case5 => exact absurd rfl found
    | case6 before rest refused =>
        have refused' : escape (rest ++ more) = .malformed := by
          have verdict : escape rest ≠ .starved := by simp [refused]
          rw [decided_escape.append verdict, refused]
          rfl
        rw [List.cons_append, textUpToQuote_of_malformed refused']
        rfl
    | case7 before b rest noQuote noBackslash control =>
        rw [List.cons_append, textUpToQuote, if_neg noQuote, if_neg noBackslash, if_pos control]
        rfl
    | case8 before b rest noQuote noBackslash high ih =>
        rw [List.cons_append, textUpToQuote, if_neg noQuote, if_neg noBackslash, if_neg high]
        exact ih found

theorem decided_scanText : Decided scanText := decided_textUpToQuote []

/-! ## Numbers -/

namespace Numeral

theorem steady_digits : Steady digits where
  append := by
    intro bytes ds b rest h more
    rw [digits] at h
    split at h
    · cases h
    · cases h
    · rename_i d ds' taken
      obtain ⟨rfl, left⟩ := Scan.done.inj h
      rw [digits, takeWhile_append_of_dropWhile_eq_cons left, taken,
        dropWhile_append_of_eq_cons left]

/-- A steady scan whose result is checked is steady. -/
theorem steady_check {α : Type} (bad : Prop) [Decidable bad] (a : α) :
    Steady fun rest => if bad then .malformed else .done a rest := by
  split
  · exact closed_malformed.steady
  · exact (closed_done a).steady

theorem steady_integerDigits : Steady integerDigits :=
  steady_digits.andThen (fun ds => steady_check _ ds) fun found => by
    split at found <;> cases found
    rfl

/-- Bytes that are left as they are. -/
theorem steady_kept {α : Type} (a : α) (b : UInt8) : Steady fun rest => .done a (b :: rest) :=
  ⟨fun found more => by cases found; rfl⟩

theorem steady_fractionDigits : Steady fractionDigits :=
  steady_of_cons nofun fun b => .ite (fun _ => steady_digits.map) fun _ => steady_kept none b

/-- A sign is followed by the same bytes. -/
theorem exponentSign_append {bytes : List UInt8} (ne : bytes ≠ []) (more : List UInt8) :
    exponentSign (bytes ++ more) =
      ((exponentSign bytes).1, (exponentSign bytes).2 ++ more) := by
  cases bytes with
  | nil => exact absurd rfl ne
  | cons b bytes =>
      rw [List.cons_append, exponentSign, exponentSign]
      split
      · rfl
      split <;> rfl

/-- The digits behind a sign, or behind no sign. -/
theorem steady_signedDigits :
    Steady fun rest => (digits (exponentSign rest).2).map fun ds =>
      some ((exponentSign rest).1, ds) where
  append := by
    intro bytes e b rest h more
    have ne : bytes ≠ [] := by
      rintro rfl
      cases h
    rw [exponentSign_append ne]
    exact steady_digits.map.append h more

theorem steady_exponentDigits : Steady exponentDigits :=
  steady_of_cons nofun fun b => .ite (fun _ => steady_signedDigits) fun _ => steady_kept none b

theorem steady_unsigned (negative : Bool) : Steady (unsigned negative) := by
  refine steady_integerDigits.andThen (fun integer => ?_) ?_
  · refine steady_fractionDigits.andThen (fun fraction => steady_exponentDigits.map) ?_
    intro _ _ rest found
    cases found
    rfl
  · intro _ _ rest found
    cases found
    rfl

theorem steady_scan : Steady Numeral.scan :=
  steady_of_cons nofun fun _ => .ite (fun _ => steady_unsigned true) fun _ =>
    ⟨(steady_unsigned false).append⟩

end Numeral

theorem steady_scanNumber (ending : Ending) : Steady (scanNumber ending) := by
  refine Numeral.steady_scan.andThen (fun n => ⟨?_⟩) ?_
  · intro bytes v b rest h more
    split at h
    · cases h
    rename_i small
    rw [if_neg small]
    split at h
    · cases h
    split at h
    · cases h
    rename_i inRange
    obtain ⟨rfl, rfl⟩ := Scan.done.inj h
    rw [if_neg (by simp), if_neg inRange]
    rfl
  · intro n v rest found
    split at found
    · cases found
    split at found
    · cases found
    split at found
    · cases found
    · cases found
      rfl

/-! ## Sequences and values -/

/-- An item may be a number, but a comma or the closing byte has followed it. -/
theorem Steady.append_of_behind {scan : List UInt8 → Scan α} (steady : Steady scan)
    {bytes left next : List UInt8} {value : α} {b : UInt8} (found : scan bytes = .done value left)
    (behind : skipBlanks left = b :: next) (more : List UInt8) :
    scan (bytes ++ more) = .done value (left ++ more) := by
  cases left with
  | nil => cases behind
  | cons c left => exact steady.append found more

/-- A sequence is closed by its closing byte, since its items are followed by another byte. -/
theorem closed_itemsUpTo {item : Scanner α} (steady : Steady item.scan) (close : UInt8)
    (before : List α) : Closed (item.itemsUpTo close before) where
  append := by
    intro bytes values rest h more
    induction bytes using (measure List.length).wf.induction generalizing before with
    | h bytes ih =>
        rw [Scanner.itemsUpTo.eq_def] at h
        split at h
        · cases h
        · cases h
        · rename_i value left found
          have taken := item.shorter found
          have blanks := length_skipBlanks_le left
          split at h
          · cases h
          · rename_i b next behind
            rw [behind, List.length_cons] at blanks
            rw [itemsUpTo_of_done (steady.append_of_behind found behind more)
              (skipBlanks_append_of_eq_cons behind more)]
            split at h
            · rename_i closes
              cases h
              rw [if_pos closes]
            · rename_i goesOn
              rw [if_neg goesOn]
              split at h
              · rename_i comma
                rw [if_pos comma]
                exact ih next (Nat.lt_of_lt_of_le (by omega) (Nat.le_of_lt taken)) _ h
              · cases h

theorem closed_sequence {item : Scanner α} (steady : Steady item.scan) (close : UInt8) :
    Closed (item.sequence close) where
  append := by
    intro bytes values rest h more
    rw [Scanner.sequence] at h
    split at h
    · cases h
    · rename_i b behind left
      rw [Scanner.sequence, skipBlanks_append_of_eq_cons left]
      simp only
      split at h
      · rename_i closes
        cases h
        rw [if_pos closes]
      · rename_i goesOn
        rw [if_neg goesOn]
        exact (closed_itemsUpTo steady close []).append h more

theorem steady_memberScan {item : Scanner Json} (steady : Steady item.scan) :
    Steady (memberScan item) :=
  (decided_expect_skipBlanks quote).closed.andThen_steady fun _ =>
    decided_scanText.closed.andThen_steady fun _ =>
      (decided_expect_skipBlanks ':'.toUInt8).closed.andThen_steady fun _ => steady.map

/-- A value is closed unless it is a number. -/
theorem closed_startingWith (ending : Ending) {inner : Option (Scanner Json)}
    (steady : ∀ item, inner = some item → Steady item.scan) {b : UInt8}
    (noNumber : ¬ (isDigit b = true ∨ b = '-'.toUInt8)) :
    Closed (startingWith ending inner b) := by
  refine .ite (fun number => absurd number noNumber) fun _ => ?_
  refine .ite (fun _ => decided_scanText.closed.map) fun _ => ?_
  refine .ite (fun _ => ?_) fun _ => .ite (fun _ => ?_) fun _ => ?_
  · cases inner with
    | none => exact closed_malformed
    | some item => exact (closed_sequence (steady item rfl) _).map
  · cases inner with
    | none => exact closed_malformed
    | some item =>
        exact (closed_sequence (steady_memberScan (steady item rfl)) _).map
  · refine .ite (fun _ => (decided_literal _).closed.map) fun _ => ?_
    refine .ite (fun _ => (decided_literal _).closed.map) fun _ => ?_
    exact .ite (fun _ => (decided_literal _).closed.map) fun _ => closed_malformed

/-- A value behind any blanks goes on as it starts. -/
theorem valueOver_of_eq_cons (ending : Ending) (inner : Option (Scanner Json))
    {bytes rest : List UInt8} {b : UInt8} (left : skipBlanks bytes = b :: rest) :
    valueOver ending inner bytes = startingWith ending inner b rest := by
  rw [valueOver, left]

theorem steady_valueOver (ending : Ending) {inner : Option (Scanner Json)}
    (steady : ∀ item, inner = some item → Steady item.scan) :
    Steady (valueOver ending inner) where
  append := by
    intro bytes value c rest h more
    cases left : skipBlanks bytes with
    | nil =>
        rw [valueOver, left] at h
        cases h
    | cons b behind =>
        rw [valueOver_of_eq_cons ending inner left] at h
        rw [valueOver_of_eq_cons ending inner (skipBlanks_append_of_eq_cons left more)]
        by_cases number : isDigit b = true ∨ b = '-'.toUInt8
        · rw [startingWith.eq_def, if_pos number] at h ⊢
          exact (steady_scanNumber ending).map.append h more
        · exact (closed_startingWith ending steady number).append h more

/-- Values are steady, however deep they are nested. -/
theorem steady_value (ending : Ending) (levels : Nat) : Steady (value ending levels).scan := by
  induction levels with
  | zero => exact steady_valueOver ending nofun
  | succ levels ih =>
      exact steady_valueOver ending fun item same => Option.some.inj same ▸ ih

/-- What the arrays and objects of a value hold is steady. -/
theorem exists_inner (ending : Ending) (levels : Nat) :
    ∃ inner, (value ending levels).scan = valueOver ending inner ∧
      ∀ item, inner = some item → Steady item.scan := by
  cases levels with
  | zero => exact ⟨none, rfl, nofun⟩
  | succ levels =>
      exact ⟨_, rfl, fun item same => Option.some.inj same ▸ steady_value ending levels⟩

/-- An object is closed by its bracket. -/
theorem scan_append_of_object {ending : Ending} {levels : Nat} {bytes rest : List UInt8}
    {members : List (String × Json)}
    (h : (value ending levels).scan bytes = .done (.object members) rest) (more : List UInt8) :
    (value ending levels).scan (bytes ++ more) = .done (.object members) (rest ++ more) := by
  obtain ⟨inner, same, steady⟩ := exists_inner ending levels
  rw [same] at h ⊢
  cases left : skipBlanks bytes with
  | nil =>
      rw [valueOver, left] at h
      cases h
  | cons b behind =>
      rw [valueOver_of_eq_cons ending inner left] at h
      rw [valueOver_of_eq_cons ending inner (skipBlanks_append_of_eq_cons left more)]
      refine (closed_startingWith ending steady fun number => ?_).append h more
      rw [startingWith.eq_def, if_pos number] at h
      obtain ⟨v, -, other⟩ := Scan.map_eq_done h
      cases v <;> cases other

end Json

/-! ## JSON records -/

namespace JsonRecord

/-- Only objects are archives. -/
theorem eq_object_of_ofJson {value : Json} {a : Archive} (h : ofJson value = .ok a) :
    ∃ members, value = .object members := by
  cases value with
  | object members => exact ⟨members, rfl⟩
  | _ => cases h

/-- A record is read in the same way if more bytes follow. -/
theorem decode_append {bytes rest : List UInt8} {ending : Ending} {a : Archive}
    (h : decode ⟨bytes, ending⟩ = .ok (a, rest)) (more : List UInt8) :
    decode ⟨bytes ++ more, ending⟩ = .ok (a, rest ++ more) := by
  rw [decode] at h
  split at h
  · rename_i value left found
    cases archive : ofJson value with
    | error fault =>
        rw [archive] at h
        cases h
    | ok b =>
        rw [archive] at h
        cases h
        obtain ⟨members, rfl⟩ := eq_object_of_ofJson archive
        rw [decode, Json.scan_append_of_object found more]
        simp only [archive]
        rfl
  · cases h
  · cases h
  · cases h

end JsonRecord

/-! ## Binary records -/

namespace Binary

/-- A record is read in the same way if more bytes follow. -/
theorem decode_append {settings : Settings} {bytes rest : List UInt8} {ending : Ending}
    {a : Archive} (h : decode settings ⟨bytes, ending⟩ = .ok (a, rest)) (more : List UInt8) :
    decode settings ⟨bytes ++ more, ending⟩ = .ok (a, rest ++ more) := by
  rw [decode] at h
  simp only at h
  split at h
  · cases h
  rename_i whole
  rw [List.length_take] at whole
  have header : headerSize ≤ bytes.length := by omega
  cases announced : payloadLength settings.maxBytes (bytes.take headerSize) with
  | error fault =>
      rw [announced] at h
      cases h
  | ok length =>
      simp only [announced, bind, Except.bind] at h
      split at h
      · split at h <;> cases h
      rename_i complete
      rw [List.length_take] at complete
      have enough : length ≤ (bytes.drop headerSize).length := by omega
      cases read : ofPayload ((bytes.drop headerSize).take length) with
      | error fault =>
          rw [read] at h
          cases h
      | ok b =>
          rw [read] at h
          cases h
          rw [decode, List.take_append_of_le_length header, List.drop_append_of_le_length header,
            if_neg (by rw [List.length_take]; omega)]
          simp only [announced, bind, Except.bind, List.take_append_of_le_length enough,
            List.drop_append_of_le_length enough]
          rw [if_neg (by rw [List.length_take]; omega), read]
          rfl

end Binary

/-! ## XML records -/

namespace Xml

/-- A machine that stops does not look at the bytes behind. -/
theorem cut_append_of_eq_some {σ : Type} {step : σ → UInt8 → Option σ} {state : σ}
    {before bytes content rest : List UInt8}
    (h : cut step state before bytes = some (content, rest)) (more : List UInt8) :
    cut step state before (bytes ++ more) = some (content, rest ++ more) := by
  induction bytes generalizing state before with
  | nil => cases h
  | cons b bytes ih =>
      rw [cut] at h
      rw [List.cons_append, cut]
      split at h
      · cases h
        rfl
      · exact ih h

/-- What is found at the front of some bytes, if more follow those that are left. -/
def Next.extend (more : List UInt8) : Next → Next
  | .piece p rest => .piece p (rest ++ more)
  | found => found

/-- A piece and markup of no kind are found without a look at the end of the bytes. -/
inductive Next.Settled : Next → Prop
  | piece (p : Piece) (rest : List UInt8) : Settled (.piece p rest)
  | malformed : Settled .malformed

/-- What is cut out is the same if more bytes follow. -/
theorem ofCut_append {σ : Type} {step : σ → UInt8 → Option σ} {state : σ}
    {before bytes : List UInt8} {piece? : List UInt8 → Option Piece}
    (settled : (ofCut (cut step state before bytes) piece?).Settled) (more : List UInt8) :
    ofCut (cut step state before (bytes ++ more)) piece? =
      (ofCut (cut step state before bytes) piece?).extend more := by
  cases found : cut step state before bytes with
  | none =>
      rw [found] at settled
      cases settled
  | some parts =>
      obtain ⟨content, rest⟩ := parts
      rw [cut_append_of_eq_some found more, ofCut, ofCut]
      cases piece? content <;> rfl

theorem declaration_append {bytes : List UInt8} (settled : (declaration bytes).Settled)
    (more : List UInt8) : declaration (bytes ++ more) = (declaration bytes).extend more := by
  cases bytes with
  | nil => cases settled
  | cons b bytes =>
      simp only [List.cons_append, declaration] at settled ⊢
      by_cases data : b = '['.toUInt8
      · simp only [if_pos data] at settled ⊢
        exact ofCut_append settled more
      simp only [if_neg data] at settled ⊢
      by_cases comment : b = '-'.toUInt8
      · simp only [if_pos comment] at settled ⊢
        exact ofCut_append settled more
      simp only [if_neg comment] at settled ⊢
      by_cases documentType : upperByte b = 'D'.toUInt8
      · simp only [if_pos documentType] at settled ⊢
        exact ofCut_append settled more
      · simp only [if_neg documentType]
        rfl

theorem markup_append {bytes : List UInt8} (settled : (markup bytes).Settled)
    (more : List UInt8) : markup (bytes ++ more) = (markup bytes).extend more := by
  cases bytes with
  | nil => cases settled
  | cons b bytes =>
      simp only [List.cons_append, markup] at settled ⊢
      by_cases mark : b = '!'.toUInt8
      · simp only [if_pos mark] at settled ⊢
        exact declaration_append settled more
      simp only [if_neg mark] at settled ⊢
      by_cases instruction : b = '?'.toUInt8
      · simp only [if_pos instruction] at settled ⊢
        exact ofCut_append settled more
      · simp only [if_neg instruction] at settled ⊢
        exact ofCut_append settled more

/-- What is settled stays so if more bytes follow.  Text is a piece only in front of markup. -/
theorem next_append_of_settled {bytes : List UInt8} (settled : (next bytes).Settled)
    (more : List UInt8) : next (bytes ++ more) = (next bytes).extend more := by
  cases left : bytes.dropWhile Text.isBlankByte with
  | nil =>
      rw [next, left] at settled
      cases settled
  | cons b behind =>
      rw [next, left] at settled
      rw [next, next, left, dropWhile_append_of_eq_cons left]
      dsimp only at settled ⊢
      by_cases opens : b = opener
      · simp only [if_pos opens] at settled ⊢
        exact markup_append settled more
      simp only [if_neg opens] at settled ⊢
      cases text : behind.dropWhile isTextByte with
      | nil =>
          rw [text] at settled
          cases settled
      | cons c others =>
          rw [dropWhile_append_of_eq_cons text, takeWhile_append_of_dropWhile_eq_cons text]
          rfl

/-- A piece is the same if more bytes follow. -/
theorem next_append {bytes rest : List UInt8} {p : Piece} (h : next bytes = .piece p rest)
    (more : List UInt8) : next (bytes ++ more) = .piece p (rest ++ more) := by
  rw [next_append_of_settled (h ▸ .piece p rest), h]
  rfl

/-- Markup of no kind is of none whatever follows. -/
theorem next_append_of_malformed {bytes : List UInt8} (h : next bytes = .malformed)
    (more : List UInt8) : next (bytes ++ more) = .malformed := by
  rw [next_append_of_settled (h ▸ .malformed), h]
  rfl

end Xml

namespace XmlRecord

/-- Only pieces complete an archive. -/
theorem exists_piece_of_pieces {ending : Ending} {p : Progress} {bytes rest : List UInt8}
    {a : Archive} (h : pieces ending p bytes = .ok (a, rest)) :
    ∃ piece left, Xml.next bytes = .piece piece left := by
  rw [pieces.eq_def] at h
  split at h
  · rename_i piece left found
    exact ⟨piece, left, found⟩
  · cases h
  · rename_i text found
    cases result : onText text p with
    | error _ =>
        rw [result] at h
        cases h
    | ok _ =>
        rw [result] at h
        cases h
  · cases h
  · cases h
  · cases h

/-- Pieces are read in the same way if more bytes follow. -/
theorem pieces_append {ending : Ending} {p : Progress} {bytes rest : List UInt8} {a : Archive}
    (h : pieces ending p bytes = .ok (a, rest)) (more : List UInt8) :
    pieces ending p (bytes ++ more) = .ok (a, rest ++ more) := by
  induction bytes using (measure List.length).wf.induction generalizing p with
  | h bytes ih =>
      obtain ⟨piece, left, found⟩ := exists_piece_of_pieces h
      rw [pieces_of_piece found] at h
      rw [pieces_of_piece (Xml.next_append found more)]
      cases result : onPiece piece p with
      | error fault =>
          rw [result] at h
          cases h
      | ok outcome =>
          rw [result] at h
          cases outcome with
          | goOn further => exact ih left (Xml.length_next_lt found) h
          | complete b =>
              cases h
              rfl

/-- There is no piece in a byte order mark that is cut short. -/
theorem next_of_partial_mark {bytes left : List UInt8} {piece : Xml.Piece}
    (cutShort : bytes <+: byteOrderMark) (proper : bytes ≠ byteOrderMark) :
    Xml.next bytes ≠ .piece piece left := by
  have taken := List.prefix_iff_eq_take.1 cutShort
  have length := cutShort.length_le
  rw [byteOrderMark_eq] at taken length proper
  rcases Nat.lt_or_ge bytes.length 3 with short | long
  · have none : ∀ n < 3, Xml.next ([0xEF, 0xBB, 0xBF].take n) ≠ .piece piece left := by
      intro n hn
      rcases n with _ | _ | _ | n
      · exact nofun
      · exact nofun
      · exact nofun
      · omega
    rw [taken]
    exact none _ short
  · rw [List.take_of_length_le long] at taken
    exact absurd taken proper

/-- Of a byte order mark that is cut short nothing is dropped. -/
theorem dropMark_of_partial {bytes : List UInt8} (cutShort : bytes <+: byteOrderMark)
    (proper : bytes ≠ byteOrderMark) : dropMark bytes = bytes := by
  rw [dropMark, if_neg]
  intro marked
  have enough := (List.isPrefixOf_iff_prefix.1 marked).length_le
  exact proper (cutShort.eq_of_length_le enough)

/-- Whatever follows bytes that are no mark cut short, the mark is dropped from them. -/
theorem dropMark_append_of_not_partial {bytes : List UInt8}
    (whole : ¬ (bytes <+: byteOrderMark ∧ bytes ≠ byteOrderMark)) (more : List UInt8) :
    dropMark (bytes ++ more) = dropMark bytes ++ more := by
  simp only [dropMark, List.isPrefixOf_iff_prefix]
  by_cases marked : byteOrderMark <+: bytes
  · rw [if_pos marked, if_pos (marked.trans (List.prefix_append bytes more)),
      List.drop_append_of_le_length marked.length_le]
  · rw [if_neg marked, if_neg]
    intro late
    rcases List.prefix_or_prefix_of_prefix late (List.prefix_append bytes more) with early | front
    · exact marked early
    · exact whole ⟨front, fun same => marked (same ▸ List.prefix_rfl)⟩

/-- A byte order mark is dropped in the same way if more bytes follow. -/
theorem dropMark_append {bytes left : List UInt8} {piece : Xml.Piece}
    (found : Xml.next (dropMark bytes) = .piece piece left) (more : List UInt8) :
    dropMark (bytes ++ more) = dropMark bytes ++ more := by
  apply dropMark_append_of_not_partial
  -- a mark that only the further bytes complete would have hidden the piece
  rintro ⟨cutShort, proper⟩
  rw [dropMark_of_partial cutShort proper] at found
  exact next_of_partial_mark cutShort proper found

/-- A record is read in the same way if more bytes follow. -/
theorem decode_append {bytes rest : List UInt8} {ending : Ending} {a : Archive}
    (h : decode ⟨bytes, ending⟩ = .ok (a, rest)) (more : List UInt8) :
    decode ⟨bytes ++ more, ending⟩ = .ok (a, rest ++ more) := by
  obtain ⟨piece, left, found⟩ := exists_piece_of_pieces h
  rw [decode] at h ⊢
  rw [dropMark_append found more]
  exact pieces_append h more

end XmlRecord

/-! ## Records -/

namespace Record

/-- A record of a format that marks its end is read in the same way if more bytes follow. -/
theorem decode_append {format : Format} (marked : format ≠ .portable) {settings : Settings}
    {bytes rest : List UInt8} {ending : Ending} {a : Archive}
    (h : decode format settings ⟨bytes, ending⟩ = .ok (a, rest)) (more : List UInt8) :
    decode format settings ⟨bytes ++ more, ending⟩ = .ok (a, rest ++ more) := by
  cases format with
  | binary => exact Binary.decode_append h more
  | portable => exact absurd rfl marked
  | json => exact JsonRecord.decode_append h more
  | xml => exact XmlRecord.decode_append h more

end Record

end SparseTensor
