/-
# Bytes that nothing can mend

A scan tells bytes that are not complete from bytes that cannot be completed.  The second verdict is
final: a JSON value that is malformed is malformed whatever follows (`Json.final_value`), as markup
of XML is (`Xml.next_append_of_malformed`).  So the front of a record that is read is never
malformed, and a source that fails inside a record is found to have failed.

A number is the one thing that could be mended by its next byte.  What makes one malformed is a
leading zero, a missing digit, or an exponent that is too great, and more digits do not help.
-/
import Mathlib.Data.List.TakeWhile
import SparseTensor.Proofs.Continuations

namespace SparseTensor

namespace Json

variable {α β : Type} {scan : List UInt8 → Scan α} {next : α → List UInt8 → Scan β}

/-- A scan of which malformed bytes stay malformed if more bytes follow. -/
structure Final (scan : List UInt8 → Scan α) : Prop where
  append : ∀ {bytes : List UInt8}, scan bytes = .malformed →
    ∀ more, scan (bytes ++ more) = .malformed

/-- The verdict of a scan that decides is final. -/
theorem Decided.final (h : Decided scan) : Final scan where
  append := by
    intro bytes malformed more
    rw [h.append (malformed ▸ nofun), malformed]
    rfl

/-- Two scans one behind the other find bytes malformed where one of them does. -/
theorem Scan.andThen_eq_malformed {s : Scan α} (h : s.andThen next = .malformed) :
    s = .malformed ∨ ∃ a rest, s = .done a rest ∧ next a rest = .malformed := by
  cases s with
  | done a rest => exact .inr ⟨a, rest, rfl, h⟩
  | starved => cases h
  | malformed => exact .inl rfl

/-- What is turned into something else was malformed before. -/
theorem Scan.map_eq_malformed {s : Scan α} {f : α → β} (h : s.map f = .malformed) :
    s = .malformed := by
  rcases andThen_eq_malformed h with h | ⟨a, rest, -, h⟩
  · exact h
  · cases h

/-- Behind a scan that decides there is a final verdict if there is in what follows. -/
theorem Decided.andThen_final (first : Decided scan) (second : ∀ a, Final (next a)) :
    Final fun bytes => (scan bytes).andThen next where
  append := by
    intro bytes h more
    rcases Scan.andThen_eq_malformed h with h | ⟨a, rest, found, h⟩
    · rw [first.final.append h more]
      rfl
    · rw [first.closed.append found more]
      exact (second a).append h more

/-- Behind a steady scan there is a final verdict if there is in each of the two, and the second
never finds the end of the bytes malformed. -/
theorem Final.andThen_steady (first : Final scan) (steady : Steady scan)
    (second : ∀ a, Final (next a)) (empty : ∀ a, next a [] ≠ .malformed) :
    Final fun bytes => (scan bytes).andThen next where
  append := by
    intro bytes h more
    rcases Scan.andThen_eq_malformed h with h | ⟨a, rest, found, h⟩
    · rw [first.append h more]
      rfl
    · cases rest with
      | nil => exact absurd h (empty a)
      | cons b rest =>
          rw [steady.append found more]
          exact (second a).append h more

/-- What is always malformed stays so. -/
theorem final_malformed : Final fun _ => (.malformed : Scan α) := ⟨fun _ _ => rfl⟩

/-- A verdict is final when what would be found is turned into something else. -/
theorem Final.map {f : α → β} (h : Final scan) : Final fun bytes => (scan bytes).map f where
  append := by
    intro bytes malformed more
    rw [h.append (Scan.map_eq_malformed malformed) more]
    rfl

/-- The verdict of one of two scans is final. -/
theorem Final.ite {p : Prop} [Decidable p] {other : List UInt8 → Scan α}
    (first : p → Final scan) (second : ¬ p → Final other) :
    Final fun bytes => if p then scan bytes else other bytes := by
  by_cases h : p
  · simp only [if_pos h]
    exact first h
  · simp only [if_neg h]
    exact second h

/-- A verdict is final if it is behind every first byte, and no bytes are not malformed. -/
theorem final_of_cons (none : scan [] ≠ .malformed)
    (some : ∀ b, Final fun bytes => scan (b :: bytes)) : Final scan where
  append := by
    intro bytes h more
    cases bytes with
    | nil => exact absurd h none
    | cons b bytes => exact (some b).append h more

/-! ## Numbers -/

namespace Numeral

theorem final_digits : Final digits where
  append := by
    intro bytes h more
    rw [digits] at h
    split at h
    · cases h
    · rename_i b rest taken left
      rw [digits, takeWhile_append_of_dropWhile_eq_cons left, taken,
        dropWhile_append_of_eq_cons left]
    · cases h

/-- Digits up to the end of the bytes go on in what follows. -/
theorem digits_append_of_nil {bytes ds : List UInt8} (h : digits bytes = .done ds [])
    (more : List UInt8) :
    digits (bytes ++ more) = .done (ds ++ more.takeWhile isDigit) (more.dropWhile isDigit) := by
  rw [digits] at h
  split at h
  · cases h
  · cases h
  · rename_i d others taken
    obtain ⟨rfl, none⟩ := Scan.done.inj h
    have whole := List.takeWhile_append_dropWhile (p := isDigit) (l := bytes)
    rw [taken, none, List.append_nil] at whole
    subst whole
    have all : ∀ b ∈ d :: others, isDigit b = true := by
      intro b hb
      rw [← taken] at hb
      exact List.mem_takeWhile_imp hb
    rw [digits, List.takeWhile_append_of_pos all, List.dropWhile_append_of_pos all]
    rfl

/-- A zero in front of other digits stays there. -/
theorem final_integerDigits : Final integerDigits where
  append := by
    intro bytes h more
    rcases Scan.andThen_eq_malformed h with h | ⟨ds, rest, found, h⟩
    · rw [integerDigits, final_digits.append h more]
      rfl
    · split at h
      · rename_i zero
        rw [integerDigits]
        cases rest with
        | cons b rest =>
            rw [steady_digits.append found more]
            exact if_pos zero
        | nil =>
            rw [digits_append_of_nil found more]
            apply if_pos
            constructor
            · rw [List.length_append]
              omega
            · rw [List.head?_append, zero.2]
              rfl
      · cases h

theorem final_fractionDigits : Final fractionDigits :=
  final_of_cons nofun fun _ => .ite (fun _ => final_digits.map) fun _ => ⟨nofun⟩

theorem final_exponentDigits : Final exponentDigits := by
  refine final_of_cons nofun fun b => .ite (fun _ => ⟨?_⟩) fun _ => ⟨nofun⟩
  intro rest h more
  have ne : rest ≠ [] := by
    rintro rfl
    cases h
  rw [exponentSign_append ne]
  exact final_digits.map.append h more

theorem final_unsigned (negative : Bool) : Final (unsigned negative) := by
  refine final_integerDigits.andThen_steady steady_integerDigits (fun integer => ?_) fun _ => nofun
  exact final_fractionDigits.andThen_steady steady_fractionDigits
    (fun fraction => final_exponentDigits.map) fun _ => nofun

theorem final_scan : Final Numeral.scan :=
  final_of_cons nofun fun _ => .ite (fun _ => final_unsigned true) fun _ =>
    ⟨(final_unsigned false).append⟩

/-- The digits of an exponent up to the end of the bytes go on in what follows. -/
theorem exponentDigits_append_of_nil {bytes ds : List UInt8} {negative : Bool}
    (h : exponentDigits bytes = .done (some (negative, ds)) []) (more : List UInt8) :
    exponentDigits (bytes ++ more) =
      .done (some (negative, ds ++ more.takeWhile isDigit)) (more.dropWhile isDigit) := by
  cases bytes with
  | nil => cases h
  | cons b rest =>
      rw [exponentDigits] at h
      split at h
      · rename_i letter
        obtain ⟨_, found, same⟩ := Scan.map_eq_done h
        obtain ⟨rfl, rfl⟩ := Prod.mk.inj (Option.some.inj same)
        have ne : rest ≠ [] := by
          rintro rfl
          cases found
        rw [List.cons_append, exponentDigits, if_pos letter]
        dsimp only
        rw [exponentSign_append ne, digits_append_of_nil found more]
        rfl
      · cases h

/-- The exponent of a numeral up to the end of the bytes goes on in what follows, and nothing in front
of it changes. -/
theorem unsigned_append_of_nil {bytes ds : List UInt8} {sign negative : Bool} {n : Numeral}
    (h : unsigned sign bytes = .done n []) (exponent : n.exponent = some (negative, ds))
    (more : List UInt8) : unsigned sign (bytes ++ more) =
      .done { n with exponent := some (negative, ds ++ more.takeWhile isDigit) }
        (more.dropWhile isDigit) := by
  obtain ⟨integer, behind, first, h⟩ := Scan.andThen_eq_done h
  obtain ⟨fraction, left, second, h⟩ := Scan.andThen_eq_done h
  obtain ⟨e, third, rfl⟩ := Scan.map_eq_done h
  obtain rfl : e = some (negative, ds) := exponent
  have some : left ≠ [] := by
    rintro rfl
    cases third
  obtain ⟨c, left, rfl⟩ := List.exists_cons_of_ne_nil some
  have behindSome : behind ≠ [] := by
    rintro rfl
    cases second
  obtain ⟨b, behind, rfl⟩ := List.exists_cons_of_ne_nil behindSome
  rw [unsigned, steady_integerDigits.append first more]
  show ((fractionDigits (b :: behind ++ more)).andThen _) = _
  rw [steady_fractionDigits.append second more]
  show ((exponentDigits (c :: left ++ more)).map _) = _
  rw [exponentDigits_append_of_nil third more]
  rfl

theorem scan_append_of_nil {bytes ds : List UInt8} {negative : Bool} {n : Numeral}
    (h : Numeral.scan bytes = .done n []) (exponent : n.exponent = some (negative, ds))
    (more : List UInt8) : Numeral.scan (bytes ++ more) =
      .done { n with exponent := some (negative, ds ++ more.takeWhile isDigit) }
        (more.dropWhile isDigit) := by
  cases bytes with
  | nil => cases h
  | cons b rest =>
      rw [Numeral.scan] at h
      rw [List.cons_append, Numeral.scan]
      split at h
      · rename_i minus
        rw [if_pos minus]
        exact unsigned_append_of_nil h exponent more
      · rename_i noMinus
        rw [if_neg noMinus]
        exact unsigned_append_of_nil h exponent more

/-- The significand does not depend on the exponent. -/
theorem scaled_fst (n : Numeral) (e : Option (Bool × List UInt8)) :
    ({ n with exponent := e } : Numeral).scaled.1 = n.scaled.1 := by
  unfold scaled
  dsimp only
  cases e <;> cases n.exponent <;> rfl

/-- More digits make no number smaller. -/
theorem foldl_digits_le (ds more : List UInt8) :
    ds.foldl (fun e d => 10 * e + digitValue d) 0 ≤
      (ds ++ more).foldl (fun e d => 10 * e + digitValue d) 0 := by
  rw [List.foldl_append]
  generalize ds.foldl (fun e d => 10 * e + digitValue d) 0 = n
  induction more generalizing n with
  | nil => exact Nat.le_refl n
  | cons d more ih =>
      rw [List.foldl_cons]
      exact Nat.le_trans (by omega) (ih (10 * n + digitValue d))

/-- An exponent that is too great stays too great. -/
theorem hasHugeExponent_append {n : Numeral} {negative : Bool} {ds : List UInt8}
    (exponent : n.exponent = some (negative, ds)) (huge : n.hasHugeExponent = true)
    (more : List UInt8) :
    ({ n with exponent := some (negative, ds ++ more) } : Numeral).hasHugeExponent = true := by
  rw [hasHugeExponent, exponent] at huge
  cases negative with
  | true => cases huge
  | false =>
      simp only [Bool.and_eq_true, decide_eq_true_eq] at huge
      rw [hasHugeExponent]
      simp only [Bool.and_eq_true, decide_eq_true_eq]
      refine ⟨?_, Nat.lt_of_lt_of_le huge.2 (foldl_digits_le ds more)⟩
      rw [scaled_fst]
      exact huge.1

end Numeral

/-- A number that a failing source ends with is not malformed unless its exponent is too great. -/
theorem final_scanNumber (kind : IoKind) : Final (scanNumber (.fails kind)) where
  append := by
    intro bytes h more
    rcases Scan.andThen_eq_malformed h with h | ⟨n, rest, found, h⟩
    · rw [scanNumber, Numeral.final_scan.append h more]
      rfl
    · rw [scanNumber]
      cases rest with
      | cons b rest =>
          -- the number is followed by a byte, so it does not go on
          rw [Numeral.steady_scan.append found more, Scan.andThen]
          split at h
          · rename_i huge
            exact if_pos huge
          rename_i small
          rw [if_neg small]
          split at h
          · cases h
          split at h
          · rename_i outOfRange
            rw [if_neg (by simp), if_pos outOfRange]
          · cases h
      | nil =>
          split at h
          · rename_i huge
            cases exponent : n.exponent with
            | none =>
                rw [Numeral.hasHugeExponent, exponent] at huge
                cases huge
            | some e =>
                obtain ⟨negative, ds⟩ := e
                rw [Numeral.scan_append_of_nil found exponent more]
                exact if_pos (Numeral.hasHugeExponent_append exponent huge _)
          · cases h

/-- A number that is found by a source that fails is followed by another byte. -/
theorem closed_scanNumber (kind : IoKind) : Closed (scanNumber (.fails kind)) where
  append := by
    intro bytes v rest h more
    cases rest with
    | cons b rest => exact (steady_scanNumber (.fails kind)).append h more
    | nil =>
        obtain ⟨n, behind, found, h⟩ := Scan.andThen_eq_done h
        split at h
        · cases h
        cases behind with
        | nil => cases h
        | cons b behind =>
            split at h
            · cases h
            split at h
            · cases h
            · cases h

/-! ## Sequences and values -/

/-- What is neither a comma nor the closing byte stays where it is. -/
theorem final_itemsUpTo {item : Scanner α} (steady : Steady item.scan) (final : Final item.scan)
    (close : UInt8) (before : List α) : Final (item.itemsUpTo close before) where
  append := by
    intro bytes h more
    induction bytes using (measure List.length).wf.induction generalizing before with
    | h bytes ih =>
        rw [Scanner.itemsUpTo.eq_def] at h
        split at h
        · cases h
        · rename_i refused
          rw [Scanner.itemsUpTo.eq_def]
          split
          · rename_i found
            cases (final.append refused more).symm.trans found
          · rfl
          · rename_i found
            cases (final.append refused more).symm.trans found
        · rename_i value left found
          have taken := item.shorter found
          have blanks := length_skipBlanks_le left
          split at h
          · cases h
          · rename_i b next behind
            rw [behind, List.length_cons] at blanks
            rw [itemsUpTo_of_done (steady.append_of_behind found behind more)
              (skipBlanks_append_of_eq_cons behind more)]
            split at h
            · cases h
            rename_i goesOn
            rw [if_neg goesOn]
            split at h
            · rename_i comma
              rw [if_pos comma]
              exact ih next (Nat.lt_of_lt_of_le (by omega) (Nat.le_of_lt taken)) _ h
            · rename_i noComma
              rw [if_neg noComma]

theorem final_sequence {item : Scanner α} (steady : Steady item.scan) (final : Final item.scan)
    (close : UInt8) : Final (item.sequence close) where
  append := by
    intro bytes h more
    rw [Scanner.sequence] at h
    split at h
    · cases h
    · rename_i b behind left
      rw [Scanner.sequence, skipBlanks_append_of_eq_cons left]
      simp only
      split at h
      · cases h
      · rename_i goesOn
        rw [if_neg goesOn]
        exact (final_itemsUpTo steady final close []).append h more

theorem final_memberScan {item : Scanner Json} (final : Final item.scan) :
    Final (memberScan item) :=
  (decided_expect_skipBlanks quote).andThen_final fun _ =>
    decided_scanText.andThen_final fun _ =>
      (decided_expect_skipBlanks ':'.toUInt8).andThen_final fun _ => final.map

/-- What starts with a byte and is malformed is so for good. -/
theorem final_startingWith (kind : IoKind) {inner : Option (Scanner Json)}
    (items : ∀ item, inner = some item → Steady item.scan ∧ Final item.scan) (b : UInt8) :
    Final (startingWith (.fails kind) inner b) := by
  refine .ite (fun _ => ?_) fun _ => .ite (fun _ => decided_scanText.final.map) fun _ => ?_
  · exact ⟨(final_scanNumber kind).map.append⟩
  refine .ite (fun _ => ?_) fun _ => .ite (fun _ => ?_) fun _ => ?_
  · cases inner with
    | none => exact final_malformed
    | some item =>
        obtain ⟨steady, final⟩ := items item rfl
        exact (final_sequence steady final _).map
  · cases inner with
    | none => exact final_malformed
    | some item =>
        obtain ⟨steady, final⟩ := items item rfl
        exact (final_sequence (steady_memberScan steady) (final_memberScan final) _).map
  · refine .ite (fun _ => (decided_literal _).final.map) fun _ => ?_
    refine .ite (fun _ => (decided_literal _).final.map) fun _ => ?_
    exact .ite (fun _ => (decided_literal _).final.map) fun _ => final_malformed

theorem final_valueOver (kind : IoKind) {inner : Option (Scanner Json)}
    (items : ∀ item, inner = some item → Steady item.scan ∧ Final item.scan) :
    Final (valueOver (.fails kind) inner) where
  append := by
    intro bytes h more
    cases left : skipBlanks bytes with
    | nil =>
        rw [valueOver, left] at h
        cases h
    | cons b behind =>
        rw [valueOver_of_eq_cons _ inner left] at h
        rw [valueOver_of_eq_cons _ inner (skipBlanks_append_of_eq_cons left more)]
        exact (final_startingWith kind items b).append h more

/-- What is malformed is so for good, however deep values are nested. -/
theorem final_value (kind : IoKind) (levels : Nat) : Final (value (.fails kind) levels).scan := by
  induction levels with
  | zero => exact final_valueOver kind nofun
  | succ levels ih =>
      refine final_valueOver kind fun item same => ?_
      obtain rfl := Option.some.inj same
      exact ⟨steady_value (.fails kind) levels, ih⟩

/-- A value that is found in front of a failure is found whatever follows. -/
theorem closed_value (kind : IoKind) (levels : Nat) : Closed (value (.fails kind) levels).scan where
  append := by
    intro bytes v rest h more
    obtain ⟨inner, same, steady⟩ := exists_inner (.fails kind) levels
    rw [same] at h ⊢
    cases left : skipBlanks bytes with
    | nil =>
        rw [valueOver, left] at h
        cases h
    | cons b behind =>
        rw [valueOver_of_eq_cons _ inner left] at h
        rw [valueOver_of_eq_cons _ inner (skipBlanks_append_of_eq_cons left more)]
        by_cases number : isDigit b = true ∨ b = '-'.toUInt8
        · rw [startingWith.eq_def, if_pos number] at h ⊢
          exact (closed_scanNumber kind).map.append h more
        · exact (closed_startingWith (.fails kind) steady number).append h more

end Json

end SparseTensor
