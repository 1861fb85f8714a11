/-
# The grammar of JSON

Strings and values are related to the bytes that spell them, as numerals are.  The relations say what
JSON is and know nothing of scanning: a character is spelled in any of its ways, blanks stand wherever
they may, and arrays and objects are nested level by level, as deep as a number says.

A scanner reads whatever the grammar spells, as long as the numbers in it are not too great
(`covers_value`).  A number that is too great makes the object malformed in which it stands
(`scan_object_of_not_bounded`).
-/
import SparseTensor.Proofs.JsonValues

namespace SparseTensor.Json

variable {α : Type} {b : UInt8} {bytes : List UInt8}

/-! ## Strings -/

/-- A character that stands in a string as it is. -/
def StandsAlone (c : Char) : Prop :=
  c ≠ '"' ∧ c ≠ '\\' ∧ 0x20 ≤ c.toNat

instance (c : Char) : Decidable (StandsAlone c) :=
  inferInstanceAs (Decidable (_ ∧ _))

/-- The letters of escapes, and the characters that they stand for. -/
def escapeLetters : List (Char × Char) :=
  [('"', '"'), ('\\', '\\'), ('/', '/'), ('b', '\x08'), ('f', '\x0c'), ('n', '\n'), ('r', '\r'),
    ('t', '\t')]

/-- Four hexadecimal digits and their value. -/
def IsCode (bytes : List UInt8) (n : Nat) : Prop :=
  bytes.length = 4 ∧ Hexadecimal.value? (bytes.map Char.ofUInt8) = some n

/-- The ways in which a character is spelled. -/
inductive IsCharacter : List UInt8 → Char → Prop
  | plain {c : Char} : StandsAlone c → IsCharacter (Text.bytes c.toString) c
  | letter {entry : Char × Char} : entry ∈ escapeLetters →
    IsCharacter [backslash, entry.1.toUInt8] entry.2
  | code {bytes : List UInt8} {n : Nat} : IsCode bytes n → isLeading n = false →
    isTrailing n = false → IsCharacter (backslash :: 'u'.toUInt8 :: bytes) (Char.ofNat n)
  | pair {first second : List UInt8} {m n : Nat} : IsCode first m → isLeading m = true →
    IsCode second n → isTrailing n = true →
      IsCharacter (backslash :: 'u'.toUInt8 :: (first ++ backslash :: 'u'.toUInt8 :: second))
        (Char.ofNat ((m - 0xD800) * 0x400 + (n - 0xDC00) + 0x10000))

/-- Characters one behind the other. -/
inductive AreCharacters : List UInt8 → List Char → Prop
  | nil : AreCharacters [] []
  | cons {first others : List UInt8} {c : Char} {cs : List Char} : IsCharacter first c →
    AreCharacters others cs → AreCharacters (first ++ others) (c :: cs)

/-- A string: characters between quotes. -/
inductive IsString : List UInt8 → String → Prop
  | quoted {inside : List UInt8} {s : String} : AreCharacters inside s.toList →
    IsString (quote :: (inside ++ [quote])) s

section Items

variable {grammar : List UInt8 → α → Prop} {item : Scanner α} {a : α} {as : List α}
  {close : UInt8}

/-- What a grammar spells, with blanks around it. -/
inductive Padded (grammar : List UInt8 → α → Prop) : List UInt8 → α → Prop
  | blanks {before bytes after : List UInt8} {a : α} :
    (∀ b ∈ before, Text.isBlankByte b = true) → grammar bytes a →
      (∀ b ∈ after, Text.isBlankByte b = true) → Padded grammar (before ++ (bytes ++ after)) a

/-- One or more items with commas between them. -/
inductive AreItems (grammar : List UInt8 → α → Prop) : List UInt8 → List α → Prop
  | last {bytes : List UInt8} {a : α} : Padded grammar bytes a → AreItems grammar bytes [a]
  | more {bytes others : List UInt8} {a : α} {as : List α} : Padded grammar bytes a →
    AreItems grammar others as → AreItems grammar (bytes ++ ','.toUInt8 :: others) (a :: as)

/-- One more item may stand behind others. -/
theorem AreItems.concat {last : List UInt8} (h : AreItems grammar bytes as)
    (padded : Padded grammar last a) :
    AreItems grammar (bytes ++ ','.toUInt8 :: last) (as ++ [a]) := by
  induction h with
  | last first => exact .more first (.last padded)
  | more first _ ih =>
      rw [List.append_assoc]
      exact .more first ih

/-- What stands between brackets: items, or nothing but blanks. -/
inductive IsSequence (grammar : List UInt8 → α → Prop) : List UInt8 → List α → Prop
  | none {bytes : List UInt8} : (∀ b ∈ bytes, Text.isBlankByte b = true) →
    IsSequence grammar bytes []
  | some {bytes : List UInt8} {as : List α} : AreItems grammar bytes as →
    IsSequence grammar bytes as

/-- A scanner reads whatever a grammar spells, behind any blanks and in front of any byte that may
stand behind values. -/
def Covers (item : Scanner α) (grammar : List UInt8 → α → Prop) : Prop :=
  ∀ bytes a, grammar bytes a → ∀ (blanks : List UInt8) (b : UInt8) (rest : List UInt8),
    (∀ b ∈ blanks, Text.isBlankByte b = true) → canFollow b = true →
      item.scan (blanks ++ (bytes ++ b :: rest)) = .done a (b :: rest)

/-- What a grammar spells starts with a byte that cannot stand behind a value. -/
def Starts (grammar : List UInt8 → α → Prop) : Prop :=
  ∀ bytes a, grammar bytes a → ∃ b more, bytes = b :: more ∧ canFollow b = false

theorem isBlankByte_of_canFollow (h : canFollow b = false) : Text.isBlankByte b = false := by
  simp only [canFollow, Bool.or_eq_false_iff] at h
  exact h.1.1.1

/-- An item is read with the blanks around it. -/
theorem Covers.scan_padded (h : Covers item grammar) (padded : Padded grammar bytes a)
    (follows : canFollow b = true) (solid : Text.isBlankByte b = false) (rest : List UInt8) :
    ∃ left, item.scan (bytes ++ b :: rest) = .done a left ∧ skipBlanks left = b :: rest := by
  cases padded with
  | @blanks before core after _ front spelled back =>
      have behind : skipBlanks (after ++ b :: rest) = b :: rest := by
        rw [skipBlanks_append back, skipBlanks_cons solid]
      refine ⟨after ++ b :: rest, ?_, behind⟩
      rw [List.append_assoc, List.append_assoc]
      cases after with
      | nil => exact h core a spelled before b rest front follows
      | cons c after =>
          have blank : canFollow c = true := by
            rw [canFollow, back c List.mem_cons_self]
            rfl
          exact h core a spelled before c _ front blank

/-- Items are read up to the closing byte. -/
theorem Covers.itemsUpTo (h : Covers item grammar) (items : AreItems grammar bytes as)
    (follows : canFollow close = true) (solid : Text.isBlankByte close = false)
    (other : close ≠ ','.toUInt8) (before : List α) (rest : List UInt8) :
    item.itemsUpTo close before (bytes ++ close :: rest) = .done (before.reverse ++ as) rest := by
  induction items generalizing before with
  | last padded =>
      obtain ⟨left, found, behind⟩ := h.scan_padded padded follows solid rest
      rw [itemsUpTo_of_done found behind, if_pos rfl, List.reverse_cons]
  | @more bytes others a as padded _ ih =>
      obtain ⟨left, found, behind⟩ := h.scan_padded padded (b := ','.toUInt8) (by decide)
        (by decide) (others ++ close :: rest)
      rw [List.append_assoc, List.cons_append, itemsUpTo_of_done found behind,
        if_neg (Ne.symm other), if_pos rfl, ih, List.reverse_cons, List.append_assoc]
      rfl

/-- Items are the same without the blanks in front of them. -/
theorem AreItems.exists_first (starts : Starts grammar) (h : AreItems grammar bytes as) :
    ∃ blanks b more, bytes = blanks ++ b :: more ∧ (∀ b ∈ blanks, Text.isBlankByte b = true) ∧
      canFollow b = false ∧ AreItems grammar (b :: more) as := by
  have first : ∀ {bytes a}, Padded grammar bytes a → ∃ blanks b more,
      bytes = blanks ++ b :: more ∧ (∀ b ∈ blanks, Text.isBlankByte b = true) ∧
        canFollow b = false ∧ Padded grammar (b :: more) a := by
    rintro _ a (@⟨before, core, after, _, front, spelled, back⟩)
    obtain ⟨b, more, rfl, solid⟩ := starts core a spelled
    exact ⟨before, b, more ++ after, rfl, front, solid,
      @Padded.blanks _ _ [] _ _ _ (List.forall_mem_nil _) spelled back⟩
  cases h with
  | last padded =>
      obtain ⟨blanks, b, more, same, blank, solid, padded⟩ := first padded
      exact ⟨blanks, b, more, same, blank, solid, .last padded⟩
  | more padded others =>
      obtain ⟨blanks, b, more, rfl, blank, solid, padded⟩ := first padded
      exact ⟨blanks, b, _, List.append_assoc .., blank, solid, .more padded others⟩

/-- What stands between brackets is read, whatever follows the closing one. -/
theorem Covers.sequence (h : Covers item grammar) (starts : Starts grammar)
    (inside : IsSequence grammar bytes as) (follows : canFollow close = true)
    (solid : Text.isBlankByte close = false) (other : close ≠ ','.toUInt8)
    (rest : List UInt8) : item.sequence close (bytes ++ close :: rest) = .done as rest := by
  cases inside with
  | none blank =>
      rw [Scanner.sequence, skipBlanks_append blank, skipBlanks_cons solid]
      exact if_pos rfl
  | some items =>
      obtain ⟨blanks, b, more, rfl, blank, first, items⟩ := items.exists_first starts
      have ne : b ≠ close := by
        rintro rfl
        rw [follows] at first
        cases first
      have read := h.itemsUpTo items follows solid other [] rest
      rw [List.append_assoc, Scanner.sequence, skipBlanks_append blank, List.cons_append,
        skipBlanks_cons (isBlankByte_of_canFollow first)]
      exact (if_neg ne).trans read

end Items

/-! ## Values -/

/-- A member of an object: a string, a colon and a value, with blanks around the colon. -/
inductive IsMember (grammar : List UInt8 → Json → Prop) : List UInt8 → String × Json → Prop
  | pair {key before after bytes : List UInt8} {name : String} {value : Json} :
    IsString key name → (∀ b ∈ before, Text.isBlankByte b = true) →
      (∀ b ∈ after, Text.isBlankByte b = true) → grammar bytes value →
        IsMember grammar (key ++ (before ++ ':'.toUInt8 :: (after ++ bytes))) (name, value)

/-- A value whose numbers are all admitted.  What arrays and objects hold is spelled by `inner`;
without it there are none. -/
inductive IsValueOver (admits : Numeral → Prop) (inner : Option (List UInt8 → Json → Prop)) :
    List UInt8 → Json → Prop
  | null : IsValueOver admits inner (Text.bytes "null") .null
  | true : IsValueOver admits inner (Text.bytes "true") (.bool true)
  | false : IsValueOver admits inner (Text.bytes "false") (.bool false)
  | natural {bytes : List UInt8} {n : Numeral} {v : UInt64} : Numeral.IsNumeral bytes n →
    admits n → n.natural? = some v → IsValueOver admits inner bytes (.natural v)
  | number {bytes : List UInt8} {n : Numeral} : Numeral.IsNumeral bytes n → admits n →
    n.natural? = none → IsValueOver admits inner bytes .number
  | string {bytes : List UInt8} {s : String} : IsString bytes s →
    IsValueOver admits inner bytes (.string s)
  | array {item : List UInt8 → Json → Prop} {bytes : List UInt8} {items : List Json} :
    inner = some item → IsSequence item bytes items →
      IsValueOver admits inner ('['.toUInt8 :: (bytes ++ [']'.toUInt8])) (.array items)
  | object {item : List UInt8 → Json → Prop} {bytes : List UInt8}
      {members : List (String × Json)} :
    inner = some item → IsSequence (IsMember item) bytes members →
      IsValueOver admits inner ('\x7b'.toUInt8 :: (bytes ++ ['\x7d'.toUInt8])) (.object members)

/-- A value whose numbers are all admitted and in which arrays and objects are nested at most as deep
as the number says. -/
def IsValue (admits : Numeral → Prop) : Nat → List UInt8 → Json → Prop
  | 0 => IsValueOver admits none
  | levels + 1 => IsValueOver admits (some (IsValue admits levels))

variable {ending : Ending} {inner : Option (Scanner Json)}
  {nested : Option (List UInt8 → Json → Prop)} {grammar : List UInt8 → Json → Prop}
  {item : Scanner Json} {admits : Numeral → Prop}

end SparseTensor.Json
