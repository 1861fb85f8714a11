/-
# JSON strings

A string stands between double quotes.  Writing escapes quotes, backslashes and the controls,
and leaves every other character as it is.  Reading takes every escape of JSON: by a letter, or
by a code of four hexadecimal digits, where two codes that are surrogates stand for one
character and a single one stands for none.
-/
import SparseTensor.Json.Scan
import SparseTensor.Text.Hexadecimal
import SparseTensor.Text.Utf8

namespace SparseTensor.Json

/-- The byte at both ends of a string. -/
def quote : UInt8 := '"'.toUInt8

/-- The byte in front of an escape. -/
def backslash : UInt8 := '\\'.toUInt8

/-! ## Writing -/

/-- The letters of the controls that have one. -/
def controlLetters : List (UInt8 × Char) :=
  [(0x08, 'b'), (0x09, 't'), (0x0A, 'n'), (0x0C, 'f'), (0x0D, 'r')]

/-- A byte of a text as it is written inside a string. -/
def escaped (b : UInt8) : List UInt8 :=
  if b = quote ∨ b = backslash then [backslash, b]
  else if b < 0x20 then
    match controlLetters.lookup b with
    | some letter => [backslash, letter.toUInt8]
    | none => Text.bytes "\\u00" ++ [(b / 16).toNat, (b % 16).toNat].map fun digit =>
        (Nat.digitChar digit).toUInt8
  else [b]

/-- A text as a string. -/
def stringBytes (s : String) : List UInt8 :=
  quote :: (Text.bytes s).flatMap escaped ++ [quote]

/-! ## Escapes -/

/-- A code of four hexadecimal digits. -/
def code (bytes : List UInt8) : Scan Nat :=
  if (bytes.take 4).length < 4 then .starved
  else
    match Hexadecimal.value? ((bytes.take 4).map Char.ofUInt8) with
    | some n => .done n (bytes.drop 4)
    | none => .malformed

/-- The first of two codes that stand for one character. -/
def isLeading (n : Nat) : Bool := 0xD800 ≤ n && n ≤ 0xDBFF

/-- The second of two codes that stand for one character. -/
def isTrailing (n : Nat) : Bool := 0xDC00 ≤ n && n ≤ 0xDFFF

/-- The character behind a backslash and a `u`. -/
def codedChar (bytes : List UInt8) : Scan Char :=
  (code bytes).andThen fun first rest =>
    if isTrailing first then .malformed
    else if !isLeading first then .done (Char.ofNat first) rest
    else
      (literal [backslash, 'u'.toUInt8] rest).andThen fun _ rest =>
      (code rest).andThen fun second rest =>
        if isTrailing second then
          .done (Char.ofNat ((first - 0xD800) * 0x400 + (second - 0xDC00) + 0x10000)) rest
        else .malformed

/-- The bytes that an escape stands for, read behind its backslash. -/
def escape : List UInt8 → Scan (List UInt8)
  | [] => .starved
  | b :: rest =>
    if b = quote ∨ b = backslash ∨ b = '/'.toUInt8 then .done [b] rest
    else if b = 'u'.toUInt8 then (codedChar rest).map fun c => Text.bytes c.toString
    else
      match controlLetters.find? fun entry => entry.2.toUInt8 = b with
      | some (control, _) => .done [control] rest
      | none => .malformed

/-- A code takes up four bytes. -/
theorem length_code {bytes rest : List UInt8} {n : Nat} (h : code bytes = .done n rest) :
    bytes.length = rest.length + 4 := by
  unfold code at h
  rw [List.length_take] at h
  split at h
  · cases h
  split at h
  · obtain ⟨-, rfl⟩ := Scan.done.inj h
    rw [List.length_drop]
    omega
  · cases h

/-- A coded character takes up some bytes. -/
theorem length_codedChar_lt {bytes rest : List UInt8} {c : Char}
    (h : codedChar bytes = .done c rest) : rest.length < bytes.length := by
  obtain ⟨first, behind, hfirst, h⟩ := Scan.andThen_eq_done h
  have := length_code hfirst
  split at h
  · cases h
  split at h
  · cases h
    omega
  obtain ⟨_, inner, hliteral, h⟩ := Scan.andThen_eq_done h
  obtain ⟨second, last, hsecond, h⟩ := Scan.andThen_eq_done h
  have := length_literal hliteral
  have := length_code hsecond
  split at h
  · obtain ⟨-, rfl⟩ := Scan.done.inj h
    simp only [List.length_cons, List.length_nil] at *
    omega
  · cases h

/-- An escape takes up some bytes. -/
theorem length_escape_lt {bytes rest meant : List UInt8} (h : escape bytes = .done meant rest) :
    rest.length < bytes.length := by
  unfold escape at h
  split at h
  · cases h
  · simp only [List.length_cons]
    split at h
    · cases h
      omega
    split at h
    · obtain ⟨c, hc, -⟩ := Scan.map_eq_done h
      have := length_codedChar_lt hc
      omega
    split at h
    · cases h
      omega
    · cases h

/-! ## Reading -/

/-- The text up to the closing quote, behind the bytes in `before`, which are held last to
first. -/
def textUpToQuote (before : List UInt8) (bytes : List UInt8) : Scan String :=
  match bytes with
  | [] => .starved
  | b :: rest =>
    if b = quote then
      match Text.ofBytes? before.reverse with
      | some s => .done s rest
      | none => .malformed
    else if b = backslash then
      match h : escape rest with
      | .done meant behind =>
        have := length_escape_lt h
        textUpToQuote (meant.reverseAux before) behind
      | .starved => .starved
      | .malformed => .malformed
    else if b < 0x20 then .malformed
    else textUpToQuote (b :: before) rest
termination_by bytes.length
decreasing_by all_goals simp only [List.length_cons]; omega

/-- The text of a string, read behind its opening quote. -/
def scanText (bytes : List UInt8) : Scan String :=
  textUpToQuote [] bytes

/-- The rest of a string takes up some bytes. -/
theorem length_textUpToQuote_lt {before bytes rest : List UInt8} {s : String}
    (h : textUpToQuote before bytes = .done s rest) : rest.length < bytes.length := by
  fun_induction textUpToQuote before bytes <;> grind

end SparseTensor.Json
