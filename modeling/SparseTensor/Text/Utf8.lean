/-
# Text as bytes

Texts travel as UTF-8.  `Text.bytes` writes a text, `Text.ofBytes?` reads one and refuses
everything that is not UTF-8, and `Text.ofBytesLossy` reads anything, putting the replacement
character in the place of each maximal run that starts like a character and does not finish.

`ofBytes?_bytes` and `bytes_of_ofBytes?` say that writing and reading are inverse.
-/

namespace SparseTensor.Text

/-- The UTF-8 bytes of a text. -/
def bytes (s : String) : List UInt8 :=
  s.toByteArray.data.toList

/-- The text with the given UTF-8 bytes. -/
def ofBytes? (bs : List UInt8) : Option String :=
  String.fromUTF8? ⟨bs.toArray⟩

/-- Every text is read back from its own bytes. -/
theorem ofBytes?_bytes (s : String) : ofBytes? (bytes s) = some s := by
  have h : (⟨s.toByteArray.data.toList.toArray⟩ : ByteArray) = s.toByteArray := by simp
  unfold ofBytes? bytes
  rw [h]
  simp only [String.fromUTF8?, dif_pos s.isValidUTF8]
  rfl

/-- Only the bytes of a text are read as that text. -/
theorem bytes_of_ofBytes? {bs : List UInt8} {s : String} (h : ofBytes? bs = some s) :
    bytes s = bs := by
  simp only [ofBytes?, String.fromUTF8?] at h
  split at h
  · cases h
    simp [bytes, String.fromUTF8]
  · cases h

/-! ## Reading damaged text -/

/-- What the first byte of a character promises: how many bytes follow, and between which
bounds the first of them lies.  The bounds keep out overlong forms, surrogates and values
above the last code point. -/
structure Lead where
  following : Nat
  least : UInt8
  greatest : UInt8

/-- The promise made by a first byte, if a character can start with it. -/
def Lead.ofByte? (b : UInt8) : Option Lead :=
  if b < 0x80 then some ⟨0, 0x80, 0xBF⟩
  else if b < 0xC2 then none
  else if b < 0xE0 then some ⟨1, 0x80, 0xBF⟩
  else if b = 0xE0 then some ⟨2, 0xA0, 0xBF⟩
  else if b = 0xED then some ⟨2, 0x80, 0x9F⟩
  else if b < 0xF0 then some ⟨2, 0x80, 0xBF⟩
  else if b = 0xF0 then some ⟨3, 0x90, 0xBF⟩
  else if b < 0xF4 then some ⟨3, 0x80, 0xBF⟩
  else if b = 0xF4 then some ⟨3, 0x80, 0x8F⟩
  else none

/-- The continuation bytes at the front of some bytes, at most as many as are promised; the
bounds apply to the first of them only. -/
def continuation : Nat → UInt8 → UInt8 → List UInt8 → List UInt8
  | n + 1, least, greatest, b :: rest =>
    if least ≤ b ∧ b ≤ greatest then b :: continuation n 0x80 0xBF rest else []
  | _, _, _, _ => []

/-- The character put in the place of bytes that are none. -/
def replacement : Char := '\uFFFD'

/-- The first character of some bytes and the number of bytes it takes up after the first. -/
def firstLossy (b : UInt8) (rest : List UInt8) : Char × Nat :=
  match Lead.ofByte? b with
  | none => (replacement, 0)
  | some lead =>
    let tail := continuation lead.following lead.least lead.greatest rest
    match (ofBytes? (b :: tail)).map String.toList with
    | some [c] => (c, tail.length)
    | _ => (replacement, tail.length)

/-- The characters of some bytes, damaged ones replaced. -/
def charsLossy : List UInt8 → List Char
  | [] => []
  | b :: rest =>
    let (c, n) := firstLossy b rest
    c :: charsLossy (rest.drop n)
termination_by bs => bs.length
decreasing_by simp only [List.length_drop, List.length_cons]; omega

/-- The text of some bytes, damaged characters replaced. -/
def ofBytesLossy (bs : List UInt8) : String :=
  String.ofList (charsLossy bs)

end SparseTensor.Text
