/-
# References

Five characters have a meaning of their own in XML and are written as references: an
ampersand, a name and a semicolon.  A reference can also give the code point of a character, in
decimal or hexadecimal digits; such references are read but never written.

`unescape_escape` says that a written text is read back.
-/
import SparseTensor.Text.Hexadecimal

namespace SparseTensor.Xml

/-- The characters that are written as references, and the names of the references. -/
def entities : List (Char × String) :=
  [('&', "amp"), ('<', "lt"), ('>', "gt"), ('\'', "apos"), ('"', "quot")]

/-! ## Writing -/

/-- A character as it is written. -/
def escapedChar (c : Char) : List Char :=
  match entities.lookup c with
  | some name => '&' :: name.toList ++ [';']
  | none => [c]

/-- A text with references in the place of the characters that need them. -/
def escape (s : List Char) : List Char :=
  s.flatMap escapedChar

/-! ## Reading -/

/-- The code point that the digits of a reference give. -/
def codePoint? : List Char → Option Nat
  | 'x' :: digits => Hexadecimal.value? digits
  | digits =>
    if !digits.isEmpty && digits.all Char.isDigit then some (Nat.ofDigitChars 10 digits 0)
    else none

/-- The character that a reference stands for, given what is between `&` and `;`. -/
def referenced? : List Char → Option Char
  | '#' :: digits => do
    let n ← codePoint? digits
    if n ≠ 0 ∧ n.isValidChar then some (Char.ofNat n) else none
  | name => (entities.find? fun entry => entry.2.toList = name).map (·.1)

/-- Whether a character can stand between the `&` and the `;` of a reference. -/
def isInsideReference (c : Char) : Bool :=
  c ≠ '&' && c ≠ ';'

/-- A text with characters in the place of references, behind the characters in `before`, which
are held last to first. -/
def unescapeOnto (before : List Char) (s : List Char) : Option (List Char) :=
  match s with
  | [] => some before.reverse
  | c :: rest =>
    if c ≠ '&' then unescapeOnto (c :: before) rest
    else
      match h : rest.dropWhile isInsideReference with
      | ';' :: behind =>
        match referenced? (rest.takeWhile isInsideReference) with
        | some meant =>
          have : behind.length < rest.length := by
            have := (List.dropWhile_suffix (l := rest) isInsideReference).length_le
            simp only [h, List.length_cons] at this
            omega
          unescapeOnto (meant :: before) behind
        | none => none
      | _ => none
termination_by s.length
decreasing_by all_goals simp only [List.length_cons]; omega

/-- A text with characters in the place of references, if all of them stand for one. -/
def unescape (s : List Char) : Option (List Char) :=
  unescapeOnto [] s

/-! ## Written texts are read back -/

/-- A reference ends at its semicolon. -/
theorem dropWhile_reference {name : List Char} (inside : name.all isInsideReference = true)
    (rest : List Char) : (name ++ ';' :: rest).dropWhile isInsideReference = ';' :: rest := by
  rw [List.dropWhile_append_of_pos (by simpa using inside)]
  rfl

/-- The name of a reference is what stands before its semicolon. -/
theorem takeWhile_reference {name : List Char} (inside : name.all isInsideReference = true)
    (rest : List Char) : (name ++ ';' :: rest).takeWhile isInsideReference = name := by
  rw [List.takeWhile_append_of_pos (by simpa using inside)]
  exact List.append_nil name

/-- A reference is read as the character that it stands for. -/
theorem unescapeOnto_reference {name : List Char} {c : Char}
    (inside : name.all isInsideReference = true) (h : referenced? name = some c)
    (before rest : List Char) :
    unescapeOnto before ('&' :: name ++ ';' :: rest) = unescapeOnto (c :: before) rest := by
  rw [List.cons_append, unescapeOnto, if_neg (by simp)]
  split
  · rename_i behind left
    rw [dropWhile_reference inside] at left
    obtain rfl := (List.cons.inj left).2
    rw [takeWhile_reference inside, h]
  · rename_i other
    exact absurd (dropWhile_reference inside rest) (other rest)

/-- A written reference is read as its character. -/
theorem unescapeOnto_entity {c : Char} {name : String} (h : (c, name) ∈ entities)
    (before rest : List Char) :
    unescapeOnto before ('&' :: name.toList ++ ';' :: rest) = unescapeOnto (c :: before) rest := by
  simp only [entities, List.mem_cons, Prod.mk.injEq, List.not_mem_nil, or_false] at h
  rcases h with ⟨rfl, rfl⟩ | ⟨rfl, rfl⟩ | ⟨rfl, rfl⟩ | ⟨rfl, rfl⟩ | ⟨rfl, rfl⟩ <;>
    exact unescapeOnto_reference (by decide) (by decide) before rest

/-- A written character is read as itself. -/
theorem unescapeOnto_escapedChar (c : Char) (before rest : List Char) :
    unescapeOnto before (escapedChar c ++ rest) = unescapeOnto (c :: before) rest := by
  unfold escapedChar
  split
  · rename_i name found
    have member : (c, name) ∈ entities := by
      obtain ⟨before, after, split, -⟩ := List.lookup_eq_some_iff.1 found
      simp [split]
    simpa using unescapeOnto_entity member before rest
  · rename_i absent
    have plain : c ≠ '&' := by
      rintro rfl
      simp [entities] at absent
    rw [List.cons_append, List.nil_append, unescapeOnto, if_pos plain]

/-- A written text is read back. -/
theorem unescape_escape (s : List Char) : unescape (escape s) = some s := by
  suffices h : ∀ before, unescapeOnto before (escape s) = some (before.reverse ++ s) by
    simpa [unescape] using h []
  induction s with
  | nil => simp [escape, unescapeOnto]
  | cons c s ih =>
    intro before
    have step := unescapeOnto_escapedChar c before (escape s)
    rw [ih, List.reverse_cons, List.append_assoc] at step
    simpa [escape] using step

end SparseTensor.Xml
