/-
# Tags

A tag is a name and attributes, each a name, an equals sign and a value in quotes.  Attributes
are looked at from left to right, and only as far as the wanted one: what is wrong behind it is
not noticed, and of two with one name the first one counts.
-/
import SparseTensor.Fault
import SparseTensor.Text.Blank
import SparseTensor.Text.Utf8
import SparseTensor.Xml.Reference

namespace SparseTensor.Xml

/-- A byte that is not blank. -/
def isSolid (b : UInt8) : Bool := !Text.isBlankByte b

/-- The name of a tag. -/
def tagName (tag : List UInt8) : List UInt8 :=
  tag.takeWhile isSolid

/-- The attributes of a tag. -/
def tagAttributes (tag : List UInt8) : List UInt8 :=
  tag.dropWhile isSolid

/-! ## One attribute -/

/-- What is found where an attribute can stand. -/
inductive NextAttribute
  | pair (name value rest : List UInt8)
  | nothing
  | malformed

/-- A byte of an attribute's name, behind the first one. -/
def isNameByte (b : UInt8) : Bool := isSolid b && b != '='.toUInt8

/-- A value behind its opening quote. -/
def quotedValue (name : List UInt8) (mark : UInt8) (bytes : List UInt8) : NextAttribute :=
  match bytes.dropWhile (· ≠ mark) with
  | [] => .malformed
  | _ :: rest => .pair name (bytes.takeWhile (· ≠ mark)) rest

/-- What follows the name of an attribute: an equals sign and a value in quotes. -/
def assignment (name bytes : List UInt8) : NextAttribute :=
  match bytes.dropWhile Text.isBlankByte with
  | [] => .malformed
  | b :: rest =>
    if b ≠ '='.toUInt8 then .malformed
    else
      match rest.dropWhile Text.isBlankByte with
      | [] => .malformed
      | mark :: rest =>
        if mark = '"'.toUInt8 ∨ mark = '\''.toUInt8 then quotedValue name mark rest
        else .malformed

/-- The attribute at the front of some bytes, behind any blanks. -/
def nextAttribute (bytes : List UInt8) : NextAttribute :=
  match bytes.dropWhile Text.isBlankByte with
  | [] => .nothing
  | b :: rest => assignment (b :: rest.takeWhile isNameByte) (rest.dropWhile isNameByte)

/-! ## Attributes take up bytes -/

/-- What is left behind a value is no longer than what there was. -/
theorem length_quotedValue_le {name bytes n v rest : List UInt8} {mark : UInt8}
    (h : quotedValue name mark bytes = .pair n v rest) : rest.length ≤ bytes.length := by
  have suffix := (List.dropWhile_suffix (l := bytes) (· ≠ mark)).length_le
  unfold quotedValue at h
  split at h
  · cases h
  · rename_i left
    cases h
    rw [left, List.length_cons] at suffix
    omega

/-- What is left behind an assignment is no longer than what there was. -/
theorem length_assignment_le {name bytes n v rest : List UInt8}
    (h : assignment name bytes = .pair n v rest) : rest.length ≤ bytes.length := by
  have blanks := (List.dropWhile_suffix (l := bytes) Text.isBlankByte).length_le
  unfold assignment at h
  split at h
  · cases h
  · rename_i b behind left
    rw [left, List.length_cons] at blanks
    split at h
    · cases h
    have moreBlanks := (List.dropWhile_suffix (l := behind) Text.isBlankByte).length_le
    split at h
    · cases h
    · rename_i left
      rw [left, List.length_cons] at moreBlanks
      split at h
      · have := length_quotedValue_le h
        omega
      · cases h

/-- What is left behind an attribute is shorter than what there was. -/
theorem length_nextAttribute_lt {bytes n v rest : List UInt8}
    (h : nextAttribute bytes = .pair n v rest) : rest.length < bytes.length := by
  have blanks := (List.dropWhile_suffix (l := bytes) Text.isBlankByte).length_le
  unfold nextAttribute at h
  split at h
  · cases h
  · rename_i b behind left
    rw [left, List.length_cons] at blanks
    have names := (List.dropWhile_suffix (l := behind) isNameByte).length_le
    have := length_assignment_le h
    omega

/-! ## Looking up -/

/-- The value of an attribute as it is written. -/
def rawValue (name : String) (bytes : List UInt8) : Except Fault (List UInt8) :=
  match h : nextAttribute bytes with
  | .nothing => .error (.corrupt (.missingAttribute name))
  | .malformed => .error (.corrupt .malformedAttributes)
  | .pair found value rest =>
    have := length_nextAttribute_lt h
    if found = Text.bytes name then .ok value else rawValue name rest
termination_by bytes.length

/-- The text that some bytes with references stand for. -/
def text? (bytes : List UInt8) : Option (List Char) :=
  (Text.ofBytes? bytes).bind fun s => unescape s.toList

/-- The value of an attribute of a tag. -/
def attributeValue (tag : List UInt8) (name : String) : Except Fault (List Char) := do
  match text? (← rawValue name (tagAttributes tag)) with
  | some value => return value
  | none => throw (.corrupt (.malformedAttribute name))

end SparseTensor.Xml
