/-
# Scanning JSON

A scan looks for a value at the front of some bytes.  It finds one and says what is left, or it
meets the end of the bytes before the value is complete, or it meets a byte that no value can
have there.  The last two are kept apart: more bytes could mend the one and not the other.

A `Scanner` always takes at least one byte for a value, so sequences of values come to an end.
-/
import SparseTensor.Stream
import SparseTensor.Text.Blank

namespace SparseTensor.Json

variable {α β : Type}

/-- What a scan comes to. -/
inductive Scan (α : Type)
  /-- A value, and the bytes behind it. -/
  | done (value : α) (rest : List UInt8)
  /-- The bytes end before the value does. -/
  | starved
  /-- The bytes cannot be continued to a value. -/
  | malformed

namespace Scan

/-- Go on behind a value that was found. -/
def andThen (s : Scan α) (next : α → List UInt8 → Scan β) : Scan β :=
  match s with
  | done value rest => next value rest
  | starved => starved
  | malformed => malformed

/-- Turn the value that was found into another. -/
def map (f : α → β) (s : Scan α) : Scan β :=
  s.andThen fun value rest => done (f value) rest

/-- Something found by two scans, one behind the other, was found by each of them. -/
theorem andThen_eq_done {s : Scan α} {next : α → List UInt8 → Scan β} {b : β}
    {rest : List UInt8} (h : s.andThen next = done b rest) :
    ∃ a behind, s = done a behind ∧ next a behind = done b rest := by
  cases s with
  | done a behind => exact ⟨a, behind, rfl, h⟩
  | starved => cases h
  | malformed => cases h

/-- Turning the value into another changes nothing of what is left. -/
theorem map_eq_done {s : Scan α} {f : α → β} {b : β} {rest : List UInt8}
    (h : s.map f = done b rest) : ∃ a, s = done a rest ∧ f a = b := by
  obtain ⟨a, behind, hs, hb⟩ := andThen_eq_done h
  cases hb
  exact ⟨a, hs, rfl⟩

end Scan

/-! ## Single bytes -/

/-- Some bytes without the blanks in front. -/
def skipBlanks (bytes : List UInt8) : List UInt8 :=
  bytes.dropWhile Text.isBlankByte

/-- Skipping blanks adds nothing. -/
theorem length_skipBlanks_le (bytes : List UInt8) : (skipBlanks bytes).length ≤ bytes.length :=
  (List.dropWhile_suffix _).length_le

/-- The given byte and no other. -/
def expect (b : UInt8) : List UInt8 → Scan Unit
  | [] => .starved
  | first :: rest => if first = b then .done () rest else .malformed

/-- The given bytes, one after another. -/
def literal : List UInt8 → List UInt8 → Scan Unit
  | [], bytes => .done () bytes
  | b :: bs, bytes => (expect b bytes).andThen fun _ rest => literal bs rest

/-- An expected byte is one byte. -/
theorem length_expect {b : UInt8} {bytes rest : List UInt8} {u : Unit}
    (h : expect b bytes = .done u rest) : bytes.length = rest.length + 1 := by
  cases bytes with
  | nil => cases h
  | cons first behind =>
    simp only [expect] at h
    split at h <;> cases h
    rfl

/-- A literal takes up its own length. -/
theorem length_literal {bs bytes rest : List UInt8} {u : Unit}
    (h : literal bs bytes = .done u rest) : bytes.length = rest.length + bs.length := by
  induction bs generalizing bytes with
  | nil =>
    cases h
    rfl
  | cons b bs ih =>
    obtain ⟨_, behind, first, others⟩ := Scan.andThen_eq_done h
    have := length_expect first
    have := ih others
    simp only [List.length_cons]
    omega

/-! ## Sequences -/

/-- A scan that takes at least one byte for a value. -/
structure Scanner (α : Type) where
  scan : List UInt8 → Scan α
  shorter : ∀ {bytes : List UInt8} {value : α} {rest : List UInt8},
    scan bytes = .done value rest → rest.length < bytes.length

namespace Scanner

/-- The items up to a closing byte, with commas between them, behind those in `before`, which
are held last to first. -/
def itemsUpTo (item : Scanner α) (close : UInt8) (before : List α) (bytes : List UInt8) :
    Scan (List α) :=
  match h : item.scan bytes with
  | .starved => .starved
  | .malformed => .malformed
  | .done value rest =>
    match behind : skipBlanks rest with
    | [] => .starved
    | b :: next =>
      if b = close then .done (value :: before).reverse next
      else if b = ','.toUInt8 then
        have : next.length < bytes.length := by
          have := item.shorter h
          have := length_skipBlanks_le rest
          simp only [behind, List.length_cons] at this
          omega
        itemsUpTo item close (value :: before) next
      else .malformed
termination_by bytes.length

/-- No items up to a closing byte, or some with commas between them. -/
def sequence (item : Scanner α) (close : UInt8) (bytes : List UInt8) : Scan (List α) :=
  match skipBlanks bytes with
  | [] => .starved
  | b :: rest => if b = close then .done [] rest else itemsUpTo item close [] (b :: rest)

/-- Items and their closing byte take up at least a byte. -/
theorem length_itemsUpTo_lt (item : Scanner α) (close : UInt8) {before values : List α}
    {bytes rest : List UInt8} (h : item.itemsUpTo close before bytes = .done values rest) :
    rest.length < bytes.length := by
  induction bytes using (measure List.length).wf.induction generalizing before with
  | h bytes ih =>
    unfold itemsUpTo at h
    split at h
    · cases h
    · cases h
    · rename_i value left found
      have taken := item.shorter found
      have blanks := length_skipBlanks_le left
      split at h
      · cases h
      · rename_i b next behind
        simp only [behind, List.length_cons] at blanks
        split at h
        · cases h
          omega
        split at h
        · have inner : next.length < bytes.length := by omega
          exact Nat.lt_trans (ih next inner h) inner
        · cases h

/-- A sequence takes up at least its closing byte. -/
theorem length_sequence_lt (item : Scanner α) (close : UInt8) {values : List α}
    {bytes rest : List UInt8} (h : item.sequence close bytes = .done values rest) :
    rest.length < bytes.length := by
  have blanks := length_skipBlanks_le bytes
  unfold sequence at h
  split at h
  · cases h
  · rename_i b behind left
    simp only [left, List.length_cons] at blanks
    split at h
    · cases h
      omega
    · have := length_itemsUpTo_lt item close h
      simp only [List.length_cons] at this
      omega

end Scanner

end SparseTensor.Json
