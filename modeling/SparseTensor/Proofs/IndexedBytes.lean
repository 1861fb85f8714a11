/-
# Readers on indexed bytes

A machine holds all bytes and a place in them, a word.  It takes bytes from between two places,
which must lie in what there is, adds words, whose sum must be a word, and shifts words, by less
bits than they have.  A read that does otherwise breaks off without an answer (`Indexed.Halt`).

None of the reads here does, wherever it starts: as long as the number of bytes is a word, each of
them does what the reader does to which only the bytes from the place on are given
(`Indexed.Mirrors`).  The reads are put together like the readers, so this goes from part to part
(`Mirrors.bind`).  For integers it means that the guard against an eleventh group has nothing to
guard: the tenth byte is refused if it is greater than one, and then it has no high bit either.
-/
import SparseTensor.Bytes.Cursor
import SparseTensor.Proofs.Varints

namespace SparseTensor

/-- How a read of indexed bytes breaks off. -/
inductive Indexed.Halt
  /-- The read fails, and says why. -/
  | failure (fault : Fault)
  /-- An integer goes on behind its tenth group. -/
  | eleventhGroup
  /-- Bytes are taken from outside of what there is. -/
  | outside
  /-- A word is shifted by all of its bits or more. -/
  | shifted

namespace Indexed

/-- A read of indexed bytes.  Its state is the place to which it has come. -/
abbrev Read (α : Type) : Type :=
  EStateM Halt UInt64 α

variable {α β : Type}

/-! ## Reads -/

/-- The sum of two words, if it is a word. -/
def sum? (a b : UInt64) : Option UInt64 :=
  if a.toNat + b.toNat < UInt64.size then some (a + b) else none

/-- A word shifted to the left. -/
def shiftLeft (a : UInt64) (bits : Nat) : Read UInt64 :=
  if bits < 64 then return a <<< bits.toUInt64 else throw .shifted

section

variable (data : List UInt8)

/-- The bytes between two places. -/
def slice (first last : UInt64) : Read (List UInt8) :=
  if first ≤ last ∧ last.toNat ≤ data.length then
    return (data.take last.toNat).drop first.toNat
  else throw .outside

/-- The next `n` bytes, if they are accepted. -/
def takeIf (accept : List UInt8 → Bool) (n : UInt64) : Read (List UInt8) := do
  let place ← get
  match sum? place n with
  | none => throw (.failure .outOfBounds)
  | some last =>
    if data.length < last.toNat then throw (.failure .outOfBounds)
    else
      let bytes ← slice data place last
      if accept bytes then
        set last
        return bytes
      else throw (.failure .outOfBounds)

/-- The next `n` bytes. -/
def take (n : UInt64) : Read (List UInt8) :=
  takeIf data (fun _ => true) n

/-- The number written by the next `width` bytes, which must be as many. -/
def word (width : UInt64) : Read Nat := do
  return Reader.ofLittleEndian (← takeIf data (fun bytes => bytes.length = width.toNat) width)

/-- An integer whose groups are put above each other by a shift that grows. -/
def varintLoop (shift : Nat) (value : UInt64) : Read UInt64 := do
  let b := (← word data 1).toUInt8
  if shift = 63 ∧ 1 < b then throw (.failure (.corrupt .integerOverflow))
  else
    let group ← shiftLeft (b &&& 0x7F).toUInt64 shift
    if Reader.continues b then
      if _ : 63 < shift + 7 then throw .eleventhGroup
      else varintLoop (shift + 7) (value ||| group)
    else return value ||| group
termination_by 64 - shift

/-- An integer in groups of seven bits, lowest first. -/
def varint : Read UInt64 :=
  varintLoop data 0 0

/-- The number of bytes from the place on. -/
def remaining : Read Nat := do
  return data.length - (← get).toNat

/-- A count of elements, which cannot be more than there are bytes. -/
def count : Read UInt64 := do
  let n ← varint data
  let left ← remaining data
  if n.toNat ≤ left then return n
  else throw (.failure (.corrupt (.countExceedsRemaining n left)))

/-- A text behind its length in bytes. -/
def text : Read String := do
  let bytes ← take data (← count data)
  match Text.ofBytes? bytes with
  | some s => return s
  | none => throw (.failure (.corrupt .invalidText))

/-- What is asked of a cursor, asked of indexed bytes.  A number of bytes to take is a word. -/
def perform : Cursor.Call → Read Cursor.Answer
  | .length => return .size data.length
  | .isEmpty => return .flag data.isEmpty
  | .hasMore => return .flag ((← get).toNat < data.length)
  | .remaining => return .size (← remaining data)
  | .word width => return .integer (← word data width.bytes.toUInt64)
  | .varint => return .integer (← varint data).toNat
  | .count => return .integer (← count data).toNat
  | .text => return .text (← text data)
  | .bytes n => return .bytes (← take data n.toUInt64)

/-- The place after a call, if it does not break off without an answer. -/
def after? (place : UInt64) (call : Cursor.Call) : Option UInt64 :=
  match perform data call place with
  | .ok _ next => some next
  | .error (.failure _) next => some next
  | .error .eleventhGroup _ | .error .outside _ | .error .shifted _ => none

/-- The place after some calls, whatever they answer, if each of them does. -/
def afterAll? (place : UInt64) (calls : List Cursor.Call) : Option UInt64 :=
  calls.foldlM (after? data) place

end

/-! ## Reads and readers -/

variable {data : List UInt8} {place next : UInt64}

/-- What a read comes to at a place agrees with what comes of a state that shows the place.  The
read does not go back, and it stays inside. -/
inductive Agrees {σ : Type} (data : List UInt8) (view : UInt64 → σ) (place : UInt64) :
    EStateM.Result Halt UInt64 α → EStateM.Result Fault σ α → Prop
  | ok {a : α} {next : UInt64} : place ≤ next → next.toNat ≤ data.length →
    Agrees data view place (.ok a next) (.ok a (view next))
  | error {fault : Fault} {next : UInt64} : place ≤ next → next.toNat ≤ data.length →
    Agrees data view place (.error (.failure fault) next) (.error fault (view next))

/-- The bytes from a place on. -/
def rest (data : List UInt8) (place : UInt64) : List UInt8 :=
  data.drop place.toNat

/-- Wherever a read starts, it agrees with a reader that is given the bytes from the place on. -/
def Mirrors (data : List UInt8) (read : Read α) (r : Reader α) : Prop :=
  ∀ place : UInt64, place.toNat ≤ data.length →
    Agrees data (rest data) place (read place) (r (rest data place))

/-- What agrees from a place on agrees from every place in front of it. -/
theorem Agrees.mono {σ : Type} {view : UInt64 → σ} {x : EStateM.Result Halt UInt64 α}
    {y : EStateM.Result Fault σ α} (h : Agrees data view next x y) (le : place ≤ next) :
    Agrees data view place x y := by
  cases h with
  | ok further inside => exact .ok (UInt64.le_trans le further) inside
  | error further inside => exact .error (UInt64.le_trans le further) inside

theorem mirrors_pure (a : α) : Mirrors data (pure a) (pure a) :=
  fun _ inside => .ok UInt64.le_rfl inside

theorem mirrors_throw (fault : Fault) :
    Mirrors (α := α) data (throw (.failure fault)) (throw fault) :=
  fun _ inside => .error UInt64.le_rfl inside

/-- One part after another. -/
theorem Mirrors.bind {read : Read α} {r : Reader α} {k : α → Read β} {l : α → Reader β}
    (first : Mirrors data read r) (second : ∀ a, Mirrors data (k a) (l a)) :
    Mirrors data (read >>= k) (r >>= l) := by
  intro place inside
  have here := first place inside
  generalize readResult : read place = x at here
  generalize result : r (rest data place) = y at here
  cases here with
  | @ok a next further bound =>
      rw [bind_of_ok readResult, bind_of_ok result]
      exact (second a next bound).mono further
  | @error fault next further bound =>
      rw [bind_of_error readResult, bind_of_error result]
      exact .error further bound

/-- The number of bytes that are left is known from the place. -/
theorem mirrors_remaining : Mirrors data (remaining data) Reader.remaining := by
  intro place inside
  have left : Reader.remaining (rest data place) =
      .ok (data.length - place.toNat) (rest data place) := by
    rw [Reader.remaining, rest, List.length_drop]
  rw [left]
  exact .ok UInt64.le_rfl inside

section

variable (fits : data.length < UInt64.size)

include fits

/-- Bytes are taken if there are as many, and otherwise the place stays as it is.  A sum that is no
word lies behind all bytes. -/
theorem mirrors_takeIf {accept : List UInt8 → Bool} {n : UInt64}
    (accepted : ∀ bytes, bytes.length = n.toNat → accept bytes = true) :
    Mirrors data (takeIf data accept n) (Reader.take n.toNat) := by
  intro place inside
  have length : (rest data place).length = data.length - place.toNat := List.length_drop
  by_cases enough : place.toNat + n.toNat ≤ data.length
  · have word : place.toNat + n.toNat < UInt64.size := Nat.lt_of_le_of_lt enough fits
    have last : (place + n).toNat = place.toNat + n.toNat := by
      rw [UInt64.toNat_add, Nat.mod_eq_of_lt word]
    have further : place ≤ place + n := by
      rw [UInt64.le_iff_toNat_le, last]
      exact Nat.le_add_right _ _
    have cut : (data.take (place.toNat + n.toNat)).drop place.toNat =
        (rest data place).take n.toNat := by
      rw [List.drop_take, Nat.add_sub_cancel_left, rest]
    have whole : accept ((rest data place).take n.toNat) = true :=
      accepted _ (by rw [List.length_take, length]; omega)
    have taken : takeIf data accept n place =
        .ok ((rest data place).take n.toNat) (place + n) := by
      simp only [takeIf, get_bind, sum?, if_pos word, last, if_neg (Nat.not_lt.2 enough), slice,
        if_pos (And.intro further enough), cut, pure_bind, if_pos whole, set_bind]
      rfl
    have left : (rest data place).drop n.toNat = rest data (place + n) := by
      rw [rest, rest, List.drop_drop, last]
    rw [taken, Reader.take, if_pos (by rw [length]; omega), left]
    exact .ok further (last ▸ enough)
  · have missing : takeIf data accept n place = .error (.failure .outOfBounds) place := by
      by_cases word : place.toNat + n.toNat < UInt64.size
      · have last : (place + n).toNat = place.toNat + n.toNat := by
          rw [UInt64.toNat_add, Nat.mod_eq_of_lt word]
        simp only [takeIf, get_bind, sum?, if_pos word, last, if_pos (Nat.not_le.1 enough)]
        rfl
      · simp only [takeIf, get_bind, sum?, if_neg word]
        rfl
    rw [missing, Reader.take, if_neg (by rw [length]; omega)]
    exact .error UInt64.le_rfl inside

theorem mirrors_take (n : UInt64) : Mirrors data (take data n) (Reader.take n.toNat) :=
  mirrors_takeIf fits fun _ _ => rfl

theorem mirrors_word (width : UInt64) :
    Mirrors data (word data width) (Reader.word width.toNat) :=
  (mirrors_takeIf fits fun _ length => decide_eq_true length).bind fun _ => mirrors_pure _

omit fits in
/-- One byte is a word of one byte. -/
theorem byte_eq : Reader.byte = do return (← Reader.word 1).toUInt8 := by
  funext bytes
  cases bytes with
  | nil => rfl
  | cons b rest =>
      have same : (Reader.ofLittleEndian [b]).toUInt8 = b := by
        simp [Reader.ofLittleEndian]
      show _ = EStateM.Result.ok (Reader.ofLittleEndian [b]).toUInt8 rest
      rw [same, Reader.byte]

omit fits in
/-- An integer is read byte by byte. -/
theorem varintFrom_eq (index : Nat) (value : UInt64) : Reader.varintFrom index value = (do
    let b ← Reader.byte
    if index = 9 ∧ 1 < b then throw (.corrupt .integerOverflow)
    else if Reader.continues b then
      Reader.varintFrom (index + 1) (value ||| (b &&& 0x7F).toUInt64 <<< (7 * index).toUInt64)
    else return value ||| (b &&& 0x7F).toUInt64 <<< (7 * index).toUInt64 : Reader UInt64) := by
  funext bytes
  cases bytes with
  | nil => rfl
  | cons b rest =>
      rw [bind_of_ok (Reader.byte.eq_2 b rest), Reader.varintFrom]
      dsimp only
      split
      · rfl
      · split <;> rfl

/-- An integer is read by shifts of less than 64 bits, and never comes to an eleventh group: by
recursion on the groups for which there is room. -/
theorem mirrors_varintLoop {index : Nat} (room : index ≤ 9) (value : UInt64) :
    Mirrors data (varintLoop data (7 * index) value) (Reader.varintFrom index value) := by
  rw [varintLoop, varintFrom_eq, byte_eq, bind_assoc]
  refine (mirrors_word fits 1).bind fun n => ?_
  simp only [pure_bind]
  generalize n.toUInt8 = b
  by_cases overflow : index = 9 ∧ 1 < b
  · rw [if_pos overflow, if_pos ⟨by omega, overflow.2⟩]
    exact mirrors_throw _
  rw [if_neg overflow, if_neg (fun wrong => overflow ⟨by omega, wrong.2⟩), shiftLeft,
    if_pos (by omega), pure_bind]
  by_cases goesOn : Reader.continues b = true
  · -- a byte that goes on is greater than one, so this is not the tenth
    have high := (Reader.continues_eq_true_iff b).1 goesOn
    have early : index ≠ 9 := fun tenth =>
      overflow ⟨tenth, UInt8.lt_iff_toNat_lt.2 (Nat.lt_of_lt_of_le (by decide) high)⟩
    rw [if_pos goesOn, if_pos goesOn, dif_neg (by omega)]
    exact mirrors_varintLoop (show index + 1 ≤ 9 by omega) _
  · rw [if_neg goesOn, if_neg goesOn]
    exact mirrors_pure _
termination_by 9 - index

theorem mirrors_varint : Mirrors data (varint data) Reader.varint :=
  mirrors_varintLoop fits (Nat.zero_le 9) 0

/-- What is done with a count is done with a word. -/
theorem mirrors_count_bind {k : UInt64 → Read α} {l : Nat → Reader α}
    (further : ∀ n, Mirrors data (k n) (l n.toNat)) :
    Mirrors data (count data >>= k) (Reader.count >>= l) := by
  simp only [count, Reader.count, bind_assoc]
  refine (mirrors_varint fits).bind fun n => mirrors_remaining.bind fun left => ?_
  by_cases enough : n.toNat ≤ left
  · simp only [if_pos enough, pure_bind]
    exact further n
  · rw [if_neg enough, if_neg enough]
    exact mirrors_throw _

theorem mirrors_count : Mirrors data (do return (← count data).toNat) Reader.count := by
  have counted := mirrors_count_bind fits fun n => mirrors_pure n.toNat
  rwa [bind_pure] at counted

theorem mirrors_text : Mirrors data (text data) Reader.text := by
  refine mirrors_count_bind fits fun n => (mirrors_take fits n).bind fun bytes => ?_
  cases Text.ofBytes? bytes with
  | some s => exact mirrors_pure s
  | none => exact mirrors_throw _

end

end Indexed

/-! ## Integers -/

namespace Reader

open Indexed

/-- Integers are exact.  What is written of one is read back up to its end, and nothing that is as
short is read as the same.  From every place in some bytes a read takes at most ten of them: either
the groups of an integer, the sum of which it is, or bytes that are none.  It reports an overflow if
nine bytes go on and the tenth is more than a bit, and an end of the bytes if less than ten are left
that all go on.  A machine with a place, whose words are shifted and whose groups are counted, comes
to the same: it neither loses a bit by a shift nor sees an eleventh group. -/
theorem integers_are_exact {data : List UInt8} (fits : data.length < UInt64.size) {start : UInt64}
    (inside : start.toNat ≤ data.length) :
    (∀ v rest, varint (varintBytes v ++ rest) = .ok v rest) ∧
    (∀ v form rest, varint (form ++ rest) = .ok v rest →
      form = varintBytes v ∨ (varintBytes v).length < form.length) ∧
    (∃ taken left, rest data start = taken ++ left ∧ taken.length ≤ 10 ∧
      ((∃ v, varint (rest data start) = .ok v left ∧ Ends taken ∧ groupSum taken = v.toNat) ∨
        ∃ fault, varint (rest data start) = .error fault left ∧ Breaks taken left fault)) ∧
    ((∃ left, varint (rest data start) = .error (.corrupt .integerOverflow) left) ↔
      ∃ front b left, rest data start = front ++ b :: left ∧ GoOn front ∧ front.length = 9 ∧
        1 < b) ∧
    ((∃ left, varint (rest data start) = .error .outOfBounds left) ↔
      GoOn (rest data start) ∧ (rest data start).length < 10) ∧
    Agrees data (rest data) start (Indexed.varint data start) (varint (rest data start)) := by
  refine ⟨fun v rest => (groups_varintBytes v).varint_append rest, ?_, ?_, overflows_iff,
    incomplete_iff, mirrors_varint fits start inside⟩
  · intro v form rest read
    obtain ⟨taken, same, groups⟩ := varint_eq_ok_iff.1 read
    obtain rfl := List.append_cancel_right same
    exact groups.eq_or_length_lt
  · rcases varint_cases (rest data start) with ⟨taken, v, left, whole, groups⟩ |
      ⟨taken, left, fault, whole, breaks⟩
    · refine ⟨taken, left, whole, groups.length, .inl ⟨v, ?_, groups.ends, groups.sum⟩⟩
      rw [whole, groups.varint_append]
    · refine ⟨taken, left, whole, breaks.length_le, .inr ⟨fault, ?_, breaks⟩⟩
      rw [whole, breaks.varint_append]

/-- Behind a byte the largest word, with a bit in the tenth of its groups. -/
theorem largest_integer_is_exact :
    let data : List UInt8 := [0x2A, 0xFF, 0xFF, 0xFF, 0xFF, 0xFF, 0xFF, 0xFF, 0xFF, 0xFF, 0x01, 7]
    varintBytes 0xFFFFFFFFFFFFFFFF = (data.drop 1).take 10 ∧
      varint (rest data 1) = .ok 0xFFFFFFFFFFFFFFFF [7] ∧
      Agrees data (rest data) 1 (Indexed.varint data 1) (.ok 0xFFFFFFFFFFFFFFFF [7]) := by
  intro data
  have written : varintBytes 0xFFFFFFFFFFFFFFFF = (data.drop 1).take 10 := by decide +kernel
  obtain ⟨exact, -, -, -, -, machine⟩ := integers_are_exact
    (show data.length < UInt64.size by decide) (show (1 : UInt64).toNat ≤ data.length by decide)
  have read : varint (rest data 1) = .ok 0xFFFFFFFFFFFFFFFF [7] := by
    rw [← exact 0xFFFFFFFFFFFFFFFF [7], written]
    rfl
  exact ⟨written, read, read ▸ machine⟩

end Reader

end SparseTensor
