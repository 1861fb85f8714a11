/-
# What calls of a cursor take

A call takes some of the bytes from the place on, and what it answers is said by these bytes alone
(`Cursor.Takes`).  Words and runs of bytes take what they need or nothing; an integer, a count or a
text that fails has taken what it looked at.  The rules do not mention the readers, and every call
follows them wherever the cursor is (`Cursor.takes_perform`).

A sequence of calls goes from place to place, each of them inside of the bytes, and the machine
that holds all bytes and a word goes with it (`Indexed.exists_afterAll`).
-/
import SparseTensor.Proofs.IndexedBytes

namespace SparseTensor

open Reader (Groups Breaks Refuses)

namespace Cursor

variable {c : Cursor} {taken left : List UInt8} {data : List UInt8} {place next : UInt64}

/-! ## What a call takes -/

/-- What a call comes to that takes some bytes in front of those that are left. -/
inductive Takes (c : Cursor) (taken left : List UInt8) :
    Call → EStateM.Result Fault Cursor Answer → Prop
  | length : taken = [] → Takes c taken left .length (.ok (.size c.data.length) ⟨c.data, left⟩)
  | isEmpty : taken = [] → Takes c taken left .isEmpty
      (.ok (.flag (decide (c.data = []))) ⟨c.data, left⟩)
  | hasMore : taken = [] → Takes c taken left .hasMore
      (.ok (.flag (decide (c.position < c.data.length))) ⟨c.data, left⟩)
  | remaining : taken = [] → Takes c taken left .remaining
      (.ok (.size (c.data.length - c.position)) ⟨c.data, left⟩)
  | word {width : Width} : taken.length = width.bytes → Takes c taken left (.word width)
      (.ok (.integer (Reader.ofLittleEndian taken)) ⟨c.data, left⟩)
  | noWord {width : Width} : taken = [] → left.length < width.bytes →
    Takes c taken left (.word width) (.error .outOfBounds ⟨c.data, left⟩)
  | varint {v : UInt64} : Groups taken v → Takes c taken left .varint
      (.ok (.integer v.toNat) ⟨c.data, left⟩)
  | noVarint {fault : Fault} : Breaks taken left fault → Takes c taken left .varint
      (.error fault ⟨c.data, left⟩)
  | count {v : UInt64} : Groups taken v → v.toNat ≤ left.length → Takes c taken left .count
      (.ok (.integer v.toNat) ⟨c.data, left⟩)
  | noCount {fault : Fault} : Refuses taken left fault → Takes c taken left .count
      (.error fault ⟨c.data, left⟩)
  | text {front : List UInt8} {v : UInt64} {s : String} : taken = front ++ Text.bytes s →
    Groups front v → v.toNat = (Text.bytes s).length → Takes c taken left .text
      (.ok (.text s) ⟨c.data, left⟩)
  | noText {front bytes : List UInt8} {v : UInt64} : taken = front ++ bytes → Groups front v →
    v.toNat = bytes.length → (∀ s, Text.bytes s ≠ bytes) → Takes c taken left .text
      (.error (.corrupt .invalidText) ⟨c.data, left⟩)
  | noLength {fault : Fault} : Refuses taken left fault → Takes c taken left .text
      (.error fault ⟨c.data, left⟩)
  | bytes {n : Nat} : taken.length = n → Takes c taken left (.bytes n)
      (.ok (.bytes taken) ⟨c.data, left⟩)
  | noBytes {n : Nat} : taken = [] → left.length < n → Takes c taken left (.bytes n)
      (.error .outOfBounds ⟨c.data, left⟩)

/-! ## Every call takes what it answers -/

/-- A call that reads comes to what is read. -/
theorem Takes.of_ok {α : Type} {r : Reader α} {answer : α → Answer} {a : α} {call : Call}
    (reads : perform call c = read r answer c) (result : r c.rest = .ok a left)
    (h : Takes c taken left call (.ok (answer a) ⟨c.data, left⟩)) :
    Takes c taken left call (perform call c) := by
  rw [reads, read, result]
  exact h

theorem Takes.of_error {α : Type} {r : Reader α} {answer : α → Answer} {fault : Fault}
    {call : Call} (reads : perform call c = read r answer c)
    (result : r c.rest = .error fault left)
    (h : Takes c taken left call (.error fault ⟨c.data, left⟩)) :
    Takes c taken left call (perform call c) := by
  rw [reads, read, result]
  exact h

/-- What a call answers is said by the bytes that it takes. -/
theorem takes_perform (c : Cursor) (call : Call) :
    ∃ taken left, c.rest = taken ++ left ∧ Takes c taken left call (perform call c) := by
  cases call with
  | length => exact ⟨[], c.rest, rfl, .length rfl⟩
  | isEmpty =>
      have same : c.data.isEmpty = decide (c.data = []) := by cases c.data <;> rfl
      have performs : perform .isEmpty c = .ok (.flag (decide (c.data = []))) c := by
        rw [← same]
        rfl
      exact ⟨[], c.rest, rfl, performs ▸ .isEmpty rfl⟩
  | hasMore => exact ⟨[], c.rest, rfl, .hasMore rfl⟩
  | remaining => exact ⟨[], c.rest, rfl, .remaining rfl⟩
  | word width =>
      rcases Reader.take_cases width.bytes c.rest with ⟨taken, left, whole, length, read⟩ |
        ⟨short, read⟩
      · have value : Reader.word width.bytes c.rest = .ok (Reader.ofLittleEndian taken) left :=
          bind_of_ok read
        exact ⟨taken, left, whole, Takes.of_ok rfl value (.word length)⟩
      · have fails : Reader.word width.bytes c.rest = .error .outOfBounds c.rest :=
          bind_of_error read
        exact ⟨[], c.rest, rfl, Takes.of_error rfl fails (.noWord rfl short)⟩
  | varint =>
      rcases Reader.varint_cases c.rest with ⟨taken, v, left, whole, groups⟩ |
        ⟨taken, left, fault, whole, breaks⟩
      · have value := whole ▸ groups.varint_append left
        exact ⟨taken, left, whole, Takes.of_ok rfl value (.varint groups)⟩
      · have fails := whole ▸ breaks.varint_append
        exact ⟨taken, left, whole, Takes.of_error rfl fails (.noVarint breaks)⟩
  | count =>
      rcases Reader.count_cases c.rest with ⟨taken, left, v, whole, groups, enough, read⟩ |
        ⟨taken, left, fault, whole, refuses, read⟩
      · exact ⟨taken, left, whole, Takes.of_ok rfl read (.count groups enough)⟩
      · exact ⟨taken, left, whole, Takes.of_error rfl read (.noCount refuses)⟩
  | text =>
      rcases Reader.count_cases c.rest with ⟨front, behind, v, whole, groups, enough, read⟩ |
        ⟨taken, left, fault, whole, refuses, read⟩
      · rcases Reader.take_cases v.toNat behind with ⟨bytes, left, rfl, length, content⟩ |
          ⟨short, -⟩
        · have reads : Reader.text c.rest = _ :=
            (bind_of_ok read).trans (bind_of_ok content)
          refine ⟨front ++ bytes, left, by rw [whole, List.append_assoc], ?_⟩
          cases decoded : Text.ofBytes? bytes with
          | some s =>
              obtain rfl := Text.bytes_of_ofBytes? decoded
              rw [decoded] at reads
              exact Takes.of_ok rfl reads (.text rfl groups length.symm)
          | none =>
              rw [decoded] at reads
              refine Takes.of_error rfl reads (.noText rfl groups length.symm ?_)
              rintro s rfl
              rw [Text.ofBytes?_bytes] at decoded
              cases decoded
        · -- the length has been found to be met by the bytes behind it
          exact absurd enough (Nat.not_le.2 short)
      · have fails : Reader.text c.rest = .error fault left := by
          rw [Reader.text, bind_of_error read]
        exact ⟨taken, left, whole, Takes.of_error rfl fails (.noLength refuses)⟩
  | bytes n =>
      rcases Reader.take_cases n c.rest with ⟨taken, left, whole, length, read⟩ | ⟨short, read⟩
      · exact ⟨taken, left, whole, Takes.of_ok rfl read (.bytes length)⟩
      · exact ⟨[], c.rest, rfl, Takes.of_error rfl read (.noBytes rfl short)⟩

/-- What a call takes is no longer there. -/
theorem Takes.after_eq {call : Call} (h : Takes c taken left call (perform call c)) :
    c.after call = ⟨c.data, left⟩ := by
  rw [after]
  generalize perform call c = result at h ⊢
  cases h <;> rfl

/-! ## From place to place -/

/-- The number of bytes that a call asks for is a word. -/
def Call.Fits : Call → Prop
  | .bytes n => n < UInt64.size
  | _ => True

instance (call : Call) : Decidable call.Fits := by
  unfold Call.Fits
  split <;> infer_instance

/-- The cursor at a place. -/
def atPlace (data : List UInt8) (place : UInt64) : Cursor :=
  ⟨data, Indexed.rest data place⟩

/-- From a place on there are the bytes up to a later one, and those behind it. -/
theorem rest_eq_append (further : place ≤ next) (inside : next.toNat ≤ data.length) :
    Indexed.rest data place =
      (data.take next.toNat).drop place.toNat ++ Indexed.rest data next := by
  have order := UInt64.le_iff_toNat_le.1 further
  rw [Indexed.rest, Indexed.rest, ← List.drop_append_of_le_length
    (by rw [List.length_take]; omega), List.take_append_drop]

theorem position_atPlace (inside : place.toNat ≤ data.length) :
    (atPlace data place).position = place.toNat := by
  show data.length - (data.drop place.toNat).length = place.toNat
  rw [List.length_drop]
  omega

end Cursor

namespace Indexed

open Cursor

variable {data : List UInt8} {place : UInt64}

/-- What a read agrees with is what a cursor reads. -/
theorem Mirrors.agrees_read {α : Type} {get : Read α} {r : Reader α} (mirrors : Mirrors data get r)
    (inside : place.toNat ≤ data.length) (answer : α → Cursor.Answer) :
    Agrees data (atPlace data) place ((do return answer (← get) : Read Cursor.Answer) place)
      (Cursor.read r answer (atPlace data place)) := by
  have here := mirrors place inside
  rw [Cursor.read, atPlace]
  dsimp only
  generalize result : get place = x at here
  generalize r (rest data place) = y at here
  cases here with
  | @ok a next further bound =>
      rw [bind_of_ok result]
      exact .ok further bound
  | @error fault next further bound =>
      rw [bind_of_error result]
      exact .error further bound

/-- Every call comes to the same on indexed bytes, and breaks off nowhere. -/
theorem agrees_perform (fits : data.length < UInt64.size) {call : Call} (size : call.Fits)
    (inside : place.toNat ≤ data.length) :
    Agrees data (atPlace data) place (perform data call place)
      (Cursor.perform call (atPlace data place)) := by
  have stays : ∀ answer : Cursor.Answer, Agrees data (atPlace data) place (.ok answer place)
      (.ok answer (atPlace data place)) := fun _ => .ok UInt64.le_rfl inside
  have position := position_atPlace inside
  cases call with
  | length => exact stays _
  | isEmpty => exact stays _
  | hasMore =>
      have more : Cursor.perform .hasMore (atPlace data place) =
          .ok (.flag (place.toNat < data.length)) (atPlace data place) := by
        rw [← position]
        rfl
      rw [more]
      exact stays _
  | remaining =>
      have left : Cursor.perform .remaining (atPlace data place) =
          .ok (.size (data.length - place.toNat)) (atPlace data place) := by
        rw [← position]
        rfl
      rw [left]
      exact stays _
  | word width =>
      have bytes : width.bytes.toUInt64.toNat = width.bytes := by cases width <;> rfl
      have word := mirrors_word fits width.bytes.toUInt64
      rw [bytes] at word
      exact word.agrees_read inside .integer
  | varint => exact (mirrors_varint fits).agrees_read inside fun v => .integer v.toNat
  | count =>
      have count := (mirrors_count fits).agrees_read inside Cursor.Answer.integer
      rw [bind_assoc] at count
      exact count
  | text => exact (mirrors_text fits).agrees_read inside .text
  | bytes n =>
      have take := mirrors_take fits n.toUInt64
      rw [UInt64.toNat_ofNat_of_lt' size] at take
      exact take.agrees_read inside .bytes

/-- After every call the machine has come to a place, and the cursor is there. -/
theorem exists_after (fits : data.length < UInt64.size) {call : Call} (size : call.Fits)
    (inside : place.toNat ≤ data.length) :
    ∃ next, after? data place call = some next ∧
      (atPlace data place).after call = atPlace data next ∧ place ≤ next ∧
      next.toNat ≤ data.length := by
  have agrees := agrees_perform fits size inside
  rw [after?, Cursor.after]
  generalize perform data call place = x at agrees ⊢
  generalize Cursor.perform call (atPlace data place) = y at agrees ⊢
  cases agrees with
  | ok further bound => exact ⟨_, rfl, rfl, further, bound⟩
  | error further bound => exact ⟨_, rfl, rfl, further, bound⟩

/-- After a sequence of calls, whatever they answer, the machine and the cursor are at one place: by
induction on the calls, from any place on. -/
theorem exists_afterAll (fits : data.length < UInt64.size) {calls : List Call}
    (sizes : ∀ call ∈ calls, call.Fits) (inside : place.toNat ≤ data.length) :
    ∃ next, afterAll? data place calls = some next ∧
      (atPlace data place).afterAll calls = atPlace data next ∧ place ≤ next ∧
      next.toNat ≤ data.length := by
  induction calls generalizing place with
  | nil => exact ⟨place, rfl, rfl, UInt64.le_rfl, inside⟩
  | cons call calls ih =>
      obtain ⟨size, sizes⟩ := List.forall_mem_cons.1 sizes
      obtain ⟨middle, steps, moves, further, bound⟩ := exists_after fits size inside
      obtain ⟨next, run, moved, further', bound'⟩ := ih sizes bound
      refine ⟨next, ?_, ?_, UInt64.le_trans further further', bound'⟩
      · rw [afterAll?, List.foldlM_cons, steps]
        exact run
      · rw [Cursor.afterAll, List.foldl_cons, moves]
        exact moved

end Indexed

namespace Cursor

open Indexed (after? afterAll? Agrees)

/-- Cursors are safe.  After every sequence of calls the cursor is at a place inside of its bytes,
the next call takes the bytes between that place and the one where it leaves the cursor, as the
rules for calls say, and no place lies in front of an earlier one.  A machine that checks each of
its sums, shifts and slices goes through all of the calls and comes to the same places and
answers. -/
theorem calls_are_safe {data : List UInt8} (fits : data.length < UInt64.size) {calls : List Call}
    (sizes : ∀ call ∈ calls, call.Fits) {call : Call} (size : call.Fits) :
    ∃ place next : UInt64,
      (start data).afterAll calls = atPlace data place ∧
      (start data).afterAll (calls ++ [call]) = atPlace data next ∧
      place ≤ next ∧ next.toNat ≤ data.length ∧
      (atPlace data place).position = place.toNat ∧
      (atPlace data next).position = next.toNat ∧
      Takes (atPlace data place) ((data.take next.toNat).drop place.toNat) (data.drop next.toNat)
        call (perform call (atPlace data place)) ∧
      afterAll? data 0 calls = some place ∧ after? data place call = some next ∧
      Agrees data (atPlace data) place (Indexed.perform data call place)
        (perform call (atPlace data place)) := by
  obtain ⟨place, run, moved, -, inside⟩ :=
    Indexed.exists_afterAll fits sizes (show (0 : UInt64).toNat ≤ data.length from Nat.zero_le _)
  obtain ⟨next, steps, moves, further, bound⟩ := Indexed.exists_after fits size inside
  refine ⟨place, next, moved, ?_, further, bound, position_atPlace inside,
    position_atPlace bound, ?_, run, steps, Indexed.agrees_perform fits size inside⟩
  · rw [afterAll, List.foldl_append]
    exact (congrArg (after · call) moved).trans moves
  · obtain ⟨taken, left, whole, takes⟩ := takes_perform (atPlace data place) call
    obtain rfl : left = data.drop next.toNat := by
      have same := takes.after_eq.symm.trans moves
      rw [atPlace, atPlace] at same
      injection same
    obtain rfl : (data.take next.toNat).drop place.toNat = taken :=
      List.append_cancel_right ((rest_eq_append further bound).symm.trans whole)
    exact takes

/-- Behind a text the cursor does not move for more bytes than there are, and moves to the end for
an integer that is not complete. -/
theorem calls_behind_a_text :
    let data : List UInt8 := [3, 0xE2, 0x82, 0xAC, 0xFF]
    let calls : List Call := [.text, .bytes (UInt64.size - 1)]
    ((start data).afterAll calls).position = 4 ∧
      ((start data).afterAll (calls ++ [.varint])).position = 5 ∧
      afterAll? data 0 calls = some 4 ∧ after? data 4 .varint = some 5 := by
  intro data calls
  have before : ((start data).afterAll calls).position = 4 := by decide +kernel
  have behind : ((start data).afterAll (calls ++ [.varint])).position = 5 := by decide +kernel
  obtain ⟨place, next, moved, moved', -, -, position, position', -, run, step, -⟩ :=
    calls_are_safe (show data.length < UInt64.size by decide)
      (show ∀ call ∈ calls, call.Fits by decide) (show Call.Fits .varint from trivial)
  obtain rfl : place = 4 := UInt64.toNat_inj.1 (by rw [← position, ← moved, before]; rfl)
  obtain rfl : next = 5 := UInt64.toNat_inj.1 (by rw [← position', ← moved', behind]; rfl)
  exact ⟨before, behind, run, step⟩

end Cursor

end SparseTensor
