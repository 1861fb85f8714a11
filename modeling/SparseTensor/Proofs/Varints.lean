/-
# Integers in groups of seven bits

The bytes of an integer have the high bit set, but for the last one, and what they write is the
sum of their groups, a natural number (`Reader.groupSum`).  Ten bytes have room for 70 bits, so the
sum of ten need not fit a word; a reader takes ten bytes at most and refuses those whose sum does
not (`Reader.varint_cases`).  A group is put above the others by a shift in a word, and no bit of it
is lost as long as the groups below are less than ten (`Reader.varint_append`).

An integer has a form for every number of groups that is large enough, as groups of zeros can stand
at its end.  The one that is written has none of them, and every other one is longer
(`Reader.Ends.eq_or_length_lt`).

A count is an integer that the bytes behind it can meet (`Reader.count_cases`).
-/
import Mathlib.Data.List.TakeWhile
import SparseTensor.Proofs.Weights

namespace SparseTensor.Reader

variable {bytes front taken rest : List UInt8} {b : UInt8} {v : UInt64}

/-! ## Groups -/

/-- The number whose groups of seven bits stand in some bytes, lowest first. -/
def groupSum : List UInt8 → Nat
  | [] => 0
  | b :: bytes => b.toNat % 128 + 128 * groupSum bytes

/-- The high bit is set on all bytes. -/
def GoOn (bytes : List UInt8) : Prop :=
  ∀ b ∈ bytes, continues b = true

/-- The high bit is set on all bytes but the last one. -/
inductive Ends : List UInt8 → Prop
  | last {b : UInt8} : continues b = false → Ends [b]
  | more {b : UInt8} {bytes : List UInt8} : continues b = true → Ends bytes → Ends (b :: bytes)

/-- At most ten bytes that are the groups of one integer. -/
structure Groups (bytes : List UInt8) (v : UInt64) : Prop where
  ends : Ends bytes
  length : bytes.length ≤ 10
  sum : groupSum bytes = v.toNat

/-- Bytes in front of others that are no integer, and why. -/
inductive Breaks : List UInt8 → List UInt8 → Fault → Prop
  /-- Nine bytes go on, and the tenth has more than the bit for which there is room. -/
  | overflow {front rest : List UInt8} {b : UInt8} : GoOn front → front.length = 9 → 1 < b →
    Breaks (front ++ [b]) rest (.corrupt .integerOverflow)
  /-- All bytes that are left go on, and there are less than ten. -/
  | incomplete {taken : List UInt8} : GoOn taken → taken.length < 10 →
    Breaks taken [] .outOfBounds

/-- The high bit stands for 128. -/
theorem continues_eq_true_iff (b : UInt8) : continues b = true ↔ 128 ≤ b.toNat := by
  have bit : ∀ i : Fin 256, (i.val &&& 128) = i.val / 128 * 128 := by decide +kernel
  have high : (b &&& 0x80).toNat = b.toNat / 128 * 128 := by
    rw [UInt8.toNat_and]
    exact bit ⟨b.toNat, b.toNat_lt⟩
  rw [continues, decide_eq_true_iff, ne_eq, ← UInt8.toNat_inj, high]
  show ¬ b.toNat / 128 * 128 = 0 ↔ _
  omega

/-- The group of a byte is what is left without the high bit. -/
theorem toNat_group (b : UInt8) : (b &&& 0x7F).toNat = b.toNat % 128 := by
  rw [UInt8.toNat_and]
  exact Nat.and_two_pow_sub_one_eq_mod b.toNat 7

theorem groupSum_append (front rest : List UInt8) :
    groupSum (front ++ rest) = groupSum front + 128 ^ front.length * groupSum rest := by
  induction front with
  | nil => simp [groupSum]
  | cons b front ih =>
      rw [List.cons_append, groupSum, groupSum, ih, List.length_cons, Nat.pow_succ, Nat.mul_add,
        ← Nat.mul_assoc, Nat.mul_comm 128 (128 ^ front.length), Nat.add_assoc]

/-- As many groups write a number below that power of 128. -/
theorem groupSum_lt (bytes : List UInt8) : groupSum bytes < 128 ^ bytes.length := by
  induction bytes with
  | nil => exact Nat.one_pos
  | cons b bytes ih =>
      rw [groupSum, List.length_cons, Nat.pow_succ]
      omega

/-- The last byte of an integer is its last group. -/
theorem toNat_lt_of_stops (stops : continues b = false) : b.toNat < 128 := by
  have := (continues_eq_true_iff b).not.1 (by simp [stops])
  omega

theorem groupSum_concat (front : List UInt8) (stops : continues b = false) :
    groupSum (front ++ [b]) = groupSum front + 128 ^ front.length * b.toNat := by
  rw [groupSum_append, groupSum, groupSum, Nat.mul_zero, Nat.add_zero,
    Nat.mod_eq_of_lt (toNat_lt_of_stops stops)]

/-- Ten groups fit a word if the tenth is a bit. -/
theorem groupSum_concat_lt (length : front.length ≤ 9) (bit : ¬ (front.length = 9 ∧ 1 < b))
    (stops : continues b = false) : groupSum (front ++ [b]) < 2 ^ 64 := by
  have small := toNat_lt_of_stops stops
  have below := groupSum_lt front
  rw [groupSum_concat front stops]
  by_cases nine : front.length = 9
  · have one : b.toNat ≤ 1 := Nat.not_lt.1 fun large => bit ⟨nine, UInt8.lt_iff_toNat_lt.2 large⟩
    rw [nine] at below ⊢
    omega
  · have least : 128 ^ front.length ≤ 128 ^ 8 := Nat.pow_le_pow_right (by decide) (by omega)
    have top : 128 ^ front.length * b.toNat ≤ 128 ^ front.length * 127 :=
      Nat.mul_le_mul_left _ (by omega)
    omega

theorem goOn_cons : GoOn (b :: bytes) ↔ continues b = true ∧ GoOn bytes :=
  List.forall_mem_cons

/-- What ends has a last byte. -/
theorem Ends.length_pos (h : Ends bytes) : 0 < bytes.length := by
  cases h <;> exact Nat.succ_pos _

/-- Bytes that end are some that go on, and a last one. -/
theorem ends_iff : Ends bytes ↔ ∃ front b, bytes = front ++ [b] ∧ GoOn front ∧
    continues b = false := by
  constructor
  · intro h
    induction h with
    | last stops => exact ⟨[], _, rfl, List.forall_mem_nil _, stops⟩
    | @more c _ goesOn _ ih =>
        obtain ⟨front, b, rfl, others, stops⟩ := ih
        exact ⟨c :: front, b, rfl, goOn_cons.2 ⟨goesOn, others⟩, stops⟩
  · rintro ⟨front, b, rfl, goesOn, stops⟩
    induction front with
    | nil => exact .last stops
    | cons c front ih =>
        obtain ⟨first, others⟩ := goOn_cons.1 goesOn
        exact .more first (ih others)

/-! ## Groups in front of others -/

/-- Groups that go on are put above those that are there, as long as there are less than ten. -/
theorem varintFrom_append {index : Nat} {value : UInt64} (below : value.toNat < 128 ^ index)
    (goesOn : GoOn front) (room : index + front.length ≤ 9) (rest : List UInt8) :
    ∃ next : UInt64, next.toNat = value.toNat + 128 ^ index * groupSum front ∧
      varintFrom index value (front ++ rest) = varintFrom (index + front.length) next rest := by
  induction front generalizing index value with
  | nil => exact ⟨value, by simp [groupSum], rfl⟩
  | cons b front ih =>
      obtain ⟨first, others⟩ := goOn_cons.1 goesOn
      rw [List.length_cons] at room
      have power : 2 ^ (7 * index) = 128 ^ index := by rw [Nat.pow_mul]
      -- nine groups have 63 bits, so the next group is not pushed out of the word
      have least : 128 ^ index ≤ 128 ^ 8 := Nat.pow_le_pow_right (by decide) (by omega)
      have group : b.toNat % 128 * 128 ^ index ≤ 127 * 128 ^ index :=
        Nat.mul_le_mul_right _ (by omega)
      have value' : (value ||| ((b &&& 0x7F).toUInt64 <<< (7 * index).toUInt64)).toNat =
          value.toNat + b.toNat % 128 * 2 ^ (7 * index) :=
        toNat_withGroup (power ▸ below) (toNat_group b) (by omega) (by rw [power]; omega)
      rw [power] at value'
      have below' : (value ||| ((b &&& 0x7F).toUInt64 <<< (7 * index).toUInt64)).toNat <
          128 ^ (index + 1) := withGroup_lt below b
      obtain ⟨next, sum, read⟩ := ih below' others (by omega)
      refine ⟨next, ?_, ?_⟩
      · rw [sum, value', groupSum, Nat.pow_succ, Nat.mul_add, ← Nat.mul_assoc,
          Nat.mul_comm (b.toNat % 128), Nat.add_assoc]
      · have early : ¬ (index = 9 ∧ 1 < b) := by omega
        rw [List.cons_append, varintFrom, if_neg early]
        simp only [first, if_true]
        rw [read, List.length_cons]
        congr 1
        omega

/-- Less than ten groups that go on are taken, and nothing of them is lost. -/
theorem varint_append (goesOn : GoOn front) (room : front.length ≤ 9) (rest : List UInt8) :
    ∃ value : UInt64, value.toNat = groupSum front ∧
      varint (front ++ rest) = varintFrom front.length value rest := by
  obtain ⟨value, sum, read⟩ :=
    @varintFrom_append front 0 0 (by decide) goesOn (by omega) rest
  rw [Nat.zero_add] at read
  exact ⟨value, by simpa using sum, read⟩

/-! ## What reading an integer comes to -/

/-- The groups of an integer are taken, and the integer is the sum of them. -/
theorem Groups.varint_append (h : Groups taken v) (rest : List UInt8) :
    varint (taken ++ rest) = .ok v rest := by
  obtain ⟨front, b, rfl, goesOn, stops⟩ := ends_iff.1 h.ends
  have length := h.length
  have sum := h.sum
  rw [List.length_append, List.length_singleton] at length
  obtain ⟨value, before, read⟩ := Reader.varint_append goesOn (by omega) (b :: rest)
  have small := toNat_lt_of_stops stops
  rw [groupSum_concat front stops] at sum
  have word := v.toNat_lt
  have room : ¬ (front.length = 9 ∧ 1 < b) := by
    rintro ⟨nine, large⟩
    have two : 2 ≤ b.toNat := UInt8.lt_iff_toNat_lt.1 large
    have : 128 ^ 9 * 2 ≤ 128 ^ 9 * b.toNat := Nat.mul_le_mul_left _ two
    rw [nine] at sum
    omega
  have power : 2 ^ (7 * front.length) = 128 ^ front.length := by rw [Nat.pow_mul]
  have whole : (value ||| ((b &&& 0x7F).toUInt64 <<< (7 * front.length).toUInt64)).toNat =
      value.toNat + b.toNat * 2 ^ (7 * front.length) :=
    toNat_withGroup (by rw [power, before]; exact groupSum_lt front)
      ((toNat_group b).trans (Nat.mod_eq_of_lt small)) (by omega)
      (by rw [power, before, Nat.mul_comm]; omega)
  rw [power, before, Nat.mul_comm b.toNat, sum] at whole
  rw [List.append_assoc, List.singleton_append, read, varintFrom, if_neg room]
  simp only [stops, Bool.false_eq_true, if_false]
  rw [UInt64.toNat_inj.1 whole]

/-- What is taken of bytes that are no integer, and what is left of them: behind nine groups that go
on there is room for one bit, and groups that go on at the end of the bytes are not complete. -/
theorem Breaks.varint_append {fault : Fault} (h : Breaks taken rest fault) :
    varint (taken ++ rest) = .error fault rest := by
  cases h with
  | @overflow front _ b goesOn nine large =>
      obtain ⟨value, -, read⟩ := Reader.varint_append goesOn nine.le (b :: rest)
      rw [List.append_assoc, List.singleton_append, read, varintFrom, if_pos ⟨nine, large⟩]
  | incomplete goesOn short =>
      obtain ⟨value, -, read⟩ := Reader.varint_append goesOn (by omega) []
      rw [read, varintFrom]

/-- No more than ten bytes are taken, also of those that are no integer. -/
theorem Breaks.length_le {fault : Fault} (h : Breaks taken rest fault) : taken.length ≤ 10 := by
  cases h with
  | overflow goesOn nine large => simp [nine]
  | incomplete goesOn short => exact short.le

/-- Bytes start with the groups of an integer, or with some that are none. -/
theorem varint_cases (bytes : List UInt8) :
    (∃ taken v rest, bytes = taken ++ rest ∧ Groups taken v) ∨
      ∃ taken rest fault, bytes = taken ++ rest ∧ Breaks taken rest fault := by
  -- the first byte that does not go on is the last of the groups, if it is one of the first ten
  have split : bytes.takeWhile continues ++ bytes.dropWhile continues = bytes :=
    List.takeWhile_append_dropWhile
  have goesOn : GoOn (bytes.takeWhile continues) := fun _ hb => List.mem_takeWhile_imp hb
  generalize bytes.takeWhile continues = front at split goesOn
  by_cases long : 10 ≤ front.length
  · have tenth : 9 < front.length := long
    refine .inr ⟨front.take 9 ++ [front[9]], front.drop 10 ++ bytes.dropWhile continues, _, ?_,
      .overflow (fun b hb => goesOn b (List.mem_of_mem_take hb)) (by simp; omega) ?_⟩
    · rw [List.append_assoc, List.singleton_append, ← List.cons_append,
        ← List.drop_eq_getElem_cons tenth, ← List.append_assoc, List.take_append_drop, split]
    · have high := (continues_eq_true_iff _).1 (goesOn front[9] (List.getElem_mem tenth))
      exact UInt8.lt_iff_toNat_lt.2 (Nat.lt_of_lt_of_le (by decide) high)
  · cases found : bytes.dropWhile continues with
    | nil =>
        rw [found, List.append_nil] at split
        exact .inr ⟨front, [], _, by rw [List.append_nil, split],
          .incomplete goesOn (Nat.not_le.1 long)⟩
    | cons b rest =>
        rw [found] at split
        have stops : continues b = false := by
          have first := List.head?_dropWhile_not continues bytes
          rw [found] at first
          simpa using first
        by_cases overflow : front.length = 9 ∧ 1 < b
        · exact .inr ⟨front ++ [b], rest, _,
            by rw [← split, List.append_assoc, List.singleton_append],
            .overflow goesOn overflow.1 overflow.2⟩
        · have fits := groupSum_concat_lt (by omega) overflow stops
          refine .inl ⟨front ++ [b], (groupSum (front ++ [b])).toUInt64, rest, ?_, ?_⟩
          · rw [← split, List.append_assoc, List.singleton_append]
          · refine ⟨ends_iff.2 ⟨front, b, rfl, goesOn, stops⟩, by simp; omega, ?_⟩
            exact (UInt64.toNat_ofNat_of_lt' fits).symm

/-- An integer is read from its groups, and from nothing else. -/
theorem varint_eq_ok_iff :
    varint bytes = .ok v rest ↔ ∃ taken, bytes = taken ++ rest ∧ Groups taken v := by
  constructor
  · intro read
    rcases varint_cases bytes with ⟨taken, w, left, rfl, groups⟩ |
      ⟨taken, left, other, rfl, breaks⟩
    · cases (groups.varint_append left).symm.trans read
      exact ⟨taken, rfl, groups⟩
    · cases breaks.varint_append.symm.trans read
  · rintro ⟨taken, rfl, groups⟩
    exact groups.varint_append rest

/-- An integer fails behind bytes that are none, and nowhere else. -/
theorem varint_eq_error_iff {fault : Fault} :
    varint bytes = .error fault rest ↔
      ∃ taken, bytes = taken ++ rest ∧ Breaks taken rest fault := by
  constructor
  · intro read
    rcases varint_cases bytes with ⟨taken, w, left, rfl, groups⟩ |
      ⟨taken, left, other, rfl, breaks⟩
    · cases (groups.varint_append left).symm.trans read
    · cases breaks.varint_append.symm.trans read
      exact ⟨taken, rfl, breaks⟩
  · rintro ⟨taken, rfl, breaks⟩
    exact breaks.varint_append

/-- The sum of ten groups does not fit a word if nine bytes go on and the tenth is not a bit. -/
theorem overflows_iff : (∃ rest, varint bytes = .error (.corrupt .integerOverflow) rest) ↔
    ∃ front b rest, bytes = front ++ b :: rest ∧ GoOn front ∧ front.length = 9 ∧ 1 < b := by
  simp only [varint_eq_error_iff]
  constructor
  · rintro ⟨rest, taken, rfl, breaks⟩
    cases breaks with
    | @overflow front _ b goesOn nine large =>
        exact ⟨front, b, rest, by rw [List.append_assoc, List.singleton_append], goesOn, nine,
          large⟩
  · rintro ⟨front, b, rest, rfl, goesOn, nine, large⟩
    exact ⟨rest, front ++ [b], by rw [List.append_assoc, List.singleton_append],
      .overflow goesOn nine large⟩

/-- Less than ten bytes are not complete if all of them go on. -/
theorem incomplete_iff : (∃ rest, varint bytes = .error .outOfBounds rest) ↔
    GoOn bytes ∧ bytes.length < 10 := by
  simp only [varint_eq_error_iff]
  constructor
  · rintro ⟨rest, taken, rfl, breaks⟩
    cases breaks with
    | incomplete goesOn short => exact ⟨by rwa [List.append_nil], by rwa [List.append_nil]⟩
  · rintro ⟨goesOn, short⟩
    exact ⟨[], bytes, (List.append_nil _).symm, .incomplete goesOn short⟩

/-! ## The shortest form -/

/-- The groups that are written are those of the number. -/
theorem ends_varintGroups (n : Nat) :
    Ends (varintGroups n) ∧ groupSum (varintGroups n) = n := by
  induction n using Nat.strongRecOn with
  | ind n ih =>
      rw [varintGroups]
      split
      · rename_i small
        obtain ⟨stops, group⟩ := last_group n small
        refine ⟨.last stops, ?_⟩
        rw [groupSum, groupSum, ← toNat_group, group, Nat.mul_zero, Nat.add_zero]
      · obtain ⟨goesOn, group⟩ := inner_group (n % 128) (Nat.mod_lt _ (by decide))
        obtain ⟨ends, sum⟩ := ih (n / 128) (by omega)
        refine ⟨.more goesOn ends, ?_⟩
        rw [groupSum, ← toNat_group, group, sum]
        omega

/-- The form that is written is one of the integer. -/
theorem groups_varintBytes (v : UInt64) : Groups (varintBytes v) v where
  ends := (ends_varintGroups v.toNat).1
  length := length_varintGroups_le (by decide) (v.toNat_lt.trans (by decide))
  sum := (ends_varintGroups v.toNat).2

/-- Of all forms of a number the one that is written is the shortest, and no other is as short: by
induction on the groups, as the other ones have a group of zeros at the end. -/
theorem Ends.eq_or_length_lt (h : Ends bytes) :
    bytes = varintGroups (groupSum bytes) ∨
      (varintGroups (groupSum bytes)).length < bytes.length := by
  induction h with
  | @last b stops =>
      have small := toNat_lt_of_stops stops
      have sum : groupSum [b] = b.toNat := by
        rw [groupSum, groupSum, Nat.mod_eq_of_lt small, Nat.mul_zero, Nat.add_zero]
      refine .inl ?_
      rw [sum, varintGroups, if_pos small, Nat.toUInt8, UInt8.ofNat_toNat]
  | @more b bytes goesOn ends ih =>
      have high := (continues_eq_true_iff b).1 goesOn
      have top := b.toNat_lt
      have positive := ends.length_pos
      rw [groupSum]
      -- if the groups behind are zeros one byte would do, and if not the first bytes are the same
      by_cases zero : groupSum bytes = 0
      · refine .inr ?_
        rw [zero, varintGroups, if_pos (by omega), List.length_cons]
        exact Nat.succ_lt_succ positive
      · have first : (b.toNat % 128 + 128 * groupSum bytes) % 128 + 128 = b.toNat := by omega
        have others : (b.toNat % 128 + 128 * groupSum bytes) / 128 = groupSum bytes := by omega
        rw [varintGroups, if_neg (by omega), first, others, Nat.toUInt8, UInt8.ofNat_toNat]
        refine ih.imp (congrArg (b :: ·)) fun shorter => ?_
        exact Nat.succ_lt_succ shorter

/-- Every form of an integer is the one that is written, or longer than that. -/
theorem Groups.eq_or_length_lt (h : Groups taken v) :
    taken = varintBytes v ∨ (varintBytes v).length < taken.length := by
  rw [varintBytes, ← h.sum]
  exact h.ends.eq_or_length_lt

/-! ## Runs of bytes and counts -/

/-- A count that is none, or that cannot be met by the bytes behind it. -/
inductive Refuses : List UInt8 → List UInt8 → Fault → Prop
  | breaks {taken left : List UInt8} {fault : Fault} : Breaks taken left fault →
    Refuses taken left fault
  | exceeds {taken left : List UInt8} {v : UInt64} : Groups taken v → left.length < v.toNat →
    Refuses taken left (.corrupt (.countExceedsRemaining v left.length))

/-- A run of bytes is taken if there are as many, and otherwise nothing is. -/
theorem take_cases (n : Nat) (bytes : List UInt8) :
    (∃ taken left, bytes = taken ++ left ∧ taken.length = n ∧
      take n bytes = .ok taken left) ∨
    bytes.length < n ∧ take n bytes = .error .outOfBounds bytes := by
  by_cases enough : n ≤ bytes.length
  · refine .inl ⟨bytes.take n, bytes.drop n, (List.take_append_drop n bytes).symm,
      List.length_take_of_le enough, ?_⟩
    rw [take, if_pos enough]
  · refine .inr ⟨Nat.not_le.1 enough, ?_⟩
    rw [take, if_neg enough]

/-- A count is an integer that the bytes behind it can meet. -/
theorem count_cases (bytes : List UInt8) :
    (∃ taken left v, bytes = taken ++ left ∧ Groups taken v ∧ v.toNat ≤ left.length ∧
      count bytes = .ok v.toNat left) ∨
    ∃ taken left fault, bytes = taken ++ left ∧ Refuses taken left fault ∧
      count bytes = .error fault left := by
  rcases varint_cases bytes with ⟨taken, v, left, rfl, groups⟩ |
    ⟨taken, left, fault, rfl, breaks⟩
  · have read : count (taken ++ left) = (if v.toNat ≤ left.length then pure v.toNat
        else throw (.corrupt (.countExceedsRemaining v left.length)) : Reader Nat) left := by
      rw [count, bind_of_ok (groups.varint_append left)]
      rfl
    by_cases enough : v.toNat ≤ left.length
    · rw [if_pos enough] at read
      exact .inl ⟨taken, left, v, rfl, groups, enough, read⟩
    · rw [if_neg enough] at read
      exact .inr ⟨taken, left, _, rfl, .exceeds groups (Nat.not_le.1 enough), read⟩
  · refine .inr ⟨taken, left, fault, rfl, .breaks breaks, ?_⟩
    rw [count, bind_of_error breaks.varint_append]

end SparseTensor.Reader
