/-
# Hexadecimal numerals

Numbers are written with lower-case digits and read with digits of either case.
`value?_digits` says that what is written is read back.
-/

namespace SparseTensor.Hexadecimal

/-- The lower-case hexadecimal digits of a number. -/
def digits (n : Nat) : List Char :=
  Nat.toDigits 16 n

/-- The value of a hexadecimal digit of either case. -/
def digit? (c : Char) : Option Nat :=
  if '0' ≤ c ∧ c ≤ '9' then some (c.toNat - '0'.toNat)
  else if 'a' ≤ c ∧ c ≤ 'f' then some (c.toNat - 'a'.toNat + 10)
  else if 'A' ≤ c ∧ c ≤ 'F' then some (c.toNat - 'A'.toNat + 10)
  else none

/-- The number that some digits denote behind a number that is read already. -/
def append? (n : Nat) (s : List Char) : Option Nat :=
  s.foldlM (fun n c => (digit? c).map (16 * n + ·)) n

/-- The number that one or more digits denote. -/
def value? (s : List Char) : Option Nat :=
  if s.isEmpty then none else append? 0 s

/-- A written digit is read back. -/
theorem digit?_digitChar {n : Nat} (h : n < 16) : digit? n.digitChar = some n := by
  revert n
  decide

/-- Written digits are read back. -/
theorem append?_digits (n : Nat) : append? 0 (digits n) = some n := by
  induction n using Nat.strongRecOn with
  | ind n ih =>
    unfold digits at *
    by_cases small : n < 16
    · rw [Nat.toDigits_of_lt_base small]
      simp [append?, digit?_digitChar small]
    · rw [Nat.toDigits_of_base_le (by decide) (by omega), append?, List.foldlM_append]
      have front : List.foldlM (fun n c => (digit? c).map (16 * n + ·)) 0
          (Nat.toDigits 16 (n / 16)) = some (n / 16) := ih _ (by omega)
      rw [front]
      simp only [Option.bind_eq_bind, Option.bind_some, List.foldlM_cons, List.foldlM_nil,
        digit?_digitChar (Nat.mod_lt n (by decide)), Option.map_some, Option.pure_def,
        Option.some.injEq]
      omega

/-- What is written is read back. -/
theorem value?_digits (n : Nat) : value? (digits n) = some n := by
  unfold value?
  rw [if_neg (by simp [digits, Nat.toDigits_ne_nil]), append?_digits]

end SparseTensor.Hexadecimal
