/-
# Agendas

An agenda is a list of ranks.  One step takes its head away and puts finitely many smaller
ranks in its place, or pays from a budget and does what it likes.  `wellFounded_follows` says
that there is no endless sequence of such steps.
-/

namespace SparseTensor

/-- A budget, and the ranks of what is left to do. -/
structure Agenda where
  budget : Nat
  ranks : List Nat

namespace Agenda

/-- One list of ranks comes from another when its head is replaced by smaller ones. -/
def Replaces (new old : List Nat) : Prop :=
  ∃ head tail front, old = head :: tail ∧ new = front ++ tail ∧ ∀ r ∈ front, r < head

/-- Nothing comes from the empty list. -/
theorem acc_nil : Acc Replaces [] :=
  ⟨_, fun _ ⟨_, _, _, h, _⟩ => nomatch h⟩

/-- What can be done behind a new head can be done, whatever the head. -/
theorem acc_cons (head : Nat) : ∀ {tail : List Nat}, Acc Replaces tail →
    Acc Replaces (head :: tail) := by
  induction head using Nat.strongRecOn with
  | ind head smaller =>
    intro tail htail
    refine ⟨_, ?_⟩
    rintro _ ⟨_, _, front, same, rfl, below⟩
    cases same
    induction front with
    | nil => exact htail
    | cons r front ih =>
      exact smaller r (below r List.mem_cons_self)
        (ih fun s hs => below s (List.mem_cons_of_mem _ hs))

/-- Replacing heads comes to an end. -/
theorem wellFounded_replaces : WellFounded Replaces :=
  ⟨fun ranks => by
    induction ranks with
    | nil => exact acc_nil
    | cons head tail ih => exact acc_cons head ih⟩

/-- One step: either the budget shrinks, or it stays and the head is replaced by smaller
ranks. -/
def Follows (new old : Agenda) : Prop :=
  new.budget < old.budget ∨ new.budget = old.budget ∧ Replaces new.ranks old.ranks

/-- Steps come to an end. -/
theorem wellFounded_follows : WellFounded Follows := by
  have lex := (Prod.lex ⟨_, Nat.lt_wfRel.wf⟩ ⟨_, wellFounded_replaces⟩).wf
  refine Subrelation.wf ?_ (InvImage.wf (fun a : Agenda => (a.budget, a.ranks)) lex)
  rintro ⟨newBudget, newRanks⟩ ⟨oldBudget, oldRanks⟩ (h | ⟨h, replaces⟩)
  · exact Prod.Lex.left newRanks oldRanks h
  · cases h
    exact Prod.Lex.right newBudget replaces

instance : WellFoundedRelation Agenda := ⟨Follows, wellFounded_follows⟩

end Agenda

end SparseTensor
