/-
# Calls one after another

A call leads from a state to another, and comes to an answer or to a fault.  The state that it has
led to is there in both cases.  Calls one after another stop at the first fault.
-/

namespace SparseTensor

variable {ε σ α β : Type} {c : EStateM ε σ α} {k : α → EStateM ε σ β} {s t u : σ}

/-- After a call that answers, the next one goes on from where it has led. -/
theorem bind_of_ok {a : α} (h : c s = .ok a t) : (c >>= k) s = k a t := by
  show EStateM.bind c k s = k a t
  rw [EStateM.bind, h]

/-- After a call that fails nothing else is done. -/
theorem bind_of_error {fault : ε} (h : c s = .error fault t) : (c >>= k) s = .error fault t := by
  show EStateM.bind c k s = .error fault t
  rw [EStateM.bind, h]

/-- Two calls that answer one after another answer each. -/
theorem exists_of_bind_ok {b : β} (h : (c >>= k) s = .ok b u) :
    ∃ a t, c s = .ok a t ∧ k a t = .ok b u := by
  cases first : c s with
  | ok a t => exact ⟨a, t, rfl, (bind_of_ok first).symm.trans h⟩
  | error fault t => cases (bind_of_error first).symm.trans h

theorem get_bind (k : σ → EStateM ε σ β) (s : σ) : (get >>= k) s = k s s := rfl

theorem set_bind (k : PUnit → EStateM ε σ β) (s t : σ) : (set t >>= k) s = k ⟨⟩ t := rfl

theorem modify_bind (f : σ → σ) (k : PUnit → EStateM ε σ β) (s : σ) :
    (modify f >>= k) s = k ⟨⟩ (f s) := rfl

end SparseTensor
