/-
# Names

A table of named things.  Giving a name again replaces what it stood for.  `get?_set` says what
a name stands for after a thing has been given one.
-/

namespace SparseTensor

/-- Named things, each name once. -/
structure Names (α : Type) where
  entries : List (String × α)

namespace Names

variable {α : Type}

/-- The table without names. -/
def empty : Names α := ⟨[]⟩

/-- What a name stands for. -/
def get? (t : Names α) (name : String) : Option α :=
  t.entries.lookup name

/-- Forget a name. -/
def erase (t : Names α) (name : String) : Names α :=
  ⟨t.entries.filter fun entry => entry.1 ≠ name⟩

/-- Give a name to a thing. -/
def set (t : Names α) (name : String) (a : α) : Names α :=
  ⟨(name, a) :: (t.erase name).entries⟩

/-- Other names stand for the same after a name is forgotten, and the name for nothing. -/
theorem get?_erase (t : Names α) (name other : String) :
    (t.erase name).get? other = if other = name then none else t.get? other := by
  obtain ⟨entries⟩ := t
  simp only [erase, get?]
  induction entries with
  | nil => simp
  | cons entry rest ih =>
    obtain ⟨n, a⟩ := entry
    by_cases dropped : n = name
    · subst dropped
      rw [List.filter_cons_of_neg (by simp), ih]
      by_cases same : other = n
      · simp [same]
      · simp [same, List.lookup_cons, beq_eq_false_iff_ne.2 same]
    · rw [List.filter_cons_of_pos (by simpa using dropped)]
      by_cases same : other = n
      · subst same
        simp [dropped]
      · simp only [List.lookup_cons, beq_eq_false_iff_ne.2 same]
        exact ih

/-- A name stands for what was given it last. -/
theorem get?_set (t : Names α) (name other : String) (a : α) :
    (t.set name a).get? other = if other = name then some a else t.get? other := by
  by_cases same : other = name
  · simp [get?, set, same]
  · have := get?_erase t name other
    simp only [get?, if_neg same] at *
    simp only [set, List.lookup_cons, beq_eq_false_iff_ne.2 same, this]

/-- Giving a name to what it stands for already changes nothing. -/
theorem get?_set_self {t : Names α} {name : String} {a : α} (h : t.get? name = some a)
    (other : String) : (t.set name a).get? other = t.get? other := by
  rw [get?_set]
  split
  · rename_i same
    rw [same, h]
  · rfl

end Names

end SparseTensor
