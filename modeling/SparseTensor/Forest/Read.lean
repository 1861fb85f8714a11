/-
# Reading a node

A node is read through its cache.  A view whose cache is stale first takes over the cells of
its parent, which is read in the same way; every encoding that is derived on the way is kept.
An orphaned view and a view that has lost its parent cannot be read.

A read changes caches and the log, and nothing else: `read` keeps the number of nodes and what
each of them weighs in the budget of a delivery.
-/
import SparseTensor.Forest.Basic

namespace SparseTensor

/-! ## Budgets -/

/-- What a node adds to the budget of a delivery: it can be destroyed once and orphaned once. -/
def Node.weight {α : Type} (n : Node α) : Nat :=
  (if n.available then 1 else 0) + if n.orphaned then 0 else 1

namespace Forest

variable {α β : Type}

/-- What some nodes weigh together. -/
def totalWeight : List (Node α) → Nat
  | [] => 0
  | n :: rest => n.weight + totalWeight rest

/-- The number of destructions and orphanings that are still possible. -/
def budget (f : Forest α) : Nat :=
  totalWeight f.nodes.toList

/-- The total weight changes with the weight of the node that is changed. -/
theorem totalWeight_modify {nodes : List (Node α)} {id : NodeId} {n : Node α}
    {g : Node α → Node α} (h : nodes[id]? = some n) :
    totalWeight (nodes.modify id g) + n.weight = totalWeight nodes + (g n).weight := by
  induction nodes generalizing id with
  | nil => simp at h
  | cons first rest ih =>
    cases id with
    | zero =>
      simp only [List.getElem?_cons_zero, Option.some.injEq] at h
      subst h
      simp only [List.modify_zero_cons, totalWeight]
      omega
    | succ id =>
      simp only [List.getElem?_cons_succ] at h
      have := ih h
      simp only [List.modify_succ_cons, totalWeight]
      omega

/-- Changing a node changes the budget by the change of its weight. -/
theorem budget_update {f : Forest α} {id : NodeId} {n : Node α} {g : Node α → Node α}
    (h : f.nodes[id]? = some n) :
    (f.update id g).budget + n.weight = f.budget + (g n).weight := by
  simp only [budget, update, Array.toList_modify]
  exact totalWeight_modify (by simpa using h)

/-- Changing a node that is not there changes no budget. -/
theorem budget_update_of_none {f : Forest α} {id : NodeId} {g : Node α → Node α}
    (h : f.nodes[id]? = none) : (f.update id g).budget = f.budget := by
  have outside : f.nodes.toList.length ≤ id := by simpa using h
  simp only [budget, update, Array.toList_modify, List.modify_eq_self outside]

/-- A change that keeps weights keeps the budget. -/
theorem budget_update_eq {f : Forest α} {id : NodeId} {g : Node α → Node α}
    (h : ∀ n, (g n).weight = n.weight) : (f.update id g).budget = f.budget := by
  cases found : f.nodes[id]? with
  | none => exact budget_update_of_none found
  | some n =>
    have := budget_update (g := g) found
    rw [h] at this
    omega

/-- Two forests agree for the purposes of a delivery: as many nodes, and the same budget. -/
def Agrees (f g : Forest α) : Prop :=
  g.nodes.size = f.nodes.size ∧ g.budget = f.budget

/-- A change that keeps weights leads to a forest that agrees. -/
theorem agrees_update {f : Forest α} {id : NodeId} {g : Node α → Node α}
    (h : ∀ n, (g n).weight = n.weight) : f.Agrees (f.update id g) :=
  ⟨size_update f id g, budget_update_eq h⟩

theorem Agrees.refl (f : Forest α) : f.Agrees f := ⟨rfl, rfl⟩

theorem Agrees.trans {f g h : Forest α} (fg : f.Agrees g) (gh : g.Agrees h) : f.Agrees h :=
  ⟨gh.1.trans fg.1, gh.2.trans fg.2⟩

/-! ## Reading -/

/-- Read a node through its cache as it is. -/
def look (f : Forest α) (id : NodeId) (read : Shape → Cache → Cache.Reading β) :
    Option (β × Forest α) :=
  f.nodes[id]?.map fun n =>
    let r := read n.shape n.cache
    (r.value, (f.update id fun n => { n with cache := r.cache }).noteAll r.notes)

/-- Bring the cache of a node up to date.  A parent is older than its views, so the way up
ends. -/
def refresh (f : Forest α) (id : NodeId) : Except Fault (Forest α) :=
  match f.nodes[id]? with
  | none => .error .unknownNode
  | some n =>
    if n.orphaned then .error .orphaned
    else if !n.cache.isStale then .ok f
    else
      match n.role with
      | .canonical => .error .noParent
      | .view none => .error .orphaned
      | .view (some link) =>
        if _older : link.parent < id then
          if f.isAlive link.parent then
            match refresh f link.parent with
            | .error fault => .error fault
            | .ok g =>
              match g.look link.parent Cache.readSparse with
              | none => .error .orphaned
              | some (cells, g) =>
                .ok (g.update id fun n => { n with cache := .ofSparse cells })
          else .error .orphaned
        else .error .orphaned
termination_by id

/-- Read a node that its owner lends out through an up-to-date cache. -/
def read (id : NodeId) (read : Shape → Cache → Cache.Reading β) : Call α β := fun f =>
  match f.available? id with
  | none => .error .unknownNode f
  | some _ =>
    match f.refresh id with
    | .error fault => .error fault f
    | .ok g =>
      match g.look id read with
      | none => .error .unknownNode f
      | some (value, g) => .ok value g

/-- The cells of a node. -/
def sparse (id : NodeId) : Call α Sparse := read id Cache.readSparse

/-- The bits of a node. -/
def dense (id : NodeId) : Call α Dense := read id Cache.readDense

/-- The coordinates of the cells of a node. -/
def coordinates (id : NodeId) : Call α Coordinates := read id Cache.readCoordinates

/-- The number of active cells of a node. -/
def sum (id : NodeId) : Call α Nat := read id Cache.readSum

/-! ## Reads change only caches and the log -/

/-- A relation between a forest and later ones that is indifferent to caches and to the log. -/
structure Indifferent (R : Forest α → Forest α → Prop) : Prop where
  refl : ∀ f, R f f
  trans : ∀ {f g h}, R f g → R g h → R f h
  cache : ∀ (f : Forest α) (id : NodeId) (cache : Cache),
    R f (f.update id fun n => { n with cache })
  notes : ∀ (f : Forest α) (notes : List Note), R f (f.noteAll notes)

section

variable {R : Forest α → Forest α → Prop} {f g : Forest α} {id : NodeId}
  {r : Shape → Cache → Cache.Reading β} {value : β}

theorem Indifferent.look (indifferent : Indifferent R) (h : f.look id r = some (value, g)) :
    R f g := by
  obtain ⟨n, _, equal⟩ := Option.map_eq_some_iff.1 h
  cases equal
  exact indifferent.trans (indifferent.cache f id _) (indifferent.notes _ _)

/-- Bringing a cache up to date brings those of the nodes above up to date first. -/
theorem Indifferent.refresh (indifferent : Indifferent R) (h : f.refresh id = .ok g) :
    R f g := by
  induction id using Nat.strongRecOn generalizing g with
  | ind id ih =>
    unfold Forest.refresh at h
    split at h
    · cases h
    split at h
    · cases h
    split at h
    · cases h
      exact indifferent.refl f
    split at h
    · cases h
    · cases h
    split at h
    case isFalse => cases h
    split at h
    case isFalse => cases h
    split at h
    · cases h
    split at h
    · cases h
    · rename_i older _ _ _ refreshed _ _ _ looked
      cases h
      have above := indifferent.trans (ih _ older refreshed) (indifferent.look looked)
      exact indifferent.trans above (indifferent.cache _ id _)

/-- All that can be seen of a read besides its value are caches and notes. -/
theorem Indifferent.read (indifferent : Indifferent R) (h : Forest.read id r f = .ok value g) :
    R f g := by
  unfold Forest.read at h
  split at h
  · cases h
  split at h
  · cases h
  · rename_i refreshed
    split at h
    · cases h
    · rename_i looked
      cases h
      exact indifferent.trans (indifferent.refresh refreshed) (indifferent.look looked)

end

/-- Reads lead to forests that agree. -/
theorem indifferent_agrees : Indifferent (Agrees (α := α)) where
  refl := .refl
  trans := .trans
  cache _ _ _ := agrees_update fun _ => rfl
  notes f _ := .refl f

/-- A read that fails changes nothing. -/
theorem eq_of_read_error {f g : Forest α} {id : NodeId} {r : Shape → Cache → Cache.Reading β}
    {fault : Fault} (h : read id r f = .error fault g) : g = f := by
  unfold read at h
  split at h
  · cases h
    rfl
  split at h
  · cases h
    rfl
  · split at h
    · cases h
      rfl
    · cases h

end Forest

end SparseTensor
