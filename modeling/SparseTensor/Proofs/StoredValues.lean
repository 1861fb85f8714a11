/-
# Stored values

A change of a value announces itself before it is over, and what listeners do meanwhile is anything
they like.  None of it can touch the value: what is told to views makes caches stale, but the node
that is changed is no view, and nobody can end it as it is not lent out.

`Situation.Retains` says what such a node has all the time, and a run of the delivery keeps it
(`Retains.leads`).  So a value that is stored is there in the end (`Reached.store`): a change that the
outlook admits leaves the cells it comes to, and any other leaves all as it was (`Reached.replace`).
-/
import SparseTensor.Proofs.Cascades
import SparseTensor.Proofs.Severing

namespace SparseTensor

variable {α G : Type}

/-! ## While others are told -/

/-- A canonical node holds a value, whatever is still on the agenda. -/
structure Situation.Retains (s : Situation α) (id : NodeId) (shape : Shape) (cells : Sparse) :
    Prop where
  ordered : s.Ordered
  holds : ∃ n, s.forest.nodes[id]? = some n ∧ n.role = .canonical ∧ n.shape = shape ∧
    n.orphaned = false ∧ n.isFresh = true ∧ n.cells = cells

namespace Situation

variable {f : Forest α} {id : NodeId} {shape : Shape} {cells : Sparse} {react : Reaction α}

/-- No task takes the value from a canonical node: it would have to be told as a view. -/
theorem Retains.step {task : Task α} {tasks : List (Task α)} {changing : Option NodeId}
    (h : Retains ⟨f, task :: tasks, changing⟩ id shape cells) :
    Retains ⟨(f.step react task).1, (f.step react task).2 ++ tasks, changing⟩ id shape cells := by
  obtain ⟨n, hn, role, rfl, live, fresh, rfl⟩ := h.holds
  have does := Forest.does_step h.ordered.forest.sound react task
  have silent : ∀ source token event, task ≠ .deliver source ⟨token, .view id⟩ event := by
    rintro source token event rfl
    obtain ⟨v, hv, isView⟩ := h.ordered.awaited List.mem_cons_self
    obtain rfl := Option.some.inj (hn.symm.trans hv)
    rw [role] at isView
    cases isView
  refine ⟨h.ordered.does does, ?_⟩
  obtain ⟨m, hm, wanes⟩ := does.wanes.forth hn
  obtain ⟨k, hk, rests⟩ := does.rests silent n hn
  obtain rfl := Option.some.inj (hm.symm.trans hk)
  obtain ⟨fresh, same⟩ := rests.cells fresh
  exact ⟨m, hm, wanes.canonical role, wanes.shape, rests.orphaned.trans live, fresh, same⟩

theorem Retains.leads {s t : Situation α} (h : s.Retains id shape cells) (leads : s.Leads react t) :
    t.Retains id shape cells := by
  induction leads with
  | refl => exact h
  | step _ ih => exact ih.step

end Situation

/-! ## Changes -/

/-- Storing a value in a canonical node leaves it there, however listeners react. -/
theorem Forest.carryOut_store {f : Forest α} {id : NodeId} {n : Node α} {value : Cache}
    {cells : Sparse} (start : (Situation.storing f id value).Ordered)
    (found : f.nodes[id]? = some n) (role : n.role = .canonical) (live : n.orphaned = false)
    (held : value.isStale = false) (holds : value.Holds n.shape cells) (react : Reaction α) :
    (f.carryOut react (.store id value)).Ordered ∧
      ∃ m, (f.carryOut react (.store id value)).available? id = some m ∧ m.shape = n.shape ∧
        (f.carryOut react (.store id value)).shown id = .ok cells := by
  have fresh : ({ n with cache := value, available := false } : Node α).isFresh = true := by
    simp [Node.isFresh, held]
  have retains : (Situation.storing f id value).Retains id n.shape cells :=
    ⟨start, _, getElem?_update_self found _, role, rfl, live, fresh, Node.cells_eq holds fresh⟩
  have none : (Situation.storing f id value).Leads react (Situation.storing f id value) := .refl
  have finished := retains.leads none.complete
  obtain ⟨m, hm, -, shape, live, fresh, rfl⟩ := finished.holds
  -- the end of the change lends the node out again
  have again := getElem?_update_self hm fun n => { n with available := true }
  rw [f.carryOut_eq react (.store id value)]
  refine ⟨finished.ordered.finish.forest, { m with available := true }, ?_, shape, ?_⟩
  · exact Option.filter_eq_some_iff.2 ⟨again, rfl⟩
  · exact shown_of_isFresh (n := { m with available := true }) again live fresh

variable [RandomSource G] [LawfulRandomSource G] {allowed : Situation α → Move α G → Prop}
  {f : Forest α} {id : NodeId}

/-- A value that is stored in a canonical node, after something was read, is there when everybody has
heard of it. -/
theorem Reached.store {g : Forest α} {n : Node α} {value : Cache} {cells : Sparse}
    (reached : Reached allowed (.quiet f)) (reads : f.Reads g) (found : f.available? id = some n)
    (role : n.role = .canonical) (held : value.isStale = false)
    (holds : value.Holds n.shape cells) (react : Reaction α) :
    (g.store react id value).Ordered ∧ ∃ m, (g.store react id value).available? id = some m ∧
      m.shape = n.shape ∧ (g.store react id value).shown id = .ok cells := by
  obtain ⟨hn, lent⟩ := Option.filter_eq_some_iff.1 found
  obtain ⟨m, hm, bare, -⟩ := reads.node hn
  have lent' : m.available = true := (congrArg Node.available bare).trans lent
  have role' : m.role = .canonical := (congrArg Node.role bare).trans role
  have shape : m.shape = n.shape := (congrArg Node.shape bare :)
  have live : m.orphaned = false :=
    (congrArg Node.orphaned bare).trans ((reached.rooted.2.unlinked hn).2 role)
  have found' : g.available? id = some m := Option.filter_eq_some_iff.2 ⟨hm, lent'⟩
  have holds' : value.Holds m.shape cells := shape ▸ holds
  have start := Situation.ordered_begin reached.ordered.forest
    (.store reads found' role' held holds')
  obtain ⟨ordered, k, there, same, shows⟩ :=
    Forest.carryOut_store start hm role' live held holds' react
  exact ⟨ordered, k, there, same.trans shape, shows⟩

/-- A change leaves the cells that it is said to come to in a canonical node, or it is refused as is
said and leaves all as it was. -/
def Forest.Changes (f : Forest α) (id : NodeId) (change : Call α Unit) :
    Except Fault Sparse → Prop
  | .ok cells => ∃ n g m, f.available? id = some n ∧ n.role = .canonical ∧
      change f = .ok ⟨⟩ g ∧ g.Ordered ∧ g.available? id = some m ∧ m.shape = n.shape ∧
        g.shown id = .ok cells
  | .error fault => ∃ g, change f = .error fault g ∧ f.Reads g

/-- A value that is worked out as the outlook says stays in its node, however listeners react. -/
theorem Reached.replace (reached : Reached allowed (.quiet f)) {c : Forest.Call α Cache}
    {s : Except Fault Sparse} (spec : Forest.Says f.outlook c s (Forest.Stores f.outlook id))
    (react : Reaction α) : f.Changes id (Forest.replace react id c) s := by
  have said := spec f reached.ordered.forest.sound rfl
  cases s with
  | error fault =>
      obtain ⟨g, refused, reads⟩ := said
      exact ⟨g, bind_of_error refused, reads⟩
  | ok cells =>
      obtain ⟨value, g, worked, reads, held, x, seen, isView, holds⟩ := said
      cases found : f.available? id with
      | none =>
          rw [Forest.outlook_of_none found] at seen
          cases seen
      | some n =>
          rw [Forest.outlook_of_some found] at seen
          cases seen
          have role : n.role = .canonical := by
            cases role : n.role with
            | canonical => rfl
            | view link => simp [Forest.sight, role, Role.isView] at isView
          obtain ⟨ordered, m, there, shape, shows⟩ :=
            reached.store reads found role held holds react
          exact ⟨n, _, m, found, role, bind_of_ok worked, ordered, there, shape, shows⟩

end SparseTensor
