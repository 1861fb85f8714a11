/-
# Orphans

The destruction of a node is told down to all views below it, and each of them that hears of it is
cut off.  While this is under way a view below is as it was or cut off already, and every other
node is as it was, but for who holds it (`Situation.Sinking`).  In the end no view below can be as
it was: it would still be registered with its parent, which has lost its registrations.

`destroy_orphans_below` says what becomes of each node, that an orphan refuses every command that
needs its cells in whatever may come, and that the orphans can be destroyed in any order without
anybody noticing.
-/
import SparseTensor.Proofs.Tellings

namespace SparseTensor

variable {α G : Type}

/-! ## What becomes of nodes -/

namespace Node

/-- A node without those who hold it. -/
def unheld (n : Node α) : Node α := { n with holders := 0 }

/-- A view below a node that is destroyed, in the end. -/
def adrift (n : Node α) : Node α :=
  { n with orphaned := true, role := .view none, cache := .stale, registrations := [] }

/-- A node that is destroyed, in the end. -/
def gone (n : Node α) : Node α := { n.buried with holders := n.holders - 1 }

/-- A node that is held by its owner as long as it is lent out. -/
theorem eq_of_unheld {n m : Node α} (hn : n.holders = if n.available = true then 1 else 0)
    (hm : m.holders = if m.available = true then 1 else 0) (same : n.unheld = m.unheld) :
    n = m := by
  have available : n.available = m.available := (congrArg Node.available same :)
  have holders : n.holders = m.holders := by rw [hn, hm, available]
  calc n = { n.unheld with holders := n.holders } := rfl
    _ = { m.unheld with holders := m.holders } := by rw [same, holders]
    _ = m := rfl

end Node

namespace Forest

variable {f g : Forest α}

/-- A node from which the way up leads through another one. -/
def Below (f : Forest α) (j id : NodeId) : Prop := j ≠ id ∧ f.Above j id

/-- Nodes below are younger. -/
theorem Below.lt (sound : f.Sound) {j id : NodeId} (h : f.Below j id) : id < j :=
  Nat.lt_of_le_of_ne (h.2.le sound) h.1.symm

/-- A node below another one is a view, whose parent is the other one or below it. -/
theorem Below.parent {j id : NodeId} (h : f.Below j id) : ∃ n link, f.nodes[j]? = some n ∧
    n.role = .view (some link) ∧ (link.parent = id ∨ f.Below link.parent id) := by
  obtain ⟨other, above⟩ := h
  cases above with
  | here => exact absurd rfl other
  | @up _ _ n link found role above =>
      refine ⟨n, link, found, role, ?_⟩
      by_cases here : link.parent = id
      · exact .inl here
      · exact .inr ⟨here, above⟩

end Forest

/-! ## While a destruction is told -/

namespace Situation

variable {react : Reaction α} {f g : Forest α} {id : NodeId} {n : Node α} {task : Task α}
  {tasks : List (Task α)} {changing : Option NodeId}

/-- Who is registered with a node that is below another one, or is that one, is below it. -/
theorem Whole.below (h : (quiet f).Whole) {p child : NodeId} {m : Node α} {token : Token}
    (above : f.Above p id) (found : f.nodes[p]? = some m)
    (hook : ⟨token, .view child⟩ ∈ m.registrations) : f.Below child id := by
  obtain ⟨⟨younger, -⟩, v, hv, role⟩ := h.child found hook
  have older := above.le h.ordered.forest.sound
  exact ⟨Nat.ne_of_gt (Nat.lt_of_le_of_lt older younger), .up hv role above⟩

/-- What is left of a forest while the destruction of a node is told: views below the node are cut
off or as they were, and all other nodes are as they were. -/
structure Sinking (f : Forest α) (id : NodeId) (n : Node α) (s : Situation α) : Prop where
  size : s.forest.nodes.size = f.nodes.size
  node : ∀ {j : NodeId} {m : Node α}, (f.bury id n).1.nodes[j]? = some m →
    ∃ k, s.forest.nodes[j]? = some k ∧
      (k.unheld = m.unheld ∨ f.Below j id ∧ k.unheld = m.cutOff.unheld)
  /-- Nobody is told but the views below. -/
  pending : ∀ {source : NodeId} {token : Token} {child : NodeId} {event : Event},
    .deliver source ⟨token, .view child⟩ event ∈ s.tasks → f.Below child id

/-- A step of a telling goes on to cut off views below. -/
theorem Sinking.step (h : Sinking f id n ⟨g, task :: tasks, changing⟩) (whole : (quiet f).Whole)
    (found : f.nodes[id]? = some n) (silent : Silent react)
    (telling : Telling .destroyed ⟨g, task :: tasks, changing⟩) :
    Sinking f id n ⟨(g.step react task).1, (g.step react task).2 ++ tasks, changing⟩ := by
  have tells := telling.tells silent
  have sound := whole.ordered.forest.sound
  have later : ∀ {source token child event}, .deliver source ⟨token, .view child⟩ event ∈ tasks →
      f.Below child id := fun hmem => h.pending (List.mem_cons_of_mem _ hmem)
  generalize (g.step react task).1 = g' at *
  generalize (g.step react task).2 = new at *
  cases tells with
  | hear => exact ⟨h.size, h.node, later⟩
  | @release place =>
      refine ⟨(Forest.size_update ..).trans h.size, fun {j m} hm => ?_, later⟩
      obtain ⟨k, hk, same⟩ := h.node hm
      obtain ⟨l, hl, ⟨-, rfl⟩ | ⟨-, rfl⟩⟩ := Forest.exists_update hk place
        fun n => { n with holders := n.holders - 1 }
      · exact ⟨_, hl, same⟩
      · exact ⟨_, hl, same⟩
  | @pass source child token v _ hv role _ nodes =>
      have below := h.pending List.mem_cons_self
      obtain ⟨m, link, hm, -⟩ := below.parent
      have kept := (Forest.getElem?_bury_of_lt sound found (below.lt sound)).trans hm
      -- the view has a link, so it is as it was
      have same : v.unheld = m.unheld := by
        obtain ⟨k, hk, same | ⟨-, cut⟩⟩ := h.node kept
        · obtain rfl := Option.some.inj (hv.symm.trans hk)
          exact same
        · obtain rfl := Option.some.inj (hv.symm.trans hk)
          have unlinked : v.role = m.role.unlinked := (congrArg Node.role cut :)
          cases before : m.role <;> rw [before, role] at unlinked <;> cases unlinked
      have size : g'.nodes.size = g.nodes.size := by rw [nodes, Forest.size_update]
      refine ⟨size.trans h.size, fun {j p} hp => ?_, fun {t other c e} hmem => ?_⟩
      · obtain ⟨k, hk, fate⟩ := h.node hp
        obtain ⟨l, hl, ⟨rfl, rfl⟩ | ⟨-, rfl⟩⟩ := Forest.exists_update hk child Event.destroyed.mark
        · obtain rfl := Option.some.inj (hv.symm.trans hk)
          obtain rfl := Option.some.inj (kept.symm.trans hp)
          refine ⟨_, nodes ▸ hl, .inr ⟨below, ?_⟩⟩
          exact (congrArg (fun n : Node α => n.cutOff.unheld) same :)
        · exact ⟨_, nodes ▸ hl, fate⟩
      · rw [List.append_assoc] at hmem
        rcases List.mem_append.1 hmem with hmem | hmem
        · obtain ⟨rfl, -, hook⟩ := exists_of_deliver_mem hmem
          have registrations : v.registrations = m.registrations :=
            (congrArg Node.registrations same :)
          exact whole.below below.2 hm (registrations ▸ hook)
        · rcases List.mem_cons.1 hmem with wrong | hmem
          · cases wrong
          · exact later hmem

/-- What is left of a forest whenever the destruction of a node is told. -/
theorem Sinking.leads {s t : Situation α} (h : Sinking f id n s) (whole : (quiet f).Whole)
    (found : f.nodes[id]? = some n) (silent : Silent react) (telling : Telling .destroyed s)
    (leads : s.Leads react t) : Sinking f id n t := by
  induction leads with
  | refl => exact h
  | step leads ih => exact ih.step whole found silent (telling.leads silent leads).1

/-- Nobody is cut off before anybody is told. -/
theorem sinking_burying (whole : (quiet f).Whole) (found : f.nodes[id]? = some n) :
    Sinking f id n (burying f id n) where
  size := f.size_bury id n
  node hm := ⟨_, hm, .inl rfl⟩
  pending hmem := by
    obtain ⟨rfl, -, hook⟩ := exists_of_deliver_mem_release hmem
    exact whole.below .here found hook

/-- The node that is destroyed is left without registrations. -/
theorem Sinking.own (h : Sinking f id n (quiet g)) (sound : f.Sound)
    (found : f.nodes[id]? = some n) :
    ∃ k, g.nodes[id]? = some k ∧ k.unheld = n.buried.unheld := by
  obtain ⟨k, hk, same | ⟨⟨wrong, -⟩, -⟩⟩ := h.node (Forest.getElem?_bury_self sound found)
  · exact ⟨k, hk, same⟩
  · exact absurd rfl wrong

/-- In the end every view below is cut off: it is registered nowhere. -/
theorem Sinking.cut (h : Sinking f id n (quiet g)) (whole : (quiet f).Whole)
    (found : f.nodes[id]? = some n) (after : (quiet g).Whole) {j : NodeId} {m : Node α}
    (below : f.Below j id) (hm : f.nodes[j]? = some m) :
    ∃ k, g.nodes[j]? = some k ∧ k.unheld = m.adrift.unheld := by
  have sound := whole.ordered.forest.sound
  induction j using Nat.strongRecOn generalizing m with
  | ind j ih =>
      obtain ⟨_, link, hm', role, parent⟩ := below.parent
      obtain rfl := Option.some.inj (hm.symm.trans hm')
      have kept := (Forest.getElem?_bury_of_lt sound found (below.lt sound)).trans hm
      obtain ⟨k, hk, same | ⟨-, cut⟩⟩ := h.node kept
      -- a view that is as it was is registered with its parent, which has lost its registrations
      · have linked : k.role = .view (some link) := (congrArg Node.role same :).trans role
        obtain ⟨p, there, -, hook⟩ := after.linked.exists_parent hk linked
        obtain ⟨hp, -⟩ := Option.filter_eq_some_iff.1 there
        have none : p.registrations = [] := by
          rcases parent with here | above
          · obtain ⟨l, hl, same⟩ := h.own sound found
            obtain rfl := Option.some.inj (hl.symm.trans (here ▸ hp))
            exact (congrArg Node.registrations same :)
          · have older := (sound.linked hm role).1
            obtain ⟨q, link', hq, -⟩ := above.parent
            obtain ⟨l, hl, cut⟩ := ih link.parent older above hq
            obtain rfl := Option.some.inj (hp.symm.trans hl)
            exact (congrArg Node.registrations cut :)
        rw [none] at hook
        cases hook
      · refine ⟨k, hk, cut.trans ?_⟩
        simp [Node.cutOff, Node.adrift, Node.unheld, role, Role.unlinked]

/-- Between two commands every node is held by its owner as long as it is lent out. -/
theorem Held.holders_eq (h : (quiet f).Held) (found : f.nodes[id]? = some n) :
    n.holders = if n.available = true then 1 else 0 := by
  have holders := h.holders found
  simpa [quiet] using holders

/-- The registration of a view is the only one that its parent loses. -/
theorem Whole.exists_split (h : (quiet f).Whole) (found : f.nodes[id]? = some n) {link : Link}
    (role : n.role = .view (some link)) : ∃ p before after, f.nodes[link.parent]? = some p ∧
      p.registrations = before ++ ⟨link.token, .view id⟩ :: after ∧
        (p.unsubscribe link.token).registrations = before ++ after := by
  obtain ⟨p, parent, -, hook⟩ := h.linked.exists_parent found role
  obtain ⟨hp, -⟩ := Option.filter_eq_some_iff.1 parent
  obtain ⟨before, after, split⟩ := List.append_of_mem hook
  refine ⟨p, before, after, hp, split, ?_⟩
  have tokens := (h.linked.tokens hp).1
  rw [split] at tokens
  obtain ⟨-, later, across⟩ := List.pairwise_append.1 tokens
  have first : ∀ r ∈ before, r.token ≠ link.token := fun r hr =>
    Nat.ne_of_lt (across r hr _ List.mem_cons_self)
  have last : ∀ r ∈ after, r.token ≠ link.token := fun r hr =>
    Nat.ne_of_gt ((List.pairwise_cons.1 later).1 r hr)
  show p.registrations.filter _ = _
  rw [split, List.filter_append, List.filter_cons_of_neg (by simp)]
  congr 1
  · exact List.filter_eq_self.2 fun r hr => decide_eq_true (first r hr)
  · exact List.filter_eq_self.2 fun r hr => decide_eq_true (last r hr)

end Situation

/-! ## What a destruction leaves -/

/-- A node without its registrations. -/
def Node.unheard (n : Node α) : Node α := { n with registrations := [] }

namespace Forest

variable {f g : Forest α}

/-- Who holds a node is not a matter of its registrations. -/
theorem isAlive_of_unheard {i : NodeId}
    (same : g.nodes[i]?.map Node.unheard = f.nodes[i]?.map Node.unheard) :
    g.isAlive i = f.isAlive i := by
  have counts : ∀ o : Option (Node α), (o.any fun n => decide (0 < n.holders)) =
      (o.map Node.unheard).any fun n => decide (0 < n.holders) := by
    intro o
    cases o <;> rfl
  unfold isAlive
  rw [counts, same, ← counts]

/-- Who is lent out is not a matter of registrations. -/
theorem available?_of_unheard {i : NodeId}
    (same : g.nodes[i]?.map Node.unheard = f.nodes[i]?.map Node.unheard) :
    (g.available? i).map Node.unheard = (f.available? i).map Node.unheard := by
  have swap : ∀ o : Option (Node α), (o.filter fun n => n.available).map Node.unheard =
      (o.map Node.unheard).filter fun n => n.available := by
    intro o
    rw [Option.filter_map]
    rfl
  unfold available?
  rw [swap, swap, same]

/-- What is shown is a matter of the nodes on the way up, and not of their registrations. -/
theorem shown_eq_of_unheard (sound : f.Sound) {j : NodeId} (same : ∀ i, f.Above j i →
    g.nodes[i]?.map Node.unheard = f.nodes[i]?.map Node.unheard) : g.shown j = f.shown j := by
  induction j using Nat.strongRecOn with
  | ind j ih =>
      have here := same j .here
      cases found : f.nodes[j]? with
      | none =>
          rw [found, Option.map_none, Option.map_eq_none_iff] at here
          rw [shown.eq_def g, shown.eq_def f, found, here]
      | some n =>
          rw [found, Option.map_some, Option.map_eq_some_iff] at here
          obtain ⟨m, hm, alike⟩ := here
          have orphaned : m.orphaned = n.orphaned := (congrArg Node.orphaned alike :)
          have cache : m.cache = n.cache := (congrArg Node.cache alike :)
          have shape : m.shape = n.shape := (congrArg Node.shape alike :)
          have role : m.role = n.role := (congrArg Node.role alike :)
          rw [shown.eq_def g, shown.eq_def f, found, hm]
          simp only [orphaned, Node.isFresh, Node.cells, cache, shape, role]
          cases linked : n.role with
          | canonical => rfl
          | view link? =>
              cases link? with
              | none => rfl
              | some link =>
                  have older := (sound.linked found linked).1
                  have up : ∀ i, f.Above link.parent i → f.Above j i := fun i =>
                    .up found linked
                  have alive := isAlive_of_unheard (same link.parent (up _ .here))
                  have shows := ih link.parent older fun i above => same i (up i above)
                  simp only [alive, shows]
                  rfl

/-- What is seen of a node is a matter of the nodes on the way up, and not of their
registrations. -/
theorem outlook_eq_of_unheard (sound : f.Sound) {j : NodeId} (same : ∀ i, f.Above j i →
    g.nodes[i]?.map Node.unheard = f.nodes[i]?.map Node.unheard) : g.outlook j = f.outlook j := by
  have shows := shown_eq_of_unheard sound same
  have kept := available?_of_unheard (same j .here)
  cases found : f.available? j with
  | none =>
      rw [found, Option.map_none, Option.map_eq_none_iff] at kept
      rw [outlook_of_none found, outlook_of_none kept]
  | some n =>
      rw [found, Option.map_some, Option.map_eq_some_iff] at kept
      obtain ⟨m, hm, alike⟩ := kept
      have shape : m.shape = n.shape := (congrArg Node.shape alike :)
      have role : m.role = n.role := (congrArg Node.role alike :)
      have orphaned : m.orphaned = n.orphaned := (congrArg Node.orphaned alike :)
      rw [outlook_of_some found, outlook_of_some hm, sight, sight, shape, role, orphaned, shows]

/-- What the destruction of a node does to all nodes. -/
structure Loses (f g : Forest α) (id : NodeId) (n : Node α) : Prop where
  size : g.nodes.size = f.nodes.size
  own : g.nodes[id]? = some n.gone
  /-- Views below are orphaned, and they were none before. -/
  below : ∀ j m, f.Below j id → f.nodes[j]? = some m →
    m.available = true ∧ m.orphaned = false ∧ g.nodes[j]? = some m.adrift
  /-- Nobody else is orphaned. -/
  orphaned : ∀ j k m, f.nodes[j]? = some k → g.nodes[j]? = some m →
    (m.orphaned = true ↔ k.orphaned = true ∨ f.Below j id)
  /-- The parent loses the registration of the node. -/
  parent : ∀ link, n.role = .view (some link) → ∃ p before after,
    f.nodes[link.parent]? = some p ∧ p.registrations = before ++ ⟨link.token, .view id⟩ :: after ∧
      g.nodes[link.parent]? = some { p with registrations := before ++ after }
  others : ∀ j, ¬ f.Above j id → (∀ link, n.role = .view (some link) → j ≠ link.parent) →
    g.nodes[j]? = f.nodes[j]?
  /-- Of all other nodes everything is seen as before. -/
  outlook : ∀ j, ¬ f.Above j id → g.outlook j = f.outlook j

end Forest

namespace Situation

variable {f g : Forest α} {id : NodeId} {n : Node α}

/-- A node that is not below is in the end what it became at once. -/
theorem Sinking.kept (h : Sinking f id n (quiet g)) (sound : f.Sound) (held : (quiet f).Held)
    (after : (quiet g).Held) (found : f.nodes[id]? = some n) {j : NodeId} {m : Node α}
    (aside : ¬ f.Above j id) (hm : (f.bury id n).1.nodes[j]? = some m) :
    g.nodes[j]? = some m := by
  obtain ⟨k, hk, same | ⟨⟨-, wrong⟩, -⟩⟩ := h.node hm
  · have holders : m.holders = if m.available = true then 1 else 0 := by
      obtain ⟨rfl, -⟩ | ⟨-, p, hp, ⟨rfl, -⟩ | ⟨-, -, rfl⟩⟩ := bury_cases sound found hm
      · exact absurd .here aside
      · exact held.holders_eq hp
      · exact (held.holders_eq hp :)
    exact hk.trans (congrArg some (Node.eq_of_unheld (after.holders_eq hk) holders same))
  · exact absurd wrong aside

section

variable (h : Sinking f id n (quiet g)) (whole : (quiet f).Whole) (after : (quiet g).Whole)
  (found : f.nodes[id]? = some n)

include h whole after found

/-- The parent of the node that is destroyed loses the registration of the node. -/
theorem Sinking.parent {link : Link} (role : n.role = .view (some link)) :
    ∃ p before after, f.nodes[link.parent]? = some p ∧
      p.registrations = before ++ ⟨link.token, .view id⟩ :: after ∧
        g.nodes[link.parent]? = some { p with registrations := before ++ after } := by
  have sound := whole.ordered.forest.sound
  have older := (sound.linked found role).1
  obtain ⟨p, before, behind, hp, split, left⟩ := whole.exists_split found role
  refine ⟨p, before, behind, hp, split, ?_⟩
  rw [← left]
  refine h.kept sound whole.held after.held found
    (fun above => Nat.not_lt.2 (above.le sound) older) ?_
  obtain ⟨m, hm, -⟩ := (f.succeeds_bury id n).forth hp
  obtain ⟨same, -⟩ | ⟨-, q, hq, fate⟩ := bury_cases sound found hm
  · exact absurd same (Nat.ne_of_lt older)
  · obtain rfl := Option.some.inj (hp.symm.trans hq)
    rcases fate with ⟨rfl, dead⟩ | ⟨token, role', rfl⟩
    · obtain ⟨-, present, -⟩ := whole.linked.hooked hp
        (split ▸ List.mem_append_right _ List.mem_cons_self)
      exact absurd (whole.held.isAlive hp present) (Bool.eq_false_iff.1 (dead link.token role))
    · obtain rfl : link.token = token :=
        congrArg Link.token (Option.some.inj (Role.view.inj (role.symm.trans role')))
      exact hm

/-- A node that is neither below the one that is destroyed nor its parent stays as it is. -/
theorem Sinking.other {j : NodeId} (aside : ¬ f.Above j id)
    (elsewhere : ∀ link, n.role = .view (some link) → j ≠ link.parent) :
    g.nodes[j]? = f.nodes[j]? := by
  cases hj : f.nodes[j]? with
  | none =>
      rw [Array.getElem?_eq_none_iff] at hj ⊢
      exact h.size.trans_le hj
  | some p =>
      have sound := whole.ordered.forest.sound
      obtain ⟨m, hm, -⟩ := (f.succeeds_bury id n).forth hj
      obtain ⟨rfl, -⟩ | ⟨-, q, hq, fate⟩ := bury_cases sound found hm
      · exact absurd .here aside
      · obtain rfl := Option.some.inj (hj.symm.trans hq)
        rcases fate with ⟨rfl, -⟩ | ⟨token, role, rfl⟩
        · exact h.kept sound whole.held after.held found aside hm
        · exact absurd rfl (elsewhere _ role)

/-- Nodes that are not below lose a registration at most. -/
theorem Sinking.unheard {j : NodeId} (aside : ¬ f.Above j id) :
    g.nodes[j]?.map Node.unheard = f.nodes[j]?.map Node.unheard := by
  by_cases there : ∃ link, n.role = .view (some link) ∧ j = link.parent
  · obtain ⟨link, role, rfl⟩ := there
    obtain ⟨p, _, _, hp, -, hq⟩ := h.parent whole after found role
    rw [hp, hq]
    rfl
  · have same := h.other whole after found aside fun link role same => there ⟨link, role, same⟩
    rw [same]

/-- The node that is destroyed is gone. -/
theorem Sinking.gone (lent : n.available = true) : g.nodes[id]? = some n.gone := by
  obtain ⟨k, hk, same⟩ := h.own whole.ordered.forest.sound found
  have holders : n.gone.holders = if n.gone.available = true then 1 else 0 := by
    have held := whole.held.holders_eq found
    simp [Node.gone, Node.buried, held, lent]
  exact hk.trans (congrArg some (Node.eq_of_unheld (after.held.holders_eq hk) holders same))

/-- A view below is an orphan, and was none before. -/
theorem Sinking.adrift {j : NodeId} {m : Node α} (below : f.Below j id)
    (hm : f.nodes[j]? = some m) :
    m.available = true ∧ m.orphaned = false ∧ g.nodes[j]? = some m.adrift := by
  obtain ⟨_, link, hm', role, -⟩ := below.parent
  obtain rfl := Option.some.inj (hm.symm.trans hm')
  obtain ⟨present, live, -⟩ := whole.linked.linked hm role
  obtain ⟨k, hk, same⟩ := h.cut whole found after below hm
  have holders : m.adrift.holders = if m.adrift.available = true then 1 else 0 :=
    (whole.held.holders_eq hm :)
  refine ⟨present, live, ?_⟩
  exact hk.trans (congrArg some (Node.eq_of_unheld (after.held.holders_eq hk) holders same))

/-- The orphans are those that were orphans, and the views below. -/
theorem Sinking.orphaned (lent : n.available = true) {j : NodeId} {k m : Node α}
    (hk : f.nodes[j]? = some k) (hm : g.nodes[j]? = some m) :
    m.orphaned = true ↔ k.orphaned = true ∨ f.Below j id := by
  by_cases above : f.Above j id
  · by_cases here : j = id
    · subst here
      obtain rfl := Option.some.inj (found.symm.trans hk)
      obtain rfl := Option.some.inj ((h.gone whole after found lent).symm.trans hm)
      simp [Node.gone, Node.buried, Forest.Below]
    · obtain ⟨-, -, hm'⟩ := h.adrift whole after found ⟨here, above⟩ hk
      obtain rfl := Option.some.inj (hm'.symm.trans hm)
      simp [Node.adrift, Forest.Below, here, above]
  · have same := h.unheard whole after found above
    rw [hk, hm] at same
    have orphaned : m.orphaned = k.orphaned := (congrArg Node.orphaned (Option.some.inj same) :)
    simp [orphaned, Forest.Below, above]

/-- What the destruction of a node has done when everybody has been told. -/
theorem Sinking.loses (lent : n.available = true) : f.Loses g id n where
  size := h.size
  own := h.gone whole after found lent
  below _ _ := h.adrift whole after found
  orphaned _ _ _ := h.orphaned whole after found lent
  parent _ := h.parent whole after found
  others _ := h.other whole after found
  outlook _ aside := Forest.outlook_eq_of_unheard whole.ordered.forest.sound fun _ up =>
    h.unheard whole after found fun above => aside (up.trans above)

end

end Situation

/-! ## Refusals of orphans -/

/-- The questions that need the cells of a node, alone or together with another one. -/
inductive Question.Needs (o : Outlook) (id : NodeId) : Question → Prop
  | dense : Needs o id (.dense id)
  | sparse : Needs o id (.sparse id)
  | coordinates : Needs o id (.coordinates id)
  | sum : Needs o id (.sum id)
  | sparsity : Needs o id (.sparsity id)
  | isActive (coords : List UInt32) : Needs o id (.isActive id coords)
  | overlap {other : NodeId} {y : Sight} : o other = .ok y → Needs o id (.overlap id other)
  | overlapWith {other : NodeId} {y : Sight} : o other = .ok y → Needs o id (.overlap other id)
  | archive : Needs o id (.archive id)
  | save (format : Format) (settings : Settings) (sink : Sink) :
    Needs o id (.save id format settings sink)

/-- The commands that need the cells of a node. -/
inductive Command.Needs (o : Outlook) (id : NodeId) : Command α G → Prop
  | ask {question : Question} : question.Needs o id → Needs o id (.ask question)
  | reshape (dims : List UInt32) : Needs o id (.reshape id dims)
  | view : Needs o id (.view id)

/-- What is seen of an orphan. -/
structure Sight.Orphan (x : Sight) : Prop where
  orphaned : x.orphaned = true
  cells : x.cells = .error .orphaned

/-- Questions that need an orphan are answered by nothing but that. -/
theorem Question.said_of_needs {o : Outlook} {id : NodeId} {x : Sight} (seen : o id = .ok x)
    (orphan : x.Orphan) {question : Question} (needs : question.Needs o id) :
    (question.said o : Except Fault (Answer G)) = .error .orphaned := by
  obtain ⟨shape, isView, orphaned, cells⟩ := x
  obtain ⟨rfl, rfl⟩ : orphaned = true ∧ cells = .error .orphaned := ⟨orphan.1, orphan.2⟩
  cases needs with
  | overlap seen' =>
      simp only [said, seen, seen']
      rfl
  | @overlapWith other y seen' =>
      obtain ⟨_, _, orphaned', _⟩ := y
      simp only [said, seen, seen']
      cases orphaned' <;> rfl
  | _ =>
      simp only [said, seen]
      rfl

/-- Commands that need an orphan come to nothing but that. -/
theorem Command.said_of_needs [RandomSource G] {o : Outlook} {id next : NodeId} {x : Sight}
    (seen : o id = .ok x) (orphan : x.Orphan) {command : Command α G} (needs : command.Needs o id) :
    command.said o next = .error .orphaned := by
  cases needs with
  | ask needs =>
      simp only [said, Question.said_of_needs seen orphan needs]
      rfl
  | reshape _ | view =>
      obtain ⟨shape, isView, orphaned, cells⟩ := x
      obtain rfl : orphaned = true := orphan.orphaned
      simp only [said, seen]
      rfl

/-- Commands that need an orphan are refused, whoever listens. -/
theorem Forest.call_of_needs [RandomSource G] [LawfulRandomSource G] {f : Forest α}
    (sound : f.Sound) {id : NodeId} {n : Node α} (found : f.available? id = some n)
    (orphaned : n.orphaned = true) {command : Command α G} (needs : command.Needs f.outlook id)
    (react : Reaction α) : ∃ g, command.call react f = .error .orphaned g ∧ f.Reads g := by
  have orphan : (f.sight id n).Orphan :=
    ⟨orphaned, shown_of_orphaned (Option.filter_eq_some_iff.1 found).1 orphaned⟩
  have opens := opens_prelude sound command
  unfold OpensAsSaid at opens
  rw [Command.said_of_needs (outlook_of_some found) orphan needs] at opens
  obtain ⟨g, failed, reads⟩ := opens
  exact ⟨g, by rw [command.call_eq, bind_of_error failed], reads⟩

/-! ## Destroying what nobody listens to -/

namespace Forest

variable {f : Forest α} {id : NodeId} {n : Node α}

/-- Two changes of one node are one change. -/
theorem update_update (f : Forest α) (id : NodeId) (g h : Node α → Node α) :
    (f.update id g).update id h = f.update id (h ∘ g) := by
  unfold update
  congr 1
  apply Array.ext_getElem?
  intro j
  rw [Array.getElem?_modify, Array.getElem?_modify, Array.getElem?_modify]
  split
  · rw [Option.map_map]
  · rfl

/-- Destroying a node is telling of it. -/
theorem destroy_eq (found : f.available? id = some n) (react : Reaction α) :
    destroy react id f = .ok ⟨⟩ ((f.bury id n).1.run react (f.bury id n).2) :=
  bind_of_ok (lent_of_some found)

/-- A node that has neither a link nor registrations. -/
def Loose (f : Forest α) (id : NodeId) : Prop :=
  ∃ n, f.available? id = some n ∧ n.role.link? = none ∧ n.registrations = []

/-- Destroying a loose node is noticed by nobody. -/
theorem destroy_of_loose (h : f.Loose id) (react : Reaction α) :
    destroy react id f = .ok ⟨⟩ (f.update id Node.gone) := by
  obtain ⟨n, found, unlinked, none⟩ := h
  have buried : f.bury id n = (f.update id Node.buried, [.release id]) := by
    simp only [bury, unlinked, none]
    rfl
  rw [destroy_eq found, buried, run]
  show EStateM.Result.ok _ (run react ((f.update id Node.buried).update id _) []) = _
  rw [run, update_update]
  rfl

/-- Loose nodes can be destroyed in any order. -/
theorem destroy_all {ids : List NodeId} (nodup : ids.Nodup) (loose : ∀ id ∈ ids, f.Loose id)
    (react : Reaction α) : (forM ids (destroy react) : Call α PUnit) f =
      .ok ⟨⟩ (ids.foldl (fun f id => f.update id Node.gone) f) := by
  induction ids generalizing f with
  | nil => rfl
  | cons id rest ih =>
      obtain ⟨here, later⟩ := List.forall_mem_cons.1 loose
      obtain ⟨apart, nodup⟩ := List.nodup_cons.1 nodup
      rw [List.forM_cons, bind_of_ok (destroy_of_loose here react), List.foldl_cons]
      refine ih nodup fun j hj => ?_
      obtain ⟨n, found, rest⟩ := later j hj
      have other : id ≠ j := by
        rintro rfl
        exact apart hj
      refine ⟨n, ?_, rest⟩
      unfold available?
      rw [getElem?_update, if_neg other]
      exact found

/-- What is left of each node when some were destroyed. -/
theorem getElem?_destroy_all {ids : List NodeId} (nodup : ids.Nodup) (j : NodeId) :
    (ids.foldl (fun f id => f.update id Node.gone) f).nodes[j]? =
      if j ∈ ids then f.nodes[j]?.map Node.gone else f.nodes[j]? := by
  induction ids generalizing f with
  | nil => simp
  | cons id rest ih =>
      obtain ⟨apart, nodup⟩ := List.nodup_cons.1 nodup
      rw [List.foldl_cons, ih nodup, getElem?_update]
      by_cases here : id = j
      · subst here
        simp [apart]
      · simp [here, Ne.symm here]

/-- The nodes can be destroyed one after another, and nobody notices. -/
def Disposable (f : Forest α) (ids : List NodeId) : Prop :=
  ∀ react : Reaction α, ∃ g, (forM ids (destroy react) : Call α PUnit) f = .ok ⟨⟩ g ∧
    g.trace = f.trace ∧ (∀ j ∈ ids, g.available? j = none) ∧
      ∀ j ∉ ids, g.nodes[j]? = f.nodes[j]? ∧ g.outlook j = f.outlook j

/-- Loose nodes can be destroyed, and nobody notices: no view is linked to them. -/
theorem disposable_of_loose (whole : (Situation.quiet f).Whole) {ids : List NodeId}
    (nodup : ids.Nodup) (loose : ∀ id ∈ ids, f.Loose id) : f.Disposable ids := by
  intro react
  have nodes := fun j => getElem?_destroy_all (f := f) nodup j
  have trace : ∀ (ids : List NodeId) (f : Forest α),
      (ids.foldl (fun f id => f.update id Node.gone) f).trace = f.trace := by
    intro ids
    induction ids with
    | nil => exact fun _ => rfl
    | cons id rest ih => exact fun f => ih (f.update id Node.gone)
  have apart : ∀ {j i}, f.Above j i → j ∉ ids → i ∉ ids := by
    intro j i above
    induction above with
    | here => exact id
    | @up j top n link found role _ ih =>
        refine fun _ => ih fun hmem => ?_
        obtain ⟨p, hp, -, none⟩ := loose _ hmem
        obtain ⟨q, hq, -, hook⟩ := whole.linked.exists_parent found role
        obtain rfl := Option.some.inj (hq.symm.trans hp)
        rw [none] at hook
        cases hook
  refine ⟨_, destroy_all nodup loose react, trace ids f, fun j hj => ?_, fun j hj => ⟨?_, ?_⟩⟩
  · unfold available?
    rw [nodes, if_pos hj]
    cases f.nodes[j]? <;> rfl
  · rw [nodes, if_neg hj]
  · have sound : f.Sound := whole.ordered.forest.sound
    refine outlook_eq_of_unheard sound fun i above => ?_
    rw [nodes, if_neg (apart above hj)]

/-- From now on the node is an orphan, as long as it is not destroyed, and all commands that need
its cells are refused. -/
def Stranded (G : Type) [RandomSource G] (f : Forest α) (id : NodeId) : Prop :=
  ∀ (news : List (Occurrence α)) (s : Situation α),
    Course (fun _ (_ : Move α G) => True) (.quiet f) news s →
      ∀ n, s.forest.available? id = some n → n.orphaned = true ∧
        ∀ command : Command α G, command.Needs s.forest.outlook id → ∀ react : Reaction α,
          ∃ g, command.call react s.forest = .error .orphaned g ∧ s.forest.Reads g

end Forest

section

variable [RandomSource G] {allowed : Situation α → Move α G → Prop}

/-- What is reached by moves that are allowed is reached by moves. -/
theorem Reached.anyhow {s : Situation α} (h : Reached allowed s) :
    Reached (fun _ (_ : Move α G) => True) s :=
  h.mono fun _ _ _ => trivial

/-- What a situation leads to is reached. -/
theorem Reached.leads {react : Reaction α} {s t : Situation α}
    (h : Reached (fun _ (_ : Move α G) => True) s) (leads : s.Leads react t) :
    Reached (fun _ (_ : Move α G) => True) t := by
  induction leads with
  | refl => exact h
  | step _ ih => exact ih.next trivial (.step react)

variable [LawfulRandomSource G]

/-- Along every course an orphan stays one. -/
theorem Course.orphaned {s t : Situation α} {news : List (Occurrence α)}
    (h : Course allowed s news t) (first : Reached allowed s) {id : NodeId}
    (orphan : ∃ n : Node α, s.forest.nodes[id]? = some n ∧ n.orphaned = true) :
    ∃ n : Node α, t.forest.nodes[id]? = some n ∧ n.orphaned = true := by
  induction h with
  | stay => exact orphan
  | next before _ step ih =>
      have reached := before.reached first
      obtain ⟨held, rooted⟩ := reached.rooted
      exact (rooted.passages_next reached.ordered held reached.orderly step).2.orphaned ih

/-- An orphan is one for good. -/
theorem Reached.stranded {g : Forest α} (h : Reached allowed (.quiet g)) {id : NodeId}
    (orphan : ∃ n : Node α, g.nodes[id]? = some n ∧ n.orphaned = true) : g.Stranded G id := by
  intro news s course n found
  obtain ⟨m, hm, orphaned⟩ := course.orphaned h.anyhow orphan
  obtain rfl := Option.some.inj (hm.symm.trans (Option.filter_eq_some_iff.1 found).1)
  have sound := (course.reached h.anyhow).ordered.forest.sound
  exact ⟨orphaned, fun command needs react => Forest.call_of_needs sound found orphaned needs react⟩

/-- If all views are registered and listeners do nothing, destroying a node orphans the views below
it and nobody else: what becomes of every node is said by `Forest.Loses`.  These views are orphans
for good, and can be destroyed in any order without anybody noticing. -/
theorem destroy_orphans_below {f : Forest α} (h : Reached allowed (.quiet f))
    (inPlace : f.InPlace) {react : Reaction α} (silent : Silent react) {id : NodeId} {n : Node α}
    (found : f.available? id = some n) :
    ∃ g, Forest.destroy react id f = .ok ⟨⟩ g ∧ f.Loses g id n ∧
      (∀ j, f.Below j id → g.Stranded G j) ∧
        ∀ ids : List NodeId, ids.Nodup → (∀ j ∈ ids, f.Below j id) → g.Disposable ids := by
  have whole := h.whole inPlace
  have sound := whole.ordered.forest.sound
  obtain ⟨present, lent⟩ := Option.filter_eq_some_iff.1 found
  have step : Next (.call (.destroy id : Command α G)) (.quiet f) (.burying f id n) := by
    have begun : (.destroy id : Command α G).prelude f = .ok (.done, .bury id) f :=
      bind_of_ok (Forest.lent_of_some found)
    have begin : f.begin (.bury id) = .burying f id n := by simp only [Forest.begin, found]
    exact begin ▸ .call _ begun
  have started := h.anyhow.next trivial step
  have tactful : Move.Tactful (.quiet f) (.call (.destroy id : Command α G)) := by
    intro _ _ touch
    cases touch
  obtain ⟨telling, -⟩ :=
    Situation.telling_burying whole (whole.next tactful step) started.orderly present
  have leads : (Situation.burying f id n).Leads react
      (.quiet ((f.bury id n).1.run react (f.bury id n).2)) := Situation.Leads.refl.complete
  have after := (telling.leads silent leads).1.whole
  have sinking := (Situation.sinking_burying whole present).leads whole present silent telling leads
  have loses := sinking.loses whole after present lent
  refine ⟨_, Forest.destroy_eq found react, loses, fun j below => ?_, fun ids nodup below => ?_⟩
  · obtain ⟨m, _, hm, -⟩ := below.parent
    obtain ⟨-, -, hk⟩ := loses.below j m below hm
    exact (started.leads leads).stranded ⟨_, hk, rfl⟩
  · refine Forest.disposable_of_loose after nodup fun j hj => ?_
    obtain ⟨m, _, hm, -⟩ := (below j hj).parent
    obtain ⟨lent, -, hk⟩ := loses.below j m (below j hj) hm
    exact ⟨_, Option.filter_eq_some_iff.2 ⟨hk, lent⟩, rfl, rfl⟩

end

/-- The view of a view is orphaned with the destruction of its parent, and can be destroyed then. -/
theorem destroy_orphans_view_of_view :
    ∃ f : Forest Nat, Reached (fun s (move : Move Nat Generator) => move.Tactful s) (.quiet f) ∧
      ∃ g, Forest.destroy (fun _ _ _ => []) 1 f = .ok ⟨⟩ g ∧
        (∃ m, g.nodes[2]? = some m ∧ m.orphaned = true ∧ m.role = .view none ∧ m.cache = .stale) ∧
          g.outlook 0 = f.outlook 0 ∧ g.Stranded Generator 2 ∧ g.Disposable [2] := by
  let four : Shape := ⟨[4], by decide, by simp, by decide⟩
  let f : Forest Nat :=
    ⟨#[{ (Node.canonical four : Node Nat) with nextToken := 1, registrations := [⟨0, .view 1⟩] },
        { (Node.view four ⟨0, 0⟩ : Node Nat) with nextToken := 1, registrations := [⟨0, .view 2⟩] },
        (Node.view four ⟨1, 0⟩ : Node Nat)], [], []⟩
  have created : Reached (α := Nat) (G := Generator) (fun s move => move.Tactful s) _ :=
    Reached.start.next (by rintro _ _ ⟨⟩) (.call (.create [4]) rfl)
  have viewed := created.next (by rintro _ _ ⟨⟩) (.call (.view 0) rfl)
  have again := viewed.next (by rintro _ _ ⟨⟩) (.call (.view 1) rfl)
  have reached : Reached (G := Generator) (fun s move => move.Tactful s) (.quiet f) :=
    again.next (by trivial) .forget
  have below : f.Below 2 1 := ⟨by decide, .up rfl rfl .here⟩
  have aside : ¬ f.Above 0 1 := fun above => by
    cases above with
    | up found role _ =>
        cases found
        cases role
  have silent : Silent (α := Nat) fun _ _ _ => [] := fun _ _ _ => rfl
  have found : f.available? 1 = some _ := rfl
  obtain ⟨g, destroyed, loses, stranded, disposable⟩ :=
    destroy_orphans_below reached reached.inPlace silent found
  obtain ⟨-, -, adrift⟩ := loses.below 2 _ below rfl
  refine ⟨f, reached, g, destroyed, ⟨_, adrift, rfl, rfl, rfl⟩, loses.outlook 0 aside,
    stranded 2 below, disposable [2] (by decide) fun j hj => ?_⟩
  rw [List.mem_singleton.1 hj]
  exact below

end SparseTensor
