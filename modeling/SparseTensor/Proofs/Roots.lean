/-
# Where links lead

A listener may remove any registration by its token, also that of a view.  What every run keeps
nevertheless is one direction of the correspondence of views and registrations
(`Situation.Rooted`): whoever is registered as a view has that link, and under the token of a link
nobody but the view is registered with its parent.

So if every view that has a link is registered in the end (`Forest.InPlace`), the other direction
holds as well, whatever was removed on the way (`Reached.whole`).
-/
import SparseTensor.Proofs.PendingEvents
import SparseTensor.Proofs.Walks

namespace SparseTensor

variable {α G : Type}

namespace Forest

/-- The token of the link is given out, and nobody but the view is registered under it. -/
def Grants (f : Forest α) (id : NodeId) (link : Link) : Prop :=
  ∃ p, f.nodes[link.parent]? = some p ∧ link.token < p.nextToken ∧
    ∀ r ∈ p.registrations, r.token = link.token → r.target = .view id

/-- What is granted stays so, as tokens are given out once. -/
theorem Grants.succeeds {f g : Forest α} {id : NodeId} {link : Link} (h : f.Grants id link)
    (after : f.Succeeds g) : g.Grants id link := by
  obtain ⟨p, hp, below, only⟩ := h
  obtain ⟨q, hq, succeeds⟩ := after.forth hp
  refine ⟨q, hq, below.trans_le succeeds.nextToken, fun r hr same => ?_⟩
  rcases succeeds.registrations r hr with hr | new
  · exact only r hr same
  · exact absurd same (Nat.ne_of_gt (below.trans_le new))

/-- Every view that has a link is registered with its parent. -/
def InPlace (f : Forest α) : Prop :=
  ∀ (id : NodeId) (v : Node α) (link : Link), f.nodes[id]? = some v →
    v.role = .view (some link) → ∃ p, f.nodes[link.parent]? = some p ∧
      ⟨link.token, .view id⟩ ∈ p.registrations

end Forest

/-! ## What becomes of nodes -/

/-- A node that keeps its link, if it has one. -/
structure Node.Keeps (n m : Node α) : Prop where
  role : m.role = n.role
  orphaned : m.orphaned = n.orphaned
  available : n.role.isView = true → m.available = n.available

/-- A node that keeps its link, and with which no other view is registered than before. -/
structure Node.Mild (n m : Node α) : Prop extends n.Keeps m where
  hooks : ∀ token child, ⟨token, .view child⟩ ∈ m.registrations →
    (⟨token, .view child⟩ : Registration α) ∈ n.registrations

/-- A change that has nothing to do with links. -/
theorem Node.Keeps.of_eq {n m : Node α} (role : m.role = n.role)
    (orphaned : m.orphaned = n.orphaned) (available : m.available = n.available) : n.Keeps m :=
  ⟨role, orphaned, fun _ => available⟩

theorem Node.mild_subscribe (n : Node α) (listener : α) :
    n.Mild (n.subscribe (.listener listener)) :=
  ⟨.of_eq rfl rfl rfl, fun token child hook => by simpa [Node.subscribe] using hook⟩

theorem Node.mild_unsubscribe (n : Node α) (token : Token) : n.Mild (n.unsubscribe token) :=
  ⟨.of_eq rfl rfl rfl, fun _ _ hook => List.mem_of_mem_filter hook⟩

/-- A node that drops its link and its registrations: it is orphaned or destroyed. -/
structure Node.Drops (n m : Node α) : Prop where
  role : m.role = n.role.unlinked
  registrations : m.registrations = []
  how : m.orphaned = true ∧ n.role.isView = true ∨
    m.orphaned = n.orphaned ∧ m.available = false

/-- A new node, which is canonical or has a link. -/
structure Node.Fresh (f : Forest α) (id : NodeId) (n : Node α) : Prop where
  available : n.available = true
  orphaned : n.orphaned = false
  registrations : n.registrations = []
  role : n.role = .canonical ∨ ∃ link, n.role = .view (some link) ∧ f.Grants id link

namespace Situation

/-- Whoever is registered as a view has that link, and a link is granted to its view. -/
structure Rooted (s : Situation α) : Prop where
  hooked : ∀ {id : NodeId} {n : Node α} {token : Token} {child : NodeId},
    s.forest.nodes[id]? = some n → ⟨token, .view child⟩ ∈ n.registrations →
      n.orphaned = false ∧ (n.available = true ∨ s.changing = some id) ∧
        ∃ v, s.forest.nodes[child]? = some v ∧ v.role = .view (some ⟨id, token⟩)
  /-- Whoever is to hear an event as a view has no other parent. -/
  awaited : ∀ {source : NodeId} {token : Token} {child : NodeId} {event : Event},
    .deliver source ⟨token, .view child⟩ event ∈ s.tasks →
      ∃ v, s.forest.nodes[child]? = some v ∧
        ∀ link, v.role = .view (some link) → link = ⟨source, token⟩
  granted : ∀ {id : NodeId} {v : Node α} {link : Link}, s.forest.nodes[id]? = some v →
    v.role = .view (some link) → v.available = true ∧ v.orphaned = false ∧ s.forest.Grants id link
  /-- A view without a link is an orphan or destroyed, and a canonical node is no orphan. -/
  unlinked : ∀ {id : NodeId} {n : Node α}, s.forest.nodes[id]? = some n →
    (n.role = .view none → n.orphaned = true ∨ n.available = false) ∧
      (n.role = .canonical → n.orphaned = false)

/-- All events that are to be told were to be told, or are told to registrations. -/
def Told (s t : Situation α) : Prop :=
  ∀ {source : NodeId} {r : Registration α} {event : Event},
    .deliver source r event ∈ t.tasks → .deliver source r event ∈ s.tasks ∨
      ∃ n, s.forest.nodes[source]? = some n ∧ r ∈ n.registrations

/-- All that a move can do as far as links are concerned; one node may drop its own. -/
structure Passage (s t : Situation α) (left : Option NodeId) : Prop where
  succeeds : s.forest.Succeeds t.forest
  nodes : ∀ {j : NodeId} {m : Node α}, t.forest.nodes[j]? = some m →
    (∃ n, s.forest.nodes[j]? = some n ∧
      (left ≠ some j ∧ n.Keeps m ∨ left = some j ∧ n.Drops m)) ∨
    s.forest.nodes[j]? = none ∧ m.Fresh t.forest j
  /-- Nodes that were there for their views still are. -/
  present : ∀ {j : NodeId} {n m : Node α}, s.forest.nodes[j]? = some n →
    t.forest.nodes[j]? = some m → left ≠ some j →
      n.available = true ∨ s.changing = some j → m.available = true ∨ t.changing = some j
  /-- A registered view was registered before, or has this link from now on. -/
  hooks : ∀ {j : NodeId} {m : Node α} {token : Token} {child : NodeId},
    t.forest.nodes[j]? = some m → ⟨token, .view child⟩ ∈ m.registrations →
      (left ≠ some child ∧ ∃ n, s.forest.nodes[j]? = some n ∧
        ⟨token, .view child⟩ ∈ n.registrations) ∨
      m.orphaned = false ∧ m.available = true ∧
        ∃ v, t.forest.nodes[child]? = some v ∧ v.role = .view (some ⟨j, token⟩)
  told : Told s t

section

variable {s t : Situation α} {left : Option NodeId}

/-- What becomes of a node that was there. -/
theorem Passage.forth (p : Passage s t left) {j : NodeId} {n : Node α}
    (found : s.forest.nodes[j]? = some n) : ∃ m, t.forest.nodes[j]? = some m ∧
      (left ≠ some j ∧ n.Keeps m ∨ left = some j ∧ n.Drops m) := by
  obtain ⟨m, hm, -⟩ := p.succeeds.forth found
  rcases p.nodes hm with ⟨k, hk, fate⟩ | ⟨nowhere, -⟩
  · obtain rfl := Option.some.inj (found.symm.trans hk)
    exact ⟨m, hm, fate⟩
  · rw [found] at nowhere
    cases nowhere

/-- Whoever is to hear an event as a view was to hear it, or was registered. -/
theorem Rooted.told (h : s.Rooted) (p : Passage s t left) {source : NodeId} {token : Token}
    {child : NodeId} {event : Event}
    (hmem : .deliver source ⟨token, .view child⟩ event ∈ t.tasks) :
    ∃ v, s.forest.nodes[child]? = some v ∧
      ∀ link, v.role = .view (some link) → link = ⟨source, token⟩ := by
  rcases p.told hmem with hmem | ⟨n, hn, hook⟩
  · exact h.awaited hmem
  · obtain ⟨-, -, v, hv, role⟩ := h.hooked hn hook
    refine ⟨v, hv, fun link same => ?_⟩
    rw [role] at same
    cases same
    rfl

/-- Links go on to lead to where they are granted. -/
theorem Rooted.passage (h : s.Rooted) (p : Passage s t left) : t.Rooted where
  hooked := by
    intro j m token child hm hook
    rcases p.hooks hm hook with ⟨other, n, hn, hook'⟩ | ⟨live, lent, view⟩
    -- the view has not dropped its link, and the node has not dropped its registrations
    · obtain ⟨live, present, v, hv, role⟩ := h.hooked hn hook'
      obtain ⟨k, hk, ⟨here, kept⟩ | ⟨-, dropped⟩⟩ := p.forth hn
      · obtain rfl := Option.some.inj (hm.symm.trans hk)
        obtain ⟨w, hw, ⟨-, same⟩ | ⟨gone, -⟩⟩ := p.forth hv
        · exact ⟨kept.orphaned.trans live, p.present hn hm here present, w, hw,
            same.role.trans role⟩
        · exact absurd gone other
      · obtain rfl := Option.some.inj (hm.symm.trans hk)
        rw [dropped.registrations] at hook
        cases hook
    · exact ⟨live, .inl lent, view⟩
  awaited := by
    intro source token child event hmem
    obtain ⟨v, hv, only⟩ := h.told p hmem
    obtain ⟨w, hw, ⟨-, kept⟩ | ⟨-, dropped⟩⟩ := p.forth hv
    · exact ⟨w, hw, kept.role ▸ only⟩
    · refine ⟨w, hw, fun link linked => ?_⟩
      rw [dropped.role] at linked
      cases role : v.role <;> rw [role] at linked <;> cases linked
  granted := by
    intro j m link hm linked
    rcases p.nodes hm with ⟨n, hn, ⟨-, kept⟩ | ⟨-, dropped⟩⟩ | ⟨-, fresh⟩
    · have role : n.role = .view (some link) := kept.role.symm.trans linked
      obtain ⟨lent, live, grants⟩ := h.granted hn role
      have isView : n.role.isView = true := by rw [role]; rfl
      exact ⟨(kept.available isView).trans lent, kept.orphaned.trans live,
        grants.succeeds p.succeeds⟩
    · rw [dropped.role] at linked
      cases role : n.role <;> rw [role] at linked <;> cases linked
    · rcases fresh.role with canonical | ⟨link', role, grants⟩
      · rw [canonical] at linked
        cases linked
      · rw [role] at linked
        cases linked
        exact ⟨fresh.available, fresh.orphaned, grants⟩
  unlinked := by
    intro j m hm
    rcases p.nodes hm with ⟨n, hn, ⟨-, kept⟩ | ⟨-, dropped⟩⟩ | ⟨-, fresh⟩
    · obtain ⟨ended, canonical⟩ := h.unlinked hn
      rw [kept.role, kept.orphaned]
      refine ⟨fun role => ?_, canonical⟩
      rw [kept.available (by rw [role]; rfl)]
      exact ended role
    · refine ⟨fun _ => ?_, fun role => ?_⟩
      · exact dropped.how.imp And.left And.right
      · rw [dropped.role] at role
        cases before : n.role with
        | view link =>
            rw [before] at role
            cases role
        | canonical =>
            rcases dropped.how with ⟨-, wrong⟩ | ⟨same, -⟩
            · rw [before] at wrong
              cases wrong
            · exact same.trans ((h.unlinked hn).2 before)
    · rcases fresh.role with role | ⟨link, role, -⟩
      · rw [role]
        exact ⟨nofun, fun _ => fresh.orphaned⟩
      · rw [role]
        exact ⟨nofun, nofun⟩

end

/-- Passages one after another. -/
inductive Passages (s : Situation α) : Situation α → Prop
  | refl : Passages s s
  | tail {t u : Situation α} {left : Option NodeId} :
    Passages s t → Passage t u left → Passages s u

theorem Passages.of {s t : Situation α} {left : Option NodeId} (p : Passage s t left) :
    Passages s t :=
  .tail .refl p

/-- Links go on to lead to where they are granted. -/
theorem Passages.rooted {s t : Situation α} (p : Passages s t) (h : s.Rooted) : t.Rooted := by
  induction p with
  | refl => exact h
  | tail _ p ih => exact ih.passage p

/-- An orphan stays one. -/
theorem Passages.orphaned {s t : Situation α} (p : Passages s t) {id : NodeId}
    (h : ∃ n : Node α, s.forest.nodes[id]? = some n ∧ n.orphaned = true) :
    ∃ n : Node α, t.forest.nodes[id]? = some n ∧ n.orphaned = true := by
  induction p with
  | refl => exact h
  | tail _ p ih =>
      obtain ⟨n, hn, orphaned⟩ := ih
      obtain ⟨m, hm, ⟨-, kept⟩ | ⟨-, dropped⟩⟩ := p.forth hn
      · exact ⟨m, hm, kept.orphaned.trans orphaned⟩
      · exact ⟨m, hm, dropped.how.elim And.left fun same => same.1.trans orphaned⟩

/-! ## Passages -/

section

variable {s t : Situation α}

/-- A change of one node that keeps its link and registers no view. -/
theorem passage_update (id : NodeId) {g : Node α → Node α}
    (nodes : t.forest.nodes = (s.forest.update id g).nodes)
    (mild : ∀ n, s.forest.nodes[id]? = some n → n.Mild (g n))
    (own : ∀ n : Node α, n.available = true ∨ s.changing = some id →
      (g n).available = true ∨ t.changing = some id)
    (others : ∀ j, j ≠ id → s.changing = some j → t.changing = some j)
    (succeeds : s.forest.Succeeds t.forest) (told : Told s t) : Passage s t none where
  succeeds := succeeds
  nodes := by
    intro j m hm
    rw [nodes] at hm
    obtain ⟨n, hn, ⟨rfl, rfl⟩ | ⟨-, rfl⟩⟩ := Forest.update_cases hm
    · exact .inl ⟨n, hn, .inl ⟨nofun, (mild n hn).toKeeps⟩⟩
    · exact .inl ⟨m, hn, .inl ⟨nofun, .of_eq rfl rfl rfl⟩⟩
  present := by
    intro j n m hn hm _ present
    rw [nodes] at hm
    obtain ⟨k, hk, ⟨rfl, rfl⟩ | ⟨other, rfl⟩⟩ := Forest.update_cases hm
    · obtain rfl := Option.some.inj (hn.symm.trans hk)
      exact own n present
    · obtain rfl := Option.some.inj (hn.symm.trans hk)
      exact present.imp_right (others j other.symm)
  hooks := by
    intro j m token child hm hook
    rw [nodes] at hm
    obtain ⟨n, hn, ⟨rfl, rfl⟩ | ⟨-, rfl⟩⟩ := Forest.update_cases hm
    · exact .inl ⟨nofun, n, hn, (mild n hn).hooks token child hook⟩
    · exact .inl ⟨nofun, m, hn, hook⟩
  told := told

/-- A mild change of one node that does not matter to who lends it out. -/
theorem passage_of_mild (id : NodeId) {g : Node α → Node α}
    (nodes : t.forest.nodes = (s.forest.update id g).nodes) (changing : t.changing = s.changing)
    (mild : ∀ n : Node α, n.Mild (g n)) (lent : ∀ n : Node α, (g n).available = n.available)
    (succeeds : s.forest.Succeeds t.forest) (told : Told s t) : Passage s t none :=
  passage_update id nodes (fun n _ => mild n) (fun n => by rw [lent, changing]; exact fun h => h)
    (fun _ _ same => changing.trans same) succeeds told

/-- Links are a matter of the bare nodes. -/
theorem passage_of_bare_eq (same : t.forest.nodes.map Node.bare = s.forest.nodes.map Node.bare)
    (changing : t.changing = s.changing) (told : Told s t) : Passage s t none where
  succeeds := Forest.succeeds_of_bare_eq same
  nodes := by
    intro j m hm
    obtain ⟨n, hn, bare⟩ := Forest.exists_of_map_eq same hm
    refine .inl ⟨n, hn, .inl ⟨nofun, (congrArg Node.role bare :), ?_, fun _ => ?_⟩⟩
    · exact (congrArg Node.orphaned bare :)
    · exact (congrArg Node.available bare :)
  present := by
    intro j n m hn hm _ present
    obtain ⟨k, hk, bare⟩ := Forest.exists_of_map_eq same hm
    obtain rfl := Option.some.inj (hn.symm.trans hk)
    have available : m.available = n.available := (congrArg Node.available bare :)
    rwa [available, changing]
  hooks := by
    intro j m token child hm hook
    obtain ⟨n, hn, bare⟩ := Forest.exists_of_map_eq same hm
    have registrations : m.registrations = n.registrations :=
      (congrArg Node.registrations bare :)
    exact .inl ⟨nofun, n, hn, registrations ▸ hook⟩
  told := told

end

section

variable {f g : Forest α} {task : Task α} {tasks new : List (Task α)}
  {changing : Option NodeId}

/-- Orphaning a view: it drops its link, and nobody has registered it. -/
theorem Rooted.passage_orphan {source child : NodeId} {token : Token} {n : Node α}
    (h : Rooted ⟨f, .deliver source ⟨token, .view child⟩ .destroyed :: tasks, changing⟩)
    (ordered : Ordered ⟨f, .deliver source ⟨token, .view child⟩ .destroyed :: tasks, changing⟩)
    (orderly : Orderly ⟨f, .deliver source ⟨token, .view child⟩ .destroyed :: tasks, changing⟩)
    (succeeds : f.Succeeds (f.orphan child n).1)
    (told : Told ⟨f, .deliver source ⟨token, .view child⟩ .destroyed :: tasks, changing⟩
      ⟨(f.orphan child n).1, new, changing⟩) :
    Passage ⟨f, .deliver source ⟨token, .view child⟩ .destroyed :: tasks, changing⟩
      ⟨(f.orphan child n).1, new, changing⟩ (some child) where
  succeeds := succeeds
  nodes := by
    intro j m hm
    rw [Forest.orphan_fst] at hm
    obtain ⟨k, hk, ⟨rfl, rfl⟩ | ⟨other, rfl⟩⟩ := Forest.update_cases hm
    · obtain ⟨v, hv, isView⟩ := ordered.awaited List.mem_cons_self
      obtain rfl := Option.some.inj (hk.symm.trans hv)
      exact .inl ⟨k, hk, .inr ⟨rfl, rfl, rfl, .inl ⟨rfl, isView⟩⟩⟩
    · exact .inl ⟨m, hk, .inl ⟨fun same => other (Option.some.inj same), .of_eq rfl rfl rfl⟩⟩
  present := by
    intro j k m hk hm other present
    rw [Forest.orphan_fst] at hm
    obtain ⟨p, hp, ⟨same, -⟩ | ⟨-, rfl⟩⟩ := Forest.update_cases hm
    · exact absurd (congrArg some same) other
    · obtain rfl := Option.some.inj (hk.symm.trans hp)
      exact present
  hooks := by
    intro j m other view hm hook
    rw [Forest.orphan_fst] at hm
    obtain ⟨k, hk, ⟨-, rfl⟩ | ⟨-, rfl⟩⟩ := Forest.update_cases hm
    · cases hook
    refine .inl ⟨?_, m, hk, hook⟩
    rintro ⟨⟩
    -- whoever tells the view that it is orphaned has lost its registration already
    obtain ⟨-, -, v, hv, role⟩ := h.hooked hk hook
    obtain ⟨w, hw, only⟩ := h.awaited List.mem_cons_self
    obtain rfl := Option.some.inj (hv.symm.trans hw)
    cases only _ role
    exact orderly.gone List.mem_cons_self hk _ hook rfl
  told := told

/-- What becomes of a node when another or itself is destroyed. -/
theorem bury_cases (sound : f.Sound) {id j : NodeId} {n m : Node α}
    (found : f.nodes[id]? = some n) (hm : (f.bury id n).1.nodes[j]? = some m) :
    j = id ∧ m = n.buried ∨ j ≠ id ∧ ∃ k, f.nodes[j]? = some k ∧
      (m = k ∧ (∀ token, n.role = .view (some ⟨j, token⟩) → f.isAlive j = false) ∨
        ∃ token, n.role = .view (some ⟨j, token⟩) ∧ m = k.unsubscribe token) := by
  rcases f.bury_fst id n with ⟨same, dead⟩ | ⟨link, role, same⟩
  · rw [same] at hm
    obtain ⟨k, hk, ⟨rfl, rfl⟩ | ⟨other, rfl⟩⟩ := Forest.update_cases hm
    · obtain rfl := Option.some.inj (found.symm.trans hk)
      exact .inl ⟨rfl, rfl⟩
    · exact .inr ⟨other.symm, m, hk, .inl ⟨rfl, fun token role => dead _ role⟩⟩
  · have older := (sound.linked found role).1
    rw [same] at hm
    obtain ⟨k, hk, parent⟩ := Forest.update_cases hm
    obtain ⟨p, hp, ⟨rfl, rfl⟩ | ⟨other, rfl⟩⟩ := Forest.update_cases hk
    · obtain rfl := Option.some.inj (found.symm.trans hp)
      rcases parent with ⟨wrong, -⟩ | ⟨-, rfl⟩
      · exact absurd wrong (Nat.ne_of_lt older)
      · exact .inl ⟨rfl, rfl⟩
    · refine .inr ⟨other.symm, k, hp, ?_⟩
      rcases parent with ⟨rfl, rfl⟩ | ⟨elsewhere, rfl⟩
      · exact .inr ⟨link.token, role, rfl⟩
      · refine .inl ⟨rfl, fun token role' => ?_⟩
        rw [role] at role'
        cases role'
        exact absurd rfl elsewhere

/-- Destroying a node: it drops its link, and its parent the registration. -/
theorem Rooted.passage_bury {id : NodeId} {n : Node α} (h : Rooted ⟨f, tasks, changing⟩)
    (sound : f.Sound) (held : Held ⟨f, tasks, changing⟩) (found : f.available? id = some n)
    (told : Told ⟨f, tasks, changing⟩ ⟨(f.bury id n).1, new, changing⟩) :
    Passage ⟨f, tasks, changing⟩ ⟨(f.bury id n).1, new, changing⟩ (some id) := by
  obtain ⟨found, lent⟩ := Option.filter_eq_some_iff.1 found
  refine ⟨f.succeeds_bury id n, fun {j m} hm => ?_, fun {j k m} hk hm other present => ?_,
    fun {j m token child} hm hook => ?_, told⟩
  · obtain ⟨rfl, rfl⟩ | ⟨other, k, hk, ⟨rfl, -⟩ | ⟨token, -, rfl⟩⟩ := bury_cases sound found hm
    · exact .inl ⟨n, found, .inr ⟨rfl, rfl, rfl, .inr ⟨rfl, rfl⟩⟩⟩
    · have elsewhere : some id ≠ some j := fun same => other (Option.some.inj same).symm
      exact .inl ⟨m, hk, .inl ⟨elsewhere, .of_eq rfl rfl rfl⟩⟩
    · have elsewhere : some id ≠ some j := fun same => other (Option.some.inj same).symm
      exact .inl ⟨k, hk, .inl ⟨elsewhere, .of_eq rfl rfl rfl⟩⟩
  · obtain ⟨rfl, -⟩ | ⟨-, p, hp, ⟨rfl, -⟩ | ⟨token, -, rfl⟩⟩ := bury_cases sound found hm
    · exact absurd rfl other
    · obtain rfl := Option.some.inj (hk.symm.trans hp)
      exact present
    · obtain rfl := Option.some.inj (hk.symm.trans hp)
      exact present
  · have own : ∀ {k : Node α}, f.nodes[j]? = some k → ⟨token, .view id⟩ ∈ k.registrations →
        n.role = .view (some ⟨j, token⟩) ∧ f.isAlive j = true := by
      intro k hk hook
      obtain ⟨-, present, v, hv, role⟩ := h.hooked hk hook
      obtain rfl := Option.some.inj (found.symm.trans hv)
      exact ⟨role, held.isAlive hk present⟩
    obtain ⟨rfl, rfl⟩ | ⟨-, k, hk, ⟨rfl, dead⟩ | ⟨other, role, rfl⟩⟩ := bury_cases sound found hm
    · cases hook
    -- only a parent that is not alive is not left, and this one is
    · refine .inl ⟨?_, m, hk, hook⟩
      rintro ⟨⟩
      obtain ⟨role, alive⟩ := own hk hook
      rw [dead token role] at alive
      cases alive
    · obtain ⟨hook, kept⟩ := List.mem_filter.1 hook
      refine .inl ⟨?_, k, hk, hook⟩
      rintro ⟨⟩
      obtain ⟨role', -⟩ := own hk hook
      rw [role] at role'
      cases role'
      simp at kept

/-- What a task does is a passage. -/
theorem Rooted.passages_does (h : Rooted ⟨f, task :: tasks, changing⟩)
    (ordered : Ordered ⟨f, task :: tasks, changing⟩) (held : Held ⟨f, task :: tasks, changing⟩)
    (orderly : Orderly ⟨f, task :: tasks, changing⟩) (does : f.Does task g new) :
    Passages ⟨f, task :: tasks, changing⟩ ⟨g, new ++ tasks, changing⟩ := by
  have succeeds := does.succeeds
  have told : Told ⟨f, task :: tasks, changing⟩ ⟨g, new ++ tasks, changing⟩ := by
    intro source r event hmem
    rcases List.mem_append.1 hmem with hmem | hmem
    · exact .inr (does.told hmem)
    · exact .inl (List.mem_cons_of_mem _ hmem)
  cases does with
  | hear _ => exact .of (passage_of_bare_eq rfl rfl told)
  | miss _ => exact .of (passage_of_bare_eq rfl rfl told)
  | @ripple source child token n _ _ _ =>
      exact .of (passage_of_mild child (g := Node.outdated) rfl rfl
        (fun n => ⟨.of_eq rfl rfl rfl, fun _ _ hook => hook⟩) (fun _ => rfl) succeeds told)
  | orphan _ _ _ => exact .of (h.passage_orphan ordered orderly succeeds told)
  | look _ _ reads => exact .of (passage_of_bare_eq reads.bare.2 rfl told)
  | @subscribe id n listener other action _ =>
      exact .of (passage_of_mild id rfl rfl (fun n => n.mild_subscribe other) (fun _ => rfl)
        succeeds told)
  | @unsubscribe id n listener token _ =>
      exact .of (passage_of_mild id rfl rfl (fun n => n.mild_unsubscribe token) (fun _ => rfl)
        succeeds told)
  | destroy found =>
      exact .of (h.passage_bury ordered.forest.sound held found told)
  | report => exact .of (passage_of_bare_eq rfl rfl told)
  | @release id =>
      exact .of (passage_of_mild id (g := fun n => { n with holders := n.holders - 1 }) rfl rfl
        (fun n => ⟨.of_eq rfl rfl rfl, fun _ _ hook => hook⟩) (fun _ => rfl) succeeds told)

/-- Adding a canonical node. -/
theorem passage_push {n : Node α} (nodes : g.nodes = f.nodes.push n) (role : n.role = .canonical)
    (live : n.orphaned = false) (lent : n.available = true) (none : n.registrations = []) :
    Passage (quiet f) (quiet g) Option.none where
  succeeds := Forest.succeeds_push nodes none
  nodes := by
    intro j m hm
    rcases Forest.push_cases nodes hm with hm | ⟨rfl, rfl⟩
    · exact .inl ⟨m, hm, .inl ⟨nofun, .of_eq rfl rfl rfl⟩⟩
    · exact .inr ⟨Array.getElem?_eq_none (Nat.le_refl _), lent, live, none, .inl role⟩
  present := by
    intro j k m hk hm _ present
    obtain rfl := Option.some.inj ((Forest.getElem?_of_push nodes hk).symm.trans hm)
    exact present
  hooks := by
    intro j m token child hm hook
    rcases Forest.push_cases nodes hm with hm | ⟨-, rfl⟩
    · exact .inl ⟨nofun, m, hm, hook⟩
    · rw [none] at hook
      cases hook
  told hmem := absurd hmem List.not_mem_nil

/-- Creating a view: its parent grants the link, under which nobody was registered. -/
theorem passage_branch (tokens : ∀ {id : NodeId} {n : Node α}, f.nodes[id]? = some n →
      n.TokensOrdered) {parent : NodeId} {p : Node α} {shape : Shape}
    (found : f.available? parent = some p) (live : p.orphaned = false)
    (nodes : g.nodes = (f.update parent fun p => p.subscribe (.view f.nodes.size)).nodes.push
      (.view shape ⟨parent, p.nextToken⟩)) (succeeds : f.Succeeds g) :
    Passage (quiet f) (quiet g) none := by
  obtain ⟨found, lent⟩ := Option.filter_eq_some_iff.1 found
  have child := Forest.getElem?_branch_child nodes
  have granted : g.Grants f.nodes.size ⟨parent, p.nextToken⟩ := by
    refine ⟨_, Forest.getElem?_branch_parent found nodes, Nat.lt_succ_self _, fun r hr same => ?_⟩
    rcases List.mem_append.1 hr with hr | hr
    · exact absurd same (Nat.ne_of_lt ((tokens found).2 r hr))
    · obtain rfl := List.mem_singleton.1 hr
      rfl
  refine ⟨succeeds, fun {j m} hm => ?_, fun {j k m} hk hm _ present => ?_,
    fun {j m token view} hm hook => ?_, fun hmem => absurd hmem List.not_mem_nil⟩
  · obtain ⟨rfl, rfl⟩ | ⟨rfl, rfl⟩ | hm := Forest.branch_cases found nodes hm
    · exact .inr ⟨Array.getElem?_eq_none (Nat.le_refl _), rfl, rfl, rfl, .inr ⟨_, rfl, granted⟩⟩
    · exact .inl ⟨p, found, .inl ⟨nofun, .of_eq rfl rfl rfl⟩⟩
    · exact .inl ⟨m, hm, .inl ⟨nofun, .of_eq rfl rfl rfl⟩⟩
  · obtain ⟨rfl, rfl⟩ | ⟨rfl, rfl⟩ | hm := Forest.branch_cases found nodes hm
    · exact .inl rfl
    · exact .inl lent
    · obtain rfl := Option.some.inj (hk.symm.trans hm)
      exact present
  · obtain ⟨-, rfl⟩ | ⟨rfl, rfl⟩ | hm := Forest.branch_cases found nodes hm
    · cases hook
    · rcases List.mem_append.1 hook with hook | hook
      · exact .inl ⟨nofun, p, found, hook⟩
      · cases List.mem_singleton.1 hook
        exact .inr ⟨live, lent, _, child, rfl⟩
    · exact .inl ⟨nofun, m, hm, hook⟩

/-- What a command does before listeners run is a passage. -/
theorem Rooted.passages_begin (h : (quiet f).Rooted) (sound : f.Sound) (held : (quiet f).Held)
    (tokens : ∀ {id : NodeId} {n : Node α}, f.nodes[id]? = some n → n.TokensOrdered)
    {touch : Touch α} {happening : Happening} {effect : Effect}
    (begins : f.Begins touch happening effect g) : Passages (quiet f) (g.begin effect) := by
  have succeeds := begins.succeeds
  have told : Told (quiet f) (g.begin effect) := fun hmem => .inr (begins.told hmem)
  cases begins with
  | read reads => exact .of (passage_of_bare_eq reads.bare.2 rfl told)
  | found _ _ nodes => exact .of (passage_push nodes rfl rfl rfl rfl)
  | branch found live _ _ nodes => exact .of (passage_branch tokens found live nodes succeeds)
  | @listen id n listener _ =>
      exact .of (passage_of_mild id rfl rfl (fun n => n.mild_subscribe listener) (fun _ => rfl)
        succeeds told)
  | @leave id n token _ =>
      exact .of (passage_of_mild id rfl rfl (fun n => n.mild_unsubscribe token) (fun _ => rfl)
        succeeds told)
  | @store _ id n value cells reads found role _ _ =>
      have read : Passages (quiet f) (quiet g) := .of (passage_of_bare_eq reads.bare.2 rfl
        fun hmem => absurd hmem List.not_mem_nil)
      have present := (Option.filter_eq_some_iff.1 found).1
      refine read.tail (passage_update id (t := storing g id value) rfl
        (fun m hm => ⟨⟨rfl, rfl, fun isView => ?_⟩, fun _ _ hook => hook⟩) (fun _ _ => .inr rfl)
        (fun _ _ wrong => by cases wrong)
        (Forest.succeeds_update fun n => Node.succeeds_of_sublist rfl (.refl _)) fun hmem => ?_)
      · obtain rfl := Option.some.inj (present.symm.trans hm)
        rw [role] at isView
        cases isView
      · obtain ⟨rfl, -, hr⟩ := exists_of_deliver_mem hmem
        rw [present] at hr
        exact .inr ⟨n, present, hr⟩
  | @bury id n found =>
      simp only [Forest.begin, found] at told ⊢
      exact .of (h.passage_bury sound held found told)

/-- Ending a change is a passage. -/
theorem passage_finish {id : NodeId} (held : Held ⟨f, [], some id⟩) :
    Passage ⟨f, [], some id⟩ (quiet (f.update id fun n => { n with available := true })) none := by
  obtain ⟨n, hn, canonical, -⟩ := held.changed rfl
  refine passage_update id rfl (fun m hm => ⟨⟨rfl, rfl, fun isView => ?_⟩,
    fun _ _ hook => hook⟩) (fun _ _ => .inl rfl) (fun j other same => ?_)
    (Forest.succeeds_update fun n => Node.succeeds_of_sublist rfl (.refl _))
    fun hmem => absurd hmem List.not_mem_nil
  · obtain rfl := Option.some.inj (hn.symm.trans hm)
    rw [canonical] at isView
    cases isView
  · exact absurd (Option.some.inj same).symm other

/-- Every move is a passage, and keeps nodes held. -/
theorem Rooted.passages_next [RandomSource G] [LawfulRandomSource G] {s t : Situation α}
    {move : Move α G} (h : s.Rooted) (ordered : s.Ordered) (held : s.Held) (orderly : s.Orderly)
    (step : Next move s t) : t.Held ∧ Passages s t := by
  have sound := ordered.forest.sound
  cases step with
  | call command begun =>
      obtain ⟨_, _, -, -, -, begins⟩ := Forest.begins_of_prelude sound begun
      exact ⟨held_begin held begins, h.passages_begin sound held orderly.tokens begins⟩
  | refuse command failed =>
      have reads := (Forest.reads_of_prelude_error sound failed).2
      exact ⟨held.of_bare_eq reads.bare.2 fun _ => rfl, .of (passage_of_bare_eq reads.bare.2 rfl
        fun hmem => absurd hmem List.not_mem_nil)⟩
  | @step react f task tasks changing =>
      have does := Forest.does_step sound react task
      exact ⟨held.does does, h.passages_does ordered held orderly does⟩
  | finish => exact ⟨held.finish, .of (passage_finish held)⟩
  | forget => exact ⟨held.of_nodes_eq rfl, .of (passage_of_bare_eq rfl rfl
      fun hmem => absurd hmem List.not_mem_nil)⟩

/-- If all views with a link are registered, views and registrations correspond. -/
theorem Rooted.linked (h : (quiet f).Rooted) (orderly : (quiet f).Orderly) (inPlace : f.InPlace) :
    (quiet f).Linked where
  tokens := orderly.tokens
  hooked := h.hooked
  awaited hmem := absurd hmem List.not_mem_nil
  linked hv role := by
    obtain ⟨lent, live, -⟩ := h.granted hv role
    exact ⟨lent, live, .inl (inPlace _ _ _ hv role)⟩
  unlinked := h.unlinked
  ended hmem := absurd hmem List.not_mem_nil

end

end Situation

section

variable [RandomSource G] [LawfulRandomSource G] {allowed : Situation α → Move α G → Prop}

/-- In every situation that a run comes to, nodes are held, and links lead to where they are
granted. -/
theorem Reached.rooted {s : Situation α} (h : Reached allowed s) : s.Held ∧ s.Rooted := by
  induction h with
  | start =>
      obtain ⟨held, linked⟩ := Situation.linked_start (α := α)
      refine ⟨held, linked.hooked, fun hmem => absurd hmem List.not_mem_nil, fun found => ?_,
        linked.unlinked⟩
      simp [Situation.quiet, Forest.empty] at found
  | next before _ step ih =>
      obtain ⟨held, passages⟩ := ih.2.passages_next before.ordered ih.1 before.orderly step
      exact ⟨held, passages.rooted ih.2⟩

/-- If all views with a link are registered between two commands, it does not matter which
registrations were removed in the run before. -/
theorem Reached.whole {f : Forest α} (h : Reached allowed (.quiet f)) (inPlace : f.InPlace) :
    (Situation.quiet f).Whole where
  ordered := h.ordered
  held := h.rooted.1
  linked := h.rooted.2.linked h.orderly inPlace

/-- Along tactful runs all views with a link stay registered. -/
theorem Reached.inPlace {f : Forest α}
    (h : Reached (fun s (move : Move α G) => move.Tactful s) (.quiet f)) : f.InPlace := by
  intro id v link hv role
  obtain ⟨p, parent, -, hook⟩ := h.tidy.linked.exists_parent hv role
  exact ⟨p, (Option.filter_eq_some_iff.1 parent).1, hook⟩

end

end SparseTensor
