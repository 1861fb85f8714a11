/-
# Views and their registrations

As long as nobody removes the registration of a view by its token, views and registrations
correspond in every situation of a run (`Situation.Linked`): a view that has a link is registered
with its parent under the token of the link, or an event that will orphan it is on the agenda,
and whoever is registered as a view has that link.

A node that is orphaned or destroyed is cut off: it leaves its parent and tells its own views, and
what corresponded before still does (`Linked.cut`).
-/
import SparseTensor.Proofs.Ties

namespace SparseTensor

variable {α : Type}

/-! ## The invariant -/

namespace Situation

/-- Views and registrations correspond. -/
structure Linked (s : Situation α) : Prop where
  tokens : ∀ {id : NodeId} {n : Node α}, s.forest.nodes[id]? = some n → n.TokensOrdered
  /-- Whoever is registered as a view is linked to the node, which is there for it. -/
  hooked : ∀ {id : NodeId} {n : Node α} {token : Token} {child : NodeId},
    s.forest.nodes[id]? = some n → ⟨token, .view child⟩ ∈ n.registrations →
      n.orphaned = false ∧ (n.available = true ∨ s.changing = some id) ∧
        ∃ v, s.forest.nodes[child]? = some v ∧ v.role = .view (some ⟨id, token⟩)
  /-- Whoever is to hear an event as a view has no other parent. -/
  awaited : ∀ {source : NodeId} {token : Token} {child : NodeId} {event : Event},
    .deliver source ⟨token, .view child⟩ event ∈ s.tasks → source < child ∧
      ∃ v, s.forest.nodes[child]? = some v ∧ v.role.isView = true ∧
        ∀ link, v.role = .view (some link) → link = ⟨source, token⟩
  /-- A view with a link is registered with its parent, or will be orphaned. -/
  linked : ∀ {id : NodeId} {v : Node α} {link : Link}, s.forest.nodes[id]? = some v →
    v.role = .view (some link) → v.available = true ∧ v.orphaned = false ∧
      ((∃ n, s.forest.nodes[link.parent]? = some n ∧
          ⟨link.token, .view id⟩ ∈ n.registrations) ∨
        .deliver link.parent ⟨link.token, .view id⟩ .destroyed ∈ s.tasks)
  /-- A view without a link is an orphan or destroyed, and a canonical node is no orphan. -/
  unlinked : ∀ {id : NodeId} {n : Node α}, s.forest.nodes[id]? = some n →
    (n.role = .view none → n.orphaned = true ∨ n.available = false) ∧
      (n.role = .canonical → n.orphaned = false)
  /-- Only orphans and destroyed nodes tell of a destruction. -/
  ended : ∀ {source : NodeId} {r : Registration α},
    .deliver source r .destroyed ∈ s.tasks → ∃ n, s.forest.nodes[source]? = some n ∧
      (n.orphaned = true ∨ n.available = false ∧ s.changing ≠ some source)

variable {f g : Forest α} {tasks new : List (Task α)} {changing : Option NodeId}

/-- What matters to no view keeps links. -/
theorem Linked.of_resembles (h : Linked ⟨f, tasks, changing⟩) (same : f.Resembles g) :
    Linked ⟨g, tasks, changing⟩ where
  tokens := by
    intro id m hm
    obtain ⟨n, hn, alike⟩ := same.back hm
    exact alike.tokens (h.tokens hn)
  hooked := by
    intro id m token child hm hook
    obtain ⟨n, hn, alike⟩ := same.back hm
    obtain ⟨live, present, v, hv, role⟩ := h.hooked hn ((alike.hooks token child).1 hook).1
    obtain ⟨w, hw, alike'⟩ := same.forth hv
    exact ⟨alike.orphaned.trans live, alike.available ▸ present, w, hw, alike'.role.trans role⟩
  awaited := by
    intro source token child event hmem
    obtain ⟨younger, v, hv, isView, only⟩ := h.awaited hmem
    obtain ⟨w, hw, alike⟩ := same.forth hv
    exact ⟨younger, w, hw, alike.role ▸ isView, alike.role ▸ only⟩
  linked := by
    intro id m link hm linked
    obtain ⟨v, hv, alike⟩ := same.back hm
    obtain ⟨lent, live, hook⟩ := h.linked hv (alike.role ▸ linked)
    refine ⟨alike.available.trans lent, alike.orphaned.trans live, hook.imp_left ?_⟩
    rintro ⟨n, hn, hook⟩
    obtain ⟨p, hp, alike'⟩ := same.forth hn
    exact ⟨p, hp, (alike'.hooks _ _).2 ⟨hook, by simp⟩⟩
  unlinked := by
    intro id m hm
    obtain ⟨n, hn, alike⟩ := same.back hm
    rw [alike.role, alike.orphaned, alike.available]
    exact h.unlinked hn
  ended := by
    intro source r hmem
    obtain ⟨n, hn, how⟩ := h.ended hmem
    obtain ⟨m, hm, alike⟩ := same.forth hn
    exact ⟨m, hm, by rwa [alike.orphaned, alike.available]⟩

/-- An agenda may be replaced if changes are told to those that are registered, and views that are
to be orphaned still are. -/
theorem Linked.agenda (h : Linked ⟨f, tasks, changing⟩) (sound : f.Sound)
    (told : ∀ {source : NodeId} {r : Registration α} {event : Event},
      .deliver source r event ∈ new → .deliver source r event ∈ tasks ∨
        event = .valueChanged ∧ ∃ n, f.nodes[source]? = some n ∧ r ∈ n.registrations)
    (kept : ∀ {id : NodeId} {v : Node α} {link : Link}, f.nodes[id]? = some v →
      v.role = .view (some link) →
        .deliver link.parent ⟨link.token, .view id⟩ .destroyed ∈ tasks →
          .deliver link.parent ⟨link.token, .view id⟩ .destroyed ∈ new) :
    Linked ⟨f, new, changing⟩ where
  tokens := h.tokens
  hooked := h.hooked
  awaited := by
    intro source token child event hmem
    rcases told hmem with hmem | ⟨-, n, hn, hook⟩
    · exact h.awaited hmem
    · obtain ⟨-, -, v, hv, role⟩ := h.hooked hn hook
      refine ⟨(sound.linked hv role).1, v, hv, by rw [role]; rfl, fun link same => ?_⟩
      rw [role] at same
      cases same
      rfl
  linked := by
    intro id v link hv role
    obtain ⟨lent, live, hook⟩ := h.linked hv role
    exact ⟨lent, live, hook.imp_right (kept hv role)⟩
  unlinked := h.unlinked
  ended := by
    intro source r hmem
    rcases told hmem with hmem | ⟨wrong, -⟩
    · exact h.ended hmem
    · cases wrong

/-- Whoever is linked hears that it is to be orphaned. -/
theorem Linked.not_deaf {source child : NodeId} {token : Token} {event : Event} {v : Node α}
    {link : Link} (h : Linked ⟨f, tasks, changing⟩) (held : Held ⟨f, tasks, changing⟩)
    (hmem : .deliver source ⟨token, .view child⟩ event ∈ tasks) (hv : f.nodes[child]? = some v)
    (role : v.role = .view (some link)) : ¬ f.Deaf source child event := by
  intro deaf
  obtain ⟨lent, live, -⟩ := h.linked hv role
  rcases deaf v hv with gone | ⟨-, older⟩ | ⟨-, orphaned⟩
  · have holders := held.holders hv
    simp [lent, gone] at holders
  · exact older (h.awaited hmem).1
  · rw [live] at orphaned
    cases orphaned

/-! ## Cutting a node off -/

/-- A node drops its link and its registrations, which are told: it is an orphan or destroyed now,
and is not registered any more. -/
structure Cut (s t : Situation α) (id : NodeId) (n m : Node α) : Prop where
  before : s.forest.nodes[id]? = some n
  after : t.forest.nodes[id]? = some m
  changing : t.changing = s.changing
  registrations : m.registrations = []
  role : m.role = n.role.unlinked
  /-- The node is an orphan now, or it is destroyed. -/
  how : m.orphaned = true ∧ m.available = n.available ∧ n.role.isView = true ∨
    m.orphaned = n.orphaned ∧ m.available = false ∧ s.changing ≠ some id
  back : ∀ {j : NodeId} {k : Node α}, j ≠ id → t.forest.nodes[j]? = some k →
    ∃ p, s.forest.nodes[j]? = some p ∧ p.Resembles (some id) k
  forth : ∀ {j : NodeId} {p : Node α}, j ≠ id → s.forest.nodes[j]? = some p →
    ∃ k, t.forest.nodes[j]? = some k ∧ p.Resembles (some id) k
  /-- Nothing is told but what was to be told, and that the node is gone. -/
  told : ∀ {source : NodeId} {r : Registration α} {event : Event},
    .deliver source r event ∈ t.tasks → .deliver source r event ∈ s.tasks ∨
      source = id ∧ event = .destroyed ∧ r ∈ n.registrations
  /-- Everyone who was registered is told. -/
  tell : ∀ r ∈ n.registrations, .deliver id r .destroyed ∈ t.tasks
  /-- Other views that are to be orphaned still are. -/
  kept : ∀ {source : NodeId} {token : Token} {child : NodeId}, child ≠ id →
    .deliver source ⟨token, .view child⟩ .destroyed ∈ s.tasks →
      .deliver source ⟨token, .view child⟩ .destroyed ∈ t.tasks

section

variable {s t : Situation α} {id : NodeId} {n m : Node α}

/-- A node is the one that was cut off, or resembles what it was. -/
theorem Cut.back_cases (cut : Cut s t id n m) {j : NodeId} {k : Node α}
    (hk : t.forest.nodes[j]? = some k) :
    j = id ∧ k = m ∨ j ≠ id ∧ ∃ p, s.forest.nodes[j]? = some p ∧ p.Resembles (some id) k := by
  by_cases here : j = id
  · subst here
    exact .inl ⟨rfl, Option.some.inj (hk.symm.trans cut.after)⟩
  · exact .inr ⟨here, cut.back here hk⟩

/-- A node is the one that is cut off, or resembles what it becomes. -/
theorem Cut.forth_cases (cut : Cut s t id n m) {j : NodeId} {p : Node α}
    (hp : s.forest.nodes[j]? = some p) :
    j = id ∧ p = n ∨ j ≠ id ∧ ∃ k, t.forest.nodes[j]? = some k ∧ p.Resembles (some id) k := by
  by_cases here : j = id
  · subst here
    exact .inl ⟨rfl, Option.some.inj (hp.symm.trans cut.before)⟩
  · exact .inr ⟨here, cut.forth here hp⟩

/-- The node has no link any more. -/
theorem Cut.no_link (cut : Cut s t id n m) (link : Link) : m.role ≠ .view (some link) := by
  intro linked
  have none := congrArg Role.link? linked
  rw [cut.role, Role.link?_unlinked] at none
  cases none

/-- The node is a view if it was one. -/
theorem Cut.isView (cut : Cut s t id n m) : m.role.isView = n.role.isView := by
  rw [cut.role, Role.isView_unlinked]

/-- The node is an orphan or destroyed. -/
theorem Cut.ended (cut : Cut s t id n m) :
    m.orphaned = true ∨ m.available = false ∧ t.changing ≠ some id := by
  rw [cut.changing]
  exact cut.how.imp And.left And.right

/-- Whoever is to hear an event as a view was registered, or was to hear it. -/
theorem Linked.told_by_cut (h : s.Linked) (sound : s.forest.Sound) (cut : Cut s t id n m)
    {source : NodeId} {token : Token} {child : NodeId} {event : Event}
    (hmem : .deliver source ⟨token, .view child⟩ event ∈ t.tasks) :
    source < child ∧ ∃ v, s.forest.nodes[child]? = some v ∧ v.role.isView = true ∧
      ∀ link, v.role = .view (some link) → link = ⟨source, token⟩ := by
  rcases cut.told hmem with hmem | ⟨rfl, -, hook⟩
  · exact h.awaited hmem
  · obtain ⟨-, -, v, hv, linked⟩ := h.hooked cut.before hook
    refine ⟨(sound.linked hv linked).1, v, hv, by rw [linked]; rfl, fun link same => ?_⟩
    rw [linked] at same
    cases same
    rfl

/-- A canonical node that is cut off was canonical and no orphan, and is none. -/
theorem Linked.canonical_of_cut (h : s.Linked) (cut : Cut s t id n m)
    (canonical : m.role = .canonical) : m.orphaned = false := by
  have notView : n.role.isView = false := by
    rw [← cut.isView, canonical]
    rfl
  rcases cut.how with ⟨-, -, view⟩ | ⟨same, -⟩
  · rw [view] at notView
    cases notView
  · refine same.trans ((h.unlinked cut.before).2 ?_)
    cases unchanged : n.role with
    | canonical => rfl
    | view link =>
        rw [unchanged] at notView
        cases notView

/-- Cutting a node off keeps links. -/
theorem Linked.cut (h : s.Linked) (sound : s.forest.Sound) (cut : Cut s t id n m) : t.Linked where
  tokens := by
    intro j k hk
    obtain ⟨rfl, rfl⟩ | ⟨-, p, hp, alike⟩ := cut.back_cases hk
    · rw [Node.TokensOrdered, cut.registrations]
      exact ⟨.nil, by simp⟩
    · exact alike.tokens (h.tokens hp)
  hooked := by
    intro j k token child hk hook
    obtain ⟨rfl, rfl⟩ | ⟨-, p, hp, alike⟩ := cut.back_cases hk
    · rw [cut.registrations] at hook
      cases hook
    · obtain ⟨hook, other⟩ := (alike.hooks token child).1 hook
      obtain ⟨live, present, v, hv, linked⟩ := h.hooked hp hook
      obtain ⟨w, hw, alike'⟩ := cut.forth (fun same => other (congrArg some same.symm)) hv
      rw [cut.changing]
      exact ⟨alike.orphaned.trans live, alike.available ▸ present, w, hw,
        alike'.role.trans linked⟩
  awaited := by
    intro source token child event hmem
    obtain ⟨younger, v, hv, view, only⟩ := h.told_by_cut sound cut hmem
    obtain ⟨rfl, rfl⟩ | ⟨-, w, hw, alike⟩ := cut.forth_cases hv
    · exact ⟨younger, m, cut.after, cut.isView.trans view,
        fun link linked => absurd linked (cut.no_link link)⟩
    · exact ⟨younger, w, hw, alike.role ▸ view, alike.role ▸ only⟩
  linked := by
    intro j k link hk linked
    obtain ⟨rfl, rfl⟩ | ⟨other, v, hv, alike⟩ := cut.back_cases hk
    · exact absurd linked (cut.no_link link)
    obtain ⟨lent, live, hook⟩ := h.linked hv (alike.role ▸ linked)
    refine ⟨alike.available.trans lent, alike.orphaned.trans live, ?_⟩
    rcases hook with ⟨p, hp, hook⟩ | hmem
    · -- if the parent is the node that is cut off, the view is told
      obtain ⟨parent, rfl⟩ | ⟨-, q, hq, alike'⟩ := cut.forth_cases hp
      · rw [parent]
        exact .inr (cut.tell _ hook)
      · exact .inl ⟨q, hq,
          (alike'.hooks _ _).2 ⟨hook, fun same => other (Option.some.inj same).symm⟩⟩
    · exact .inr (cut.kept other hmem)
  unlinked := by
    intro j k hk
    obtain ⟨rfl, rfl⟩ | ⟨-, p, hp, alike⟩ := cut.back_cases hk
    · exact ⟨fun _ => cut.ended.imp_right And.left, h.canonical_of_cut cut⟩
    · rw [alike.role, alike.orphaned, alike.available]
      exact h.unlinked hp
  ended := by
    intro source r hmem
    by_cases here : source = id
    · subst here
      exact ⟨m, cut.after, cut.ended⟩
    rcases cut.told hmem with hmem | ⟨same, -⟩
    · obtain ⟨p, hp, how⟩ := h.ended hmem
      obtain ⟨k, hk, alike⟩ := cut.forth here hp
      rw [cut.changing]
      exact ⟨k, hk, by rwa [alike.orphaned, alike.available]⟩
    · exact absurd same here

end

/-- A node with registered views does not tell of its destruction. -/
theorem Linked.not_ended (h : Linked ⟨f, tasks, changing⟩) {id child : NodeId} {n : Node α}
    {token : Token} (hn : f.nodes[id]? = some n) (hook : ⟨token, .view child⟩ ∈ n.registrations)
    (r : Registration α) : .deliver id r .destroyed ∉ tasks := by
  intro hmem
  obtain ⟨live, present, -⟩ := h.hooked hn hook
  obtain ⟨m, hm, how⟩ := h.ended hmem
  obtain rfl : n = m := Option.some.inj (hn.symm.trans hm)
  rcases how with orphaned | ⟨taken, unchanged⟩
  · rw [live] at orphaned
    cases orphaned
  · rcases present with lent | changed
    · rw [taken] at lent
      cases lent
    · exact unchanged changed

/-- Whoever is about to be orphaned is registered nowhere. -/
theorem Linked.not_hooked {source child : NodeId} {token : Token}
    (h : Linked ⟨f, tasks, changing⟩)
    (hmem : .deliver source ⟨token, .view child⟩ .destroyed ∈ tasks) {id : NodeId} {n : Node α}
    {other : Token} (hn : f.nodes[id]? = some n) : ⟨other, .view child⟩ ∉ n.registrations := by
  intro hook
  obtain ⟨-, -, v, hv, role⟩ := h.hooked hn hook
  obtain ⟨-, w, hw, -, only⟩ := h.awaited hmem
  obtain rfl : v = w := Option.some.inj (hv.symm.trans hw)
  cases only _ role
  exact h.not_ended hn hook _ hmem

/-- Orphaning a view keeps links. -/
theorem Linked.orphan {source child : NodeId} {token : Token} {n : Node α} (sound : f.Sound)
    (h : Linked ⟨f, .deliver source ⟨token, .view child⟩ .destroyed :: tasks, changing⟩)
    (found : f.nodes[child]? = some n) :
    Linked ⟨(f.orphan child n).1, (f.orphan child n).2 ++ tasks, changing⟩ := by
  obtain ⟨-, v, hv, isView, -⟩ := h.awaited List.mem_cons_self
  obtain rfl : n = v := Option.some.inj (found.symm.trans hv)
  have spared : ∀ {j : NodeId} {p : Node α}, f.nodes[j]? = some p →
      p.Resembles (some child) p := fun hp =>
    Node.resembles_self fun _ => h.not_hooked List.mem_cons_self hp
  rw [Forest.orphan_fst]
  suffices cut : Cut _ ⟨_, _, changing⟩ child n n.cutOff from h.cut sound cut
  refine ⟨found, ?_, rfl, rfl, rfl, .inl ⟨rfl, rfl, isView⟩, ?_, ?_, ?_, ?_, ?_⟩
  · rw [Forest.nodes_noteAll, Forest.getElem?_update, if_pos rfl, found]
    rfl
  · intro j k other hk
    rw [Forest.nodes_noteAll, Forest.getElem?_update, if_neg (Ne.symm other)] at hk
    exact ⟨k, hk, spared hk⟩
  · intro j p other hp
    rw [Forest.nodes_noteAll, Forest.getElem?_update, if_neg (Ne.symm other)]
    exact ⟨p, hp, spared hp⟩
  · intro source' r event hmem
    rcases List.mem_append.1 hmem with hmem | hmem
    · exact .inr (exists_of_deliver_mem_release hmem)
    · exact .inl (List.mem_cons_of_mem _ hmem)
  · intro r hr
    exact List.mem_append_left _ (List.mem_append_left _ (List.mem_map.2 ⟨r, hr, rfl⟩))
  · intro source' token' child' other hmem
    rcases List.mem_cons.1 hmem with same | hmem
    · cases same
      exact absurd rfl other
    · exact List.mem_append_right _ hmem

/-- Destroying a node keeps links: it leaves its parent. -/
theorem Linked.bury {id : NodeId} {n : Node α} (sound : f.Sound)
    (h : Linked ⟨f, tasks, changing⟩) (held : Held ⟨f, tasks, changing⟩)
    (found : f.available? id = some n)
    (told : ∀ {source : NodeId} {r : Registration α} {event : Event},
      .deliver source r event ∈ new → .deliver source r event ∈ tasks ∨
        source = id ∧ event = .destroyed ∧ r ∈ n.registrations)
    (tell : ∀ r ∈ n.registrations, .deliver id r .destroyed ∈ new)
    (kept : ∀ {source : NodeId} {token : Token} {child : NodeId}, child ≠ id →
      .deliver source ⟨token, .view child⟩ .destroyed ∈ tasks →
        .deliver source ⟨token, .view child⟩ .destroyed ∈ new) :
    Linked ⟨(f.bury id n).1, new, changing⟩ := by
  obtain ⟨found, lent⟩ := Option.filter_eq_some_iff.1 found
  have unchanged := held.changing_ne found lent
  -- Only its parent has registered the node, and under the token of the link only the node.
  have parent : ∀ {j : NodeId} {p : Node α} {token : Token}, f.nodes[j]? = some p →
      ⟨token, .view id⟩ ∈ p.registrations →
        n.role = .view (some ⟨j, token⟩) ∧ f.isAlive j = true := by
    intro j p token hp hook
    obtain ⟨-, present, v, hv, role⟩ := h.hooked hp hook
    obtain rfl : n = v := Option.some.inj (found.symm.trans hv)
    exact ⟨role, held.isAlive hp present⟩
  have own : ∀ {link : Link} {p : Node α} {child : NodeId}, n.role = .view (some link) →
      f.nodes[link.parent]? = some p → ⟨link.token, .view child⟩ ∈ p.registrations →
        child = id := by
    intro link p child role hp hook
    obtain ⟨-, -, ⟨q, hq, hook'⟩ | hmem⟩ := h.linked found role
    · obtain rfl : p = q := Option.some.inj (hp.symm.trans hq)
      cases (h.tokens hp).unique hook hook' rfl
      rfl
    · exact absurd hmem (h.not_ended hp hook _)
  have alike : ∀ {j : NodeId} {p : Node α}, j ≠ id → f.nodes[j]? = some p →
      ∃ k, (f.bury id n).1.nodes[j]? = some k ∧ p.Resembles (some id) k := by
    intro j p other hp
    obtain ⟨k, hk, ⟨same, -⟩ | ⟨-, rfl⟩⟩ := Forest.exists_update hp id Node.buried
    · exact absurd same.symm other
    rcases f.bury_fst id n with ⟨same, dead⟩ | ⟨link, role, same⟩
    · refine ⟨k, same ▸ hk, Node.resembles_self fun token hook => ?_⟩
      obtain ⟨role, alive⟩ := parent hp hook
      rw [dead _ role] at alive
      cases alive
    · obtain ⟨m, hm, ⟨rfl, rfl⟩ | ⟨elsewhere, rfl⟩⟩ := Forest.exists_update hk link.parent
        fun p => p.unsubscribe link.token
      · refine ⟨_, same ▸ hm, Node.resembles_unsubscribe (fun child hook => ?_) ?_⟩
        · rw [own role hp hook]
        · rintro token child hook ⟨⟩
          obtain ⟨again, -⟩ := parent hp hook
          have same := Option.some.inj (Role.view.inj (again.symm.trans role))
          exact congrArg Link.token same
      · refine ⟨m, same ▸ hm, Node.resembles_self fun token hook => ?_⟩
        obtain ⟨again, -⟩ := parent hp hook
        rw [role] at again
        cases again
        exact elsewhere rfl
  have after := Forest.getElem?_bury_self sound found
  have size := f.size_bury id n
  refine h.cut sound ⟨found, after, rfl, rfl, rfl, .inr ⟨rfl, rfl, unchanged⟩, fun other hk => ?_,
    alike, told, tell, kept⟩
  obtain ⟨inside, -⟩ := Array.getElem?_eq_some_iff.1 hk
  obtain ⟨k', hk', same⟩ := alike other (Array.getElem?_eq_getElem (size ▸ inside))
  obtain rfl := Option.some.inj (hk.symm.trans hk')
  exact ⟨_, Array.getElem?_eq_getElem (size ▸ inside), same⟩

/-! ## Nodes that are there -/

/-- A node that is there and no orphan is canonical or has a link. -/
theorem Linked.canonical_or_linked {s : Situation α} (h : s.Linked) {id : NodeId} {n : Node α}
    (found : s.forest.available? id = some n) (live : n.orphaned = false) :
    n.role = .canonical ∨ ∃ link, n.role = .view (some link) := by
  obtain ⟨found, lent⟩ := Option.filter_eq_some_iff.1 found
  cases role : n.role with
  | canonical => exact .inl rfl
  | view link =>
      cases link with
      | some link => exact .inr ⟨link, rfl⟩
      | none =>
          rcases (h.unlinked found).1 role with orphaned | gone
          · rw [live] at orphaned
            cases orphaned
          · rw [lent] at gone
            cases gone

/-- Between two commands a view with a link is registered with its parent, which is there and no
orphan. -/
theorem Linked.exists_parent (h : (quiet f).Linked) {id : NodeId} {v : Node α} {link : Link}
    (found : f.nodes[id]? = some v) (role : v.role = .view (some link)) :
    ∃ p, f.available? link.parent = some p ∧ p.orphaned = false ∧
      ⟨link.token, .view id⟩ ∈ p.registrations := by
  obtain ⟨-, -, hook⟩ := h.linked found role
  obtain ⟨p, hp, hook⟩ := hook.resolve_right List.not_mem_nil
  obtain ⟨live, present, -⟩ := h.hooked hp hook
  exact ⟨p, Option.filter_eq_some_iff.2 ⟨hp, present.resolve_right nofun⟩, live, hook⟩

end Situation

end SparseTensor
