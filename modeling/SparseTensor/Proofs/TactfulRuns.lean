/-
# Tactful runs keep links

Creating nodes, changing values and telling listeners of it keep the correspondence of views and
registrations, and so does every tactful move of a run (`linked_next`).
-/
import SparseTensor.Proofs.Links

namespace SparseTensor

variable {α G : Type}

/-! ## Nodes after a view is created -/

namespace Forest

variable {f g : Forest α} {parent : NodeId} {p : Node α} {shape : Shape}

/-- A new view stands behind all other nodes. -/
theorem getElem?_branch_child
    (nodes : g.nodes = (f.update parent fun p => p.subscribe (.view f.nodes.size)).nodes.push
      (.view shape ⟨parent, p.nextToken⟩)) :
    g.nodes[f.nodes.size]? = some (.view shape ⟨parent, p.nextToken⟩) := by
  rw [nodes, Array.getElem?_push, if_pos (size_update f parent _).symm]

/-- The parent of a new view registers it. -/
theorem getElem?_branch_parent (found : f.nodes[parent]? = some p)
    (nodes : g.nodes = (f.update parent fun p => p.subscribe (.view f.nodes.size)).nodes.push
      (.view shape ⟨parent, p.nextToken⟩)) :
    g.nodes[parent]? = some (p.subscribe (.view f.nodes.size)) :=
  getElem?_of_push nodes (getElem?_update_self found _)

/-- When a view is created, all nodes but the view and its parent stay as they are. -/
theorem branch_cases (found : f.nodes[parent]? = some p)
    (nodes : g.nodes = (f.update parent fun p => p.subscribe (.view f.nodes.size)).nodes.push
      (.view shape ⟨parent, p.nextToken⟩)) {j : NodeId} {m : Node α}
    (hm : g.nodes[j]? = some m) :
    j = f.nodes.size ∧ m = .view shape ⟨parent, p.nextToken⟩ ∨
      j = parent ∧ m = p.subscribe (.view f.nodes.size) ∨ f.nodes[j]? = some m := by
  rcases push_cases nodes hm with hm | ⟨here, rfl⟩
  · obtain ⟨n, hn, ⟨rfl, rfl⟩ | ⟨-, rfl⟩⟩ := update_cases hm
    · obtain rfl := Option.some.inj (found.symm.trans hn)
      exact .inr (.inl ⟨rfl, rfl⟩)
    · exact .inr (.inr hn)
  · exact .inl ⟨here.trans (size_update f parent _), rfl⟩

end Forest

namespace Situation

variable {f g : Forest α} {tasks new : List (Task α)} {changing : Option NodeId}

/-- Adding a canonical node keeps links. -/
theorem Linked.push (h : (quiet f).Linked) {n : Node α} (nodes : g.nodes = f.nodes.push n)
    (role : n.role = .canonical) (live : n.orphaned = false)
    (registrations : n.registrations = []) : (quiet g).Linked where
  tokens := by
    intro j m hm
    rcases Forest.push_cases nodes hm with hm | ⟨-, rfl⟩
    · exact h.tokens hm
    · rw [Node.TokensOrdered, registrations]
      exact ⟨.nil, by simp⟩
  hooked := by
    intro j m token child hm hook
    rcases Forest.push_cases nodes hm with hm | ⟨-, rfl⟩
    · obtain ⟨live, present, v, hv, linked⟩ := h.hooked hm hook
      exact ⟨live, present, v, Forest.getElem?_of_push nodes hv, linked⟩
    · rw [registrations] at hook
      cases hook
  awaited hmem := absurd hmem List.not_mem_nil
  linked := by
    intro j m link hm linked
    rcases Forest.push_cases nodes hm with hm | ⟨-, rfl⟩
    · obtain ⟨lent, live, ⟨p, hp, hook⟩ | hmem⟩ := h.linked hm linked
      · exact ⟨lent, live, .inl ⟨p, Forest.getElem?_of_push nodes hp, hook⟩⟩
      · exact absurd hmem List.not_mem_nil
    · rw [role] at linked
      cases linked
  unlinked := by
    intro j m hm
    rcases Forest.push_cases nodes hm with hm | ⟨-, rfl⟩
    · exact h.unlinked hm
    · exact ⟨fun linked => by simp [role] at linked, fun _ => live⟩
  ended hmem := absurd hmem List.not_mem_nil

/-- Creating a view keeps links. -/
theorem Linked.branch (h : (quiet f).Linked) {parent : NodeId} {p : Node α} {shape : Shape}
    (found : f.available? parent = some p) (live : p.orphaned = false)
    (nodes : g.nodes = (f.update parent fun p => p.subscribe (.view f.nodes.size)).nodes.push
      (.view shape ⟨parent, p.nextToken⟩)) : (quiet g).Linked := by
  obtain ⟨found, lent⟩ := Option.filter_eq_some_iff.1 found
  have child := Forest.getElem?_branch_child nodes
  -- nodes that were there keep their roles and their registrations
  have forth : ∀ {j : NodeId} {n : Node α}, f.nodes[j]? = some n → ∃ m, g.nodes[j]? = some m ∧
      m.role = n.role ∧ ∀ r ∈ n.registrations, r ∈ m.registrations := by
    intro j n hn
    obtain ⟨m, hm, ⟨-, rfl⟩ | ⟨-, rfl⟩⟩ := Forest.exists_update hn parent fun p =>
      p.subscribe (.view f.nodes.size)
    · exact ⟨_, Forest.getElem?_of_push nodes hm, rfl, fun r hr => List.mem_append_left _ hr⟩
    · exact ⟨m, Forest.getElem?_of_push nodes hm, rfl, fun r hr => hr⟩
  constructor
  · intro j m hm
    obtain ⟨-, rfl⟩ | ⟨-, rfl⟩ | hn := Forest.branch_cases found nodes hm
    · exact ⟨.nil, by simp [Node.view, Node.canonical]⟩
    · exact (h.tokens found).subscribe _
    · exact h.tokens hn
  · intro j m token other hm hook
    have old : ∀ {n : Node α}, f.nodes[j]? = some n → ⟨token, .view other⟩ ∈ n.registrations →
        n.orphaned = false ∧ n.available = true ∧
          ∃ v, g.nodes[other]? = some v ∧ v.role = .view (some ⟨j, token⟩) := by
      intro n hn hook
      obtain ⟨live, present, v, hv, linked⟩ := h.hooked hn hook
      obtain ⟨w, hw, role, -⟩ := forth hv
      exact ⟨live, present.resolve_right (by simp [quiet]), w, hw, role.trans linked⟩
    obtain ⟨-, rfl⟩ | ⟨rfl, rfl⟩ | hn := Forest.branch_cases found nodes hm
    · cases hook
    · rcases List.mem_append.1 hook with hook | hook
      · obtain ⟨live, lent, view⟩ := old found hook
        exact ⟨live, .inl lent, view⟩
      · cases List.mem_singleton.1 hook
        exact ⟨live, .inl lent, _, child, rfl⟩
    · obtain ⟨live, lent, view⟩ := old hn hook
      exact ⟨live, .inl lent, view⟩
  · exact fun hmem => absurd hmem List.not_mem_nil
  · intro j m link hm linked
    have old : ∀ {n : Node α}, f.nodes[j]? = some n → n.role = .view (some link) →
        n.available = true ∧ n.orphaned = false ∧ ∃ q, g.nodes[link.parent]? = some q ∧
          ⟨link.token, .view j⟩ ∈ q.registrations := by
      intro n hn linked
      obtain ⟨lent, live, ⟨q, hq, hook⟩ | hmem⟩ := h.linked hn linked
      · obtain ⟨k, hk, -, kept⟩ := forth hq
        exact ⟨lent, live, k, hk, kept _ hook⟩
      · exact absurd hmem List.not_mem_nil
    obtain ⟨rfl, rfl⟩ | ⟨rfl, rfl⟩ | hn := Forest.branch_cases found nodes hm
    · cases linked
      refine ⟨rfl, rfl, .inl ⟨_, Forest.getElem?_branch_parent found nodes, ?_⟩⟩
      exact List.mem_append_right _ (List.mem_singleton_self _)
    · obtain ⟨lent, live, hook⟩ := old found linked
      exact ⟨lent, live, .inl hook⟩
    · obtain ⟨lent, live, hook⟩ := old hn linked
      exact ⟨lent, live, .inl hook⟩
  · intro j m hm
    obtain ⟨-, rfl⟩ | ⟨-, rfl⟩ | hn := Forest.branch_cases found nodes hm
    · exact ⟨by rintro ⟨⟩, by rintro ⟨⟩⟩
    · exact (h.unlinked found :)
    · exact h.unlinked hn
  · exact fun hmem => absurd hmem List.not_mem_nil

/-- Taking a canonical node from its owner to change it, or giving it back, keeps links. -/
theorem Linked.lend (h : Linked ⟨f, [], changing⟩) {now : Option NodeId} {id : NodeId}
    {n m : Node α} (before : f.nodes[id]? = some n) (after : g.nodes[id]? = some m)
    (others : ∀ j, j ≠ id → g.nodes[j]? = f.nodes[j]? ∧ changing ≠ some j)
    (canonical : n.role = .canonical) (role : m.role = n.role) (orphaned : m.orphaned = n.orphaned)
    (registrations : m.registrations = n.registrations) (nextToken : m.nextToken = n.nextToken)
    (present : m.available = true ∨ now = some id) : Linked ⟨g, [], now⟩ := by
  have forth : ∀ {j : NodeId} {k : Node α}, f.nodes[j]? = some k →
      ∃ p, g.nodes[j]? = some p ∧ p.role = k.role ∧ p.registrations = k.registrations := by
    intro j k hk
    by_cases here : j = id
    · subst here
      obtain rfl : n = k := Option.some.inj (before.symm.trans hk)
      exact ⟨m, after, role, registrations⟩
    · exact ⟨k, (others j here).1.trans hk, rfl, rfl⟩
  -- the node is no view itself, so all that matters is what its own views find
  have notView : ∀ {link : Option Link}, m.role ≠ .view link := by
    intro link view
    rw [role, canonical] at view
    cases view
  constructor
  · intro j k hk
    by_cases here : j = id
    · subst here
      obtain rfl : m = k := Option.some.inj (after.symm.trans hk)
      rw [Node.TokensOrdered, registrations, nextToken]
      exact h.tokens before
    · exact h.tokens ((others j here).1.symm.trans hk)
  · intro j k token child hk hook
    by_cases here : j = id
    · subst here
      obtain rfl : m = k := Option.some.inj (after.symm.trans hk)
      obtain ⟨live, -, v, hv, linked⟩ := h.hooked before (registrations ▸ hook)
      obtain ⟨w, hw, same, -⟩ := forth hv
      exact ⟨orphaned.trans live, present, w, hw, same.trans linked⟩
    · obtain ⟨live, lent, v, hv, linked⟩ := h.hooked ((others j here).1.symm.trans hk) hook
      obtain ⟨w, hw, same, -⟩ := forth hv
      exact ⟨live, .inl (lent.resolve_right (others j here).2), w, hw, same.trans linked⟩
  · exact fun hmem => absurd hmem List.not_mem_nil
  · intro j k link hk linked
    by_cases here : j = id
    · subst here
      obtain rfl : m = k := Option.some.inj (after.symm.trans hk)
      exact absurd linked notView
    · obtain ⟨lent, live, ⟨p, hp, hook⟩ | hmem⟩ := h.linked ((others j here).1.symm.trans hk) linked
      · obtain ⟨q, hq, -, same⟩ := forth hp
        exact ⟨lent, live, .inl ⟨q, hq, same ▸ hook⟩⟩
      · exact absurd hmem List.not_mem_nil
  · intro j k hk
    by_cases here : j = id
    · subst here
      obtain rfl : m = k := Option.some.inj (after.symm.trans hk)
      exact ⟨fun view => absurd view notView, fun _ =>
        orphaned.trans ((h.unlinked before).2 canonical)⟩
    · exact h.unlinked ((others j here).1.symm.trans hk)
  · exact fun hmem => absurd hmem List.not_mem_nil

/-- Changing a canonical node keeps links: it is there for its views. -/
theorem Linked.storing (h : (quiet f).Linked) {id : NodeId} {n : Node α}
    (found : f.available? id = some n) (canonical : n.role = .canonical) {value : Cache}
    (after : (Situation.storing f id value).forest.Sound) :
    (Situation.storing f id value).Linked := by
  obtain ⟨found, -⟩ := Option.filter_eq_some_iff.1 found
  have taken : (Situation.storing f id value).forest.nodes[id]? =
      some { n with cache := value, available := false } := Forest.getElem?_update_self found _
  have lent : Linked ⟨(Situation.storing f id value).forest, [], some id⟩ := by
    refine h.lend found taken (fun j other => ⟨?_, by rintro ⟨⟩⟩) canonical rfl rfl rfl rfl
      (.inr rfl)
    exact (Forest.getElem?_update f id j _).trans (if_neg other.symm)
  refine lent.agenda after (fun hmem => ?_) fun _ _ hmem => absurd hmem List.not_mem_nil
  obtain ⟨rfl, rfl, hook⟩ := exists_of_deliver_mem hmem
  rw [found] at hook
  exact .inr ⟨rfl, _, taken, hook⟩

/-- Ending a change keeps links. -/
theorem Linked.finish {id : NodeId} (h : Linked ⟨f, [], some id⟩) (held : Held ⟨f, [], some id⟩) :
    (quiet (f.update id fun n => { n with available := true })).Linked := by
  obtain ⟨n, found, canonical, -⟩ := held.changed rfl
  have after := Forest.getElem?_update_self found fun n => { n with available := true }
  refine h.lend found after (fun j other => ⟨?_, ?_⟩) canonical rfl rfl rfl rfl (.inl rfl)
  · exact (Forest.getElem?_update f id j _).trans (if_neg other.symm)
  · exact fun same => other (Option.some.inj same).symm

/-- A task that orphans no view may make room for tasks that deliver nothing. -/
theorem Linked.silent {task : Task α} (h : Linked ⟨f, task :: tasks, changing⟩) (sound : f.Sound)
    (nothing : ∀ source r event, .deliver source r event ∉ new)
    (spared : ∀ source token child, task ≠ .deliver source ⟨token, .view child⟩ .destroyed) :
    Linked ⟨f, new ++ tasks, changing⟩ := by
  refine h.agenda sound (fun hmem => ?_) fun _ _ hmem => ?_
  · rcases List.mem_append.1 hmem with hmem | hmem
    · exact absurd hmem (nothing _ _ _)
    · exact .inl (List.mem_cons_of_mem _ hmem)
  · rcases List.mem_cons.1 hmem with same | hmem
    · exact absurd same.symm (spared _ _ _)
    · exact List.mem_append_right _ hmem

/-- A view that passes a change on keeps links. -/
theorem Linked.ripple {source child : NodeId} {token : Token} {n : Node α}
    (h : Linked ⟨f, .deliver source ⟨token, .view child⟩ .valueChanged :: tasks, changing⟩)
    (sound : f.Sound) (found : f.nodes[child]? = some n) :
    Linked ⟨(f.ripple child n).1, (f.ripple child n).2 ++ tasks, changing⟩ := by
  have told : Linked ⟨f, (f.ripple child n).2 ++ tasks, changing⟩ := by
    refine h.agenda sound (fun hmem => ?_) fun _ _ hmem => ?_
    · rcases List.mem_append.1 hmem with hmem | hmem
      · obtain ⟨rfl, rfl, hook⟩ := exists_of_deliver_mem_release hmem
        exact .inr ⟨rfl, n, found, hook⟩
      · exact .inl (List.mem_cons_of_mem _ hmem)
    · rcases List.mem_cons.1 hmem with same | hmem
      · cases same
      · exact List.mem_append_right _ hmem
  rw [Forest.ripple_fst]
  refine told.of_resembles (Forest.resembles_update fun n _ => ?_)
  exact ⟨rfl, rfl, rfl, by simp [Node.outdated], fun h => h⟩

/-- What a tactful task does keeps links. -/
theorem Linked.does {task : Task α} (h : Linked ⟨f, task :: tasks, changing⟩) (sound : f.Sound)
    (held : Held ⟨f, task :: tasks, changing⟩) (tactful : task.Tactful f)
    (does : f.Does task g new) : Linked ⟨g, new ++ tasks, changing⟩ := by
  have nothing : ∀ source r event, Task.deliver source r event ∉ ([] : List (Task α)) :=
    fun _ _ _ => List.not_mem_nil
  cases does with
  | hear actions =>
      refine (h.silent sound (fun source r event hmem => ?_) (by rintro _ _ _ ⟨⟩)).of_resembles
        (Forest.resembles_of_bare_eq rfl)
      obtain ⟨_, -, same⟩ := List.mem_map.1 hmem
      cases same
  | miss deaf =>
      refine h.agenda sound (fun hmem => .inl (List.mem_cons_of_mem _ hmem)) fun hv role hmem => ?_
      rcases List.mem_cons.1 hmem with same | hmem
      · cases same
        exact absurd deaf (h.not_deaf held List.mem_cons_self hv role)
      · exact hmem
  | ripple found _ _ => exact h.ripple sound found
  | orphan found _ _ => exact h.orphan sound found
  | look outcome _ reads =>
      exact (h.silent sound nothing (by rintro _ _ _ ⟨⟩)).of_resembles
        (Forest.resembles_of_bare_eq reads.bare.2)
  | @subscribe id n listener other action found =>
      have alike : f.Resembles (f.update id fun n => n.subscribe (.listener other)) :=
        Forest.resembles_update fun n _ => n.resembles_subscribe other
      exact (h.silent sound nothing (by rintro _ _ _ ⟨⟩)).of_resembles (alike.record _)
  | @unsubscribe id n listener token found =>
      have alike : f.Resembles (f.update id fun n => n.unsubscribe token) :=
        Forest.resembles_update fun n hn => Node.resembles_unsubscribe
          (fun child hook => absurd hook (tactful n child hn)) (by rintro _ _ _ ⟨⟩)
      exact (h.silent sound nothing (by rintro _ _ _ ⟨⟩)).of_resembles (alike.record _)
  | @destroy id n listener found =>
      refine h.bury sound held found (fun hmem => ?_) (fun r hr => ?_) fun _ hmem => ?_
      · rw [List.append_assoc] at hmem
        rcases List.mem_append.1 hmem with hmem | hmem
        · exact .inr (exists_of_deliver_mem_release hmem)
        · rcases List.mem_cons.1 hmem with wrong | hmem
          · cases wrong
          · exact .inl (List.mem_cons_of_mem _ hmem)
      · simp only [Forest.bury, List.append_assoc]
        exact List.mem_append_left _ (List.mem_map.2 ⟨r, hr, rfl⟩)
      · rcases List.mem_cons.1 hmem with same | hmem
        · cases same
        · exact List.mem_append_right _ hmem
  | report =>
      exact (h.silent sound nothing (by rintro _ _ _ ⟨⟩)).of_resembles
        (Forest.resembles_of_bare_eq rfl)
  | @release id =>
      have alike : f.Resembles (f.update id fun n => { n with holders := n.holders - 1 }) :=
        Forest.resembles_update fun n _ => ⟨rfl, rfl, rfl, by simp, fun h => h⟩
      exact (h.silent sound nothing (by rintro _ _ _ ⟨⟩)).of_resembles alike

/-- What a tactful command does before listeners run keeps links. -/
theorem linked_begin (h : (quiet f).Linked) (sound : f.Sound) (held : (quiet f).Held)
    {touch : Touch α} {happening : Happening} {effect : Effect}
    (tactful : ∀ id token, touch = .leave id token → f.Harmless id token)
    (begins : f.Begins touch happening effect g) (ordered : (g.begin effect).Ordered) :
    (g.begin effect).Linked := by
  cases begins with
  | read reads => exact h.of_resembles (Forest.resembles_of_bare_eq reads.bare.2)
  | found isSet _ nodes => exact h.push nodes rfl rfl rfl
  | branch found live size _ nodes => exact h.branch found live nodes
  | @listen id n listener _ =>
      exact h.of_resembles (Forest.resembles_update fun n _ => n.resembles_subscribe listener)
  | @leave id n token _ =>
      exact h.of_resembles (Forest.resembles_update fun n hn => Node.resembles_unsubscribe
        (fun child hook => absurd hook (tactful id token rfl n child hn)) (by rintro _ _ _ ⟨⟩))
  | @store _ id n value cells reads found role _ _ =>
      have kept : (quiet g).Linked := h.of_resembles (Forest.resembles_of_bare_eq reads.bare.2)
      exact kept.storing found role ordered.forest.sound
  | @bury id n found =>
      simp only [Forest.begin, found]
      refine h.bury sound held found (fun hmem => ?_) (fun r hr => ?_) fun _ hmem => ?_
      · exact .inr (exists_of_deliver_mem_release hmem)
      · exact List.mem_append_left _ (List.mem_map.2 ⟨r, hr, rfl⟩)
      · exact absurd hmem List.not_mem_nil

/-- The forest without nodes has no links. -/
theorem linked_start : (quiet (.empty : Forest α)).Held ∧ (quiet (.empty : Forest α)).Linked := by
  have nothing : ∀ (id : NodeId) (n : Node α), (Forest.empty : Forest α).nodes[id]? ≠ some n := by
    simp [Forest.empty]
  constructor
  · exact ⟨fun found => absurd found (nothing _ _), fun changing => by cases changing⟩
  · exact ⟨fun found => absurd found (nothing _ _), fun found => absurd found (nothing _ _),
      fun hmem => absurd hmem List.not_mem_nil, fun found => absurd found (nothing _ _),
      fun found => absurd found (nothing _ _), fun hmem => absurd hmem List.not_mem_nil⟩

/-- Every tactful move keeps links. -/
theorem linked_next [RandomSource G] [LawfulRandomSource G] {s t : Situation α}
    {move : Move α G} (ordered : s.Ordered) (held : s.Held) (h : s.Linked)
    (tactful : move.Tactful s) (step : Next move s t) : t.Held ∧ t.Linked := by
  have after := ordered.next step
  cases step with
  | call command begun =>
      obtain ⟨_, _, -, -, -, begins⟩ := Forest.begins_of_prelude ordered.forest.sound begun
      exact ⟨held_begin held begins,
        linked_begin h ordered.forest.sound held tactful begins after⟩
  | refuse command failed =>
      have reads := (Forest.reads_of_prelude_error ordered.forest.sound failed).2
      exact ⟨held.of_bare_eq reads.bare.2 fun _ => rfl,
        h.of_resembles (Forest.resembles_of_bare_eq reads.bare.2)⟩
  | @step react f task tasks changing =>
      have does := Forest.does_step ordered.forest.sound react task
      exact ⟨held.does does, h.does ordered.forest.sound held (tactful task tasks rfl) does⟩
  | finish => exact ⟨held.finish, h.finish held⟩
  | forget => exact ⟨held.of_nodes_eq rfl, h.of_resembles (Forest.resembles_of_bare_eq rfl)⟩

end Situation

end SparseTensor
