/-
# Walks

A walk goes through the registrations of a node in their order.  It lets listeners hear an event,
and where a view is registered it goes through the registrations of the view first
(`Forest.walk`).  It depends on the registrations that it meets and on nothing else
(`walk_congr`).

Between two commands the registrations of views are the links of the views, read downwards.  So a
walk from a node meets every listener of the node and of all views below it (`mem_walk_iff`), and
each of them once (`nodup_walk`).
-/
import SparseTensor.Proofs.ListenerReads

namespace SparseTensor

variable {α G : Type}

namespace Forest

/-! ## Walks and what tasks come to -/

/-- What the listeners of a node and of all views below it hear, depth first. -/
def walk (f : Forest α) (event : Event) (id : NodeId) : List (Occurrence α) :=
  match f.nodes[id]? with
  | none => []
  | some n =>
    n.registrations.flatMap fun r =>
      match r.target with
      | .listener listener => [.heard id r.token listener event]
      | .view child =>
        if _younger : id < child ∧ child < f.nodes.size then walk f event child else []
termination_by f.nodes.size - id
decreasing_by exact Nat.sub_lt_sub_left (_younger.1.trans _younger.2) _younger.1

/-- What listeners hear until a task is done, and all that it leads to, if they do nothing. -/
def told (f : Forest α) : Task α → List (Occurrence α)
  | .deliver source ⟨token, .listener listener⟩ event => [.heard source token listener event]
  | .deliver source ⟨_, .view child⟩ event =>
    if source < child ∧ child < f.nodes.size then f.walk event child else []
  | _ => []

variable {f g : Forest α} {event : Event} {id : NodeId} {n : Node α}

/-- A walk is what the deliveries of a node come to. -/
theorem walk_eq (found : f.nodes[id]? = some n) :
    f.walk event id = (deliveries id event n.registrations).flatMap f.told := by
  unfold walk
  rw [found, deliveries, List.flatMap_map]
  refine List.flatMap_congr fun r _ => ?_
  obtain ⟨token, target⟩ := r
  cases target with
  | listener listener => rfl
  | view child => simp [told]

/-- What a walk comes to is a matter of the registrations of nodes that it can meet. -/
theorem walk_congr (size : g.nodes.size = f.nodes.size) (met : NodeId → Prop)
    (same : ∀ j, met j →
      g.nodes[j]?.map Node.registrations = f.nodes[j]?.map Node.registrations)
    (closed : ∀ j n token child, met j → f.nodes[j]? = some n →
      ⟨token, .view child⟩ ∈ n.registrations → met child)
    (start : met id) : g.walk event id = f.walk event id := by
  -- Views that are met are younger, so the induction is on the number of younger nodes.
  induction left : f.nodes.size - id using Nat.strongRecOn generalizing id with
  | ind left ih =>
      have here := same id start
      cases found : f.nodes[id]? with
      | none =>
          rw [found, Option.map_none, Option.map_eq_none_iff] at here
          unfold walk
          rw [found, here]
      | some n =>
          rw [found, Option.map_some, Option.map_eq_some_iff] at here
          obtain ⟨m, hm, registrations⟩ := here
          rw [walk_eq found, walk_eq hm, registrations]
          refine List.flatMap_congr fun t ht => ?_
          obtain ⟨⟨token, target⟩, hr, rfl⟩ := List.mem_map.1 ht
          cases target with
          | listener listener => rfl
          | view child =>
              simp only [told, size]
              split
              · rename_i younger
                have closer := Nat.sub_lt_sub_left (younger.1.trans younger.2) younger.1
                exact ih _ (left ▸ closer) (closed id n token child start found hr) rfl
              · rfl

/-! ## Ways up are walks down -/

/-- Nodes above are older. -/
theorem Above.le (sound : f.Sound) {a : NodeId} (h : f.Above id a) : a ≤ id := by
  induction h with
  | here => exact Nat.le_refl _
  | up found role _ ih => exact ih.trans (sound.linked found role).1.le

/-- There is one way up. -/
theorem Above.linear {a b : NodeId} (ha : f.Above id a) (hb : f.Above id b) :
    f.Above a b ∨ f.Above b a := by
  induction ha with
  | here => exact .inl hb
  | up found role above ih =>
      cases hb with
      | here => exact .inr (.up found role above)
      | up found' role' hb =>
          obtain rfl := Option.some.inj (found.symm.trans found')
          rw [role] at role'
          cases role'
          exact ih hb

/-- The way up from a view goes to its parent. -/
theorem Above.of_view {a : NodeId} {link : Link} (h : f.Above id a) (other : a ≠ id)
    (found : f.nodes[id]? = some n) (role : n.role = .view (some link)) :
    f.Above link.parent a := by
  cases h with
  | here => exact absurd rfl other
  | up found' role' above =>
      obtain rfl := Option.some.inj (found.symm.trans found')
      rw [role] at role'
      cases role'
      exact above

end Forest

namespace Situation

/-- All that is kept along tactful runs, but for the cells that encodings denote. -/
structure Whole (s : Situation α) : Prop where
  ordered : s.Ordered
  held : s.Held
  linked : s.Linked

variable {f : Forest α} {tasks : List (Task α)} {changing : Option NodeId} {event : Event}
  {id : NodeId} {n : Node α}

/-- A tactful step keeps situations whole. -/
theorem Whole.step {task : Task α} (h : Whole ⟨f, task :: tasks, changing⟩)
    (tactful : task.Tactful f) (react : Reaction α) :
    Whole ⟨(f.step react task).1, (f.step react task).2 ++ tasks, changing⟩ := by
  have sound := h.ordered.forest.sound
  have does := Forest.does_step sound react task
  exact ⟨h.ordered.does does, h.held.does does, h.linked.does sound h.held tactful does⟩

/-- A tactful move keeps situations whole. -/
theorem Whole.next [RandomSource G] [LawfulRandomSource G] {s t : Situation α} {move : Move α G}
    (h : s.Whole) (tactful : move.Tactful s) (step : Next move s t) : t.Whole where
  ordered := h.ordered.next step
  held := (linked_next h.ordered h.held h.linked tactful step).1
  linked := (linked_next h.ordered h.held h.linked tactful step).2

/-- A view that is registered with a node is a younger node below it. -/
theorem Whole.child (h : Whole ⟨f, tasks, changing⟩) (found : f.nodes[id]? = some n) {token : Token}
    {child : NodeId} (hook : ⟨token, .view child⟩ ∈ n.registrations) :
    (id < child ∧ child < f.nodes.size) ∧
      ∃ v, f.nodes[child]? = some v ∧ v.role = .view (some ⟨id, token⟩) := by
  obtain ⟨-, -, v, hv, role⟩ := h.linked.hooked found hook
  exact ⟨⟨(h.ordered.forest.sound.linked hv role).1, (Array.getElem?_eq_some_iff.1 hv).1⟩,
    v, hv, role⟩

/-- What a view that is registered with a node comes to in a walk. -/
theorem Whole.told_view (h : Whole ⟨f, tasks, changing⟩) (found : f.nodes[id]? = some n)
    {token : Token} {child : NodeId} (hook : ⟨token, .view child⟩ ∈ n.registrations) :
    f.told (.deliver id ⟨token, .view child⟩ event) = f.walk event child :=
  if_pos (h.child found hook).1

/-- A walk from a view is part of the walk from its parent. -/
theorem Whole.walk_subset (h : (quiet f).Whole) {link : Link} (found : f.nodes[id]? = some n)
    (role : n.role = .view (some link)) : f.walk event id ⊆ f.walk event link.parent := by
  obtain ⟨-, -, hook⟩ := h.linked.linked found role
  obtain ⟨p, hp, hook⟩ : ∃ p, f.nodes[link.parent]? = some p ∧
      (⟨link.token, .view id⟩ : Registration α) ∈ p.registrations :=
    hook.resolve_right List.not_mem_nil
  intro o ho
  rw [Forest.walk_eq hp]
  refine List.mem_flatMap.2 ⟨_, List.mem_map.2 ⟨_, hook, rfl⟩, ?_⟩
  rwa [h.told_view hp hook]

/-- A walk meets the listeners of a node and of all nodes from which the way up leads there. -/
theorem Whole.mem_walk_iff (h : (quiet f).Whole) {o : Occurrence α} :
    o ∈ f.walk event id ↔ ∃ j m token listener, f.Above j id ∧ f.nodes[j]? = some m ∧
      ⟨token, .listener listener⟩ ∈ m.registrations ∧ o = .heard j token listener event := by
  constructor
  · intro ho
    induction left : f.nodes.size - id using Nat.strongRecOn generalizing id with
    | ind left ih =>
        cases found : f.nodes[id]? with
        | none =>
            unfold Forest.walk at ho
            simp [found] at ho
        | some n =>
            rw [Forest.walk_eq found] at ho
            obtain ⟨t, ht, ho⟩ := List.mem_flatMap.1 ho
            obtain ⟨⟨token, target⟩, hr, rfl⟩ := List.mem_map.1 ht
            cases target with
            | listener listener =>
                exact ⟨id, n, token, listener, .here, found, hr, List.mem_singleton.1 ho⟩
            | view child =>
                rw [h.told_view found hr] at ho
                obtain ⟨⟨younger, inside⟩, v, hv, role⟩ := h.child found hr
                have closer := Nat.sub_lt_sub_left (younger.trans inside) younger
                obtain ⟨j, m, token', listener, above, rest⟩ := ih _ (left ▸ closer) ho rfl
                exact ⟨j, m, token', listener, above.trans (.up hv role .here), rest⟩
  · rintro ⟨j, m, token, listener, above, hm, hr, rfl⟩
    have own : .heard j token listener event ∈ f.walk event j := by
      rw [Forest.walk_eq hm]
      refine List.mem_flatMap.2 ⟨_, List.mem_map.2 ⟨_, hr, rfl⟩, ?_⟩
      exact List.mem_singleton_self _
    -- from here on only the way up from `j` to `id` matters
    clear hm hr
    generalize Occurrence.heard j token listener event = o at own ⊢
    induction above with
    | here => exact own
    | up found role _ ih => exact ih (h.walk_subset found role own)

/-- What a walk meets at a registration of a node: the listener, or listeners of nodes from which
the way up leads to the view. -/
theorem Whole.mem_told (h : (quiet f).Whole) (found : f.nodes[id]? = some n) {r : Registration α}
    (hr : r ∈ n.registrations) {o : Occurrence α} (ho : o ∈ f.told (.deliver id r event)) :
    ∃ j token listener, o = .heard j token listener event ∧
      (j = id ∧ r.token = token ∨ ∃ child v, f.nodes[child]? = some v ∧
        v.role = .view (some ⟨id, r.token⟩) ∧ id < child ∧ f.Above j child) := by
  obtain ⟨token, target⟩ := r
  cases target with
  | listener listener =>
      exact ⟨id, token, listener, List.mem_singleton.1 ho, .inl ⟨rfl, rfl⟩⟩
  | view child =>
      rw [h.told_view found hr] at ho
      obtain ⟨⟨younger, -⟩, v, hv, role⟩ := h.child found hr
      obtain ⟨j, -, token', listener, above, -, -, same⟩ := h.mem_walk_iff.1 ho
      exact ⟨j, token', listener, same, .inr ⟨child, v, hv, role, younger, above⟩⟩

/-- A walk has nothing in common at two registrations of a node, as there is one way up. -/
theorem Whole.disjoint_told (h : (quiet f).Whole) (found : f.nodes[id]? = some n)
    {r s : Registration α} (hr : r ∈ n.registrations) (hs : s ∈ n.registrations)
    (other : r.token ≠ s.token) :
    List.Disjoint (f.told (.deliver id r event)) (f.told (.deliver id s event)) := by
  have sound := h.ordered.forest.sound
  have apart : ∀ {c d : NodeId} {v : Node α} {t : Token}, f.nodes[c]? = some v →
      v.role = .view (some ⟨id, t⟩) → id < d → c ≠ d → ¬ f.Above c d := by
    intro c d v t hv role younger different above
    exact Nat.not_lt.2 ((above.of_view different.symm hv role).le sound) younger
  intro o hor hos
  obtain ⟨j, token, listener, rfl, here⟩ := h.mem_told found hr hor
  obtain ⟨_, _, _, same, here'⟩ := h.mem_told found hs hos
  cases same
  rcases here with ⟨rfl, rfl⟩ | ⟨c, v, hv, role, younger, above⟩
  · rcases here' with ⟨-, same⟩ | ⟨d, _, _, _, younger, above⟩
    · exact other same.symm
    · exact Nat.not_lt.2 (above.le sound) younger
  · rcases here' with ⟨rfl, -⟩ | ⟨d, w, hw, role', younger', above'⟩
    · exact Nat.not_lt.2 (above.le sound) younger
    · have different : c ≠ d := by
        rintro rfl
        obtain rfl := Option.some.inj (hv.symm.trans hw)
        have same := Option.some.inj (Role.view.inj (role.symm.trans role'))
        exact other (congrArg Link.token same)
      -- of two views above one node, one is above the other, and so above its own parent
      rcases above.linear above' with up | up
      · exact apart hv role younger' different up
      · exact apart hw role' younger different.symm up

/-- A walk meets every registration once. -/
theorem Whole.nodup_walk (h : (quiet f).Whole) : (f.walk event id).Nodup := by
  induction left : f.nodes.size - id using Nat.strongRecOn generalizing id with
  | ind left ih =>
      cases found : f.nodes[id]? with
      | none =>
          unfold Forest.walk
          simp [found]
      | some n =>
          rw [Forest.walk_eq found, Forest.deliveries, List.flatMap_map, List.nodup_flatMap]
          constructor
          · rintro ⟨token, target⟩ hr
            cases target with
            | listener listener => exact List.nodup_singleton _
            | view child =>
                rw [h.told_view found hr]
                obtain ⟨⟨younger, inside⟩, -⟩ := h.child found hr
                exact ih _ (left ▸ Nat.sub_lt_sub_left (younger.trans inside) younger) rfl
          · refine (h.linked.tokens found).1.imp_of_mem fun hr hs earlier => ?_
            exact h.disjoint_told found hr hs (Nat.ne_of_lt earlier)

end Situation

end SparseTensor
