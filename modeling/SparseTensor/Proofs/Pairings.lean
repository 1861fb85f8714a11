/-
# Links and registrations, one to one

As long as nobody removes the registration of a view by its token, every view that is there and
is no orphan has a link, and its parent has one entry for it, under the token of the link; and
there are no other entries for views (`Forest.Paired`).  In the middle of a run a view may
instead be about to hear that its parent is gone, which then has no entry for it
(`Situation.Paired`).

Tokens are given out in order by each node, whatever happens, so no number comes back
(`Course.succeeds`).
-/
import SparseTensor.Proofs.Roots
import SparseTensor.Proofs.LastEvents

namespace SparseTensor

variable {α G : Type}

/-! ## Entries -/

/-- Whether a registration is that of a view. -/
def Registration.isOf (child : NodeId) (r : Registration α) : Bool :=
  match r.target with
  | .view other => other == child
  | .listener _ => false

/-- All that is registered with a node for a view. -/
def Node.entries (n : Node α) (child : NodeId) : List (Registration α) :=
  n.registrations.filter (Registration.isOf child)

namespace Node

variable {n : Node α} {child : NodeId}

theorem mem_entries {r : Registration α} :
    r ∈ n.entries child ↔ r ∈ n.registrations ∧ r.target = .view child := by
  obtain ⟨token, target⟩ := r
  cases target <;> simp [entries, Registration.isOf]

/-- A view that is not registered has no entry. -/
theorem entries_eq_nil (nowhere : ∀ token, ⟨token, .view child⟩ ∉ n.registrations) :
    n.entries child = [] := by
  refine List.eq_nil_iff_forall_not_mem.2 fun r hr => ?_
  obtain ⟨token, target⟩ := r
  obtain ⟨hmem, rfl⟩ := mem_entries.1 hr
  exact nowhere token hmem

/-- A view that is registered under one token only has one entry, as tokens are given out once. -/
theorem entries_eq_singleton {token : Token} (ordered : n.TokensOrdered)
    (hook : ⟨token, .view child⟩ ∈ n.registrations)
    (only : ∀ other, ⟨other, .view child⟩ ∈ n.registrations → other = token) :
    n.entries child = [⟨token, .view child⟩] := by
  have distinct : n.registrations.Nodup := ordered.1.imp fun {a b} earlier same => by
    rw [same] at earlier
    exact Nat.lt_irrefl _ earlier
  refine List.perm_singleton.1 ((List.perm_ext_iff_of_nodup (distinct.filter _)
    (List.nodup_singleton _)).2 fun r => ?_)
  rw [List.mem_singleton]
  constructor
  · intro hr
    obtain ⟨other, target⟩ := r
    obtain ⟨hmem, rfl⟩ := mem_entries.1 hr
    rw [only other hmem]
  · rintro rfl
    exact mem_entries.2 ⟨hook, rfl⟩

end Node

/-! ## Pairs -/

/-- What is the case in every situation: entries for views belong to views with that link, and
links lead upwards. -/
structure Forest.Matched (f : Forest α) : Prop where
  /-- Every entry for a view belongs to a view that is there and no orphan, and has that link. -/
  owned : ∀ {id child : NodeId} {n : Node α} {token : Token}, f.nodes[id]? = some n →
    ⟨token, .view child⟩ ∈ n.registrations → ∃ v, f.available? child = some v ∧
      v.orphaned = false ∧ v.role = .view (some ⟨id, token⟩)
  /-- Orphans, canonical nodes and destroyed nodes have no link. -/
  unlinked : ∀ {id : NodeId} {n : Node α}, f.nodes[id]? = some n →
    n.orphaned = true ∨ n.role.isView = false ∨ n.available = false → n.role.link? = none
  /-- Tokens are in order, and below the next one of the node. -/
  tokens : ∀ {id : NodeId} {n : Node α}, f.nodes[id]? = some n → n.TokensOrdered
  /-- Links do not lead back. -/
  acyclic : ∀ {id : NodeId} {v : Node α} {link : Link}, f.nodes[id]? = some v →
    v.role = .view (some link) → ¬ f.Above link.parent id

/-- Links and the registrations of views between two commands, one to one: a view that is there
and no orphan has a link, and its parent, which is there and no orphan, has one entry for it,
under the token of the link. -/
structure Forest.Paired (f : Forest α) : Prop extends f.Matched where
  entered : ∀ {id : NodeId} {v : Node α}, f.available? id = some v → v.role.isView = true →
    v.orphaned = false → ∃ link p, v.role = .view (some link) ∧
      f.available? link.parent = some p ∧ p.orphaned = false ∧
        p.entries id = [⟨link.token, .view id⟩]

namespace Situation

/-- Links and the registrations of views in the middle of a run: the parent of a view has one
entry for it, under the token of the link, or it has no entry, as it is gone, and the view is
about to hear of that. -/
structure Paired (s : Situation α) : Prop extends s.forest.Matched where
  entered : ∀ {id : NodeId} {v : Node α}, s.forest.available? id = some v →
    v.role.isView = true → v.orphaned = false → ∃ link p, v.role = .view (some link) ∧
      s.forest.nodes[link.parent]? = some p ∧
        ((p.available = true ∨ s.changing = some link.parent) ∧ p.orphaned = false ∧
            p.entries id = [⟨link.token, .view id⟩] ∨
          (p.available = false ∨ p.orphaned = true) ∧ p.entries id = [] ∧
            .deliver link.parent ⟨link.token, .view id⟩ .destroyed ∈ s.tasks)

variable {s : Situation α}

/-- A view that has a link and is registered has one entry. -/
theorem Linked.entries_eq (h : s.Linked) {id : NodeId} {v p : Node α} {link : Link}
    (hv : s.forest.nodes[id]? = some v) (role : v.role = .view (some link))
    (hp : s.forest.nodes[link.parent]? = some p)
    (hook : ⟨link.token, .view id⟩ ∈ p.registrations) :
    p.entries id = [⟨link.token, .view id⟩] := by
  refine Node.entries_eq_singleton (h.tokens hp) hook fun other hook' => ?_
  obtain ⟨-, -, w, hw, role'⟩ := h.hooked hp hook'
  obtain rfl : v = w := Option.some.inj (hv.symm.trans hw)
  have same : (⟨link.parent, other⟩ : Link) = link :=
    Option.some.inj (Role.view.inj (role'.symm.trans role))
  exact congrArg Link.token same

/-- If views and registrations correspond, entries for views are matched by links. -/
theorem Linked.matched (h : s.Linked) (sound : s.forest.Sound) : s.forest.Matched where
  owned := by
    intro id child n token hn hook
    obtain ⟨-, -, v, hv, role⟩ := h.hooked hn hook
    obtain ⟨lent, live, -⟩ := h.linked hv role
    exact ⟨v, Option.filter_eq_some_iff.2 ⟨hv, lent⟩, live, role⟩
  unlinked := by
    intro id n hn fate
    rcases role : n.role with _ | _ | link
    · rfl
    · rfl
    · obtain ⟨lent, live, -⟩ := h.linked hn role
      simp [role, lent, live, Role.isView] at fate
  tokens := h.tokens
  acyclic := by
    intro id v link hv role above
    exact absurd (above.le sound) (Nat.not_le.2 (sound.linked hv role).1)

/-- If views and registrations correspond, each view has one entry, or is about to be orphaned. -/
theorem Linked.paired (h : s.Linked) (sound : s.forest.Sound) : s.Paired where
  toMatched := h.matched sound
  entered := by
    intro id v found isView live
    obtain ⟨hv, lent⟩ := Option.filter_eq_some_iff.1 found
    rcases role : v.role with _ | _ | link
    · rw [role] at isView
      cases isView
    · have ended := (h.unlinked hv).1 role
      simp [live, lent] at ended
    obtain ⟨-, -, ⟨p, hp, hook⟩ | pending⟩ := h.linked hv role
    · obtain ⟨parentLive, present, -⟩ := h.hooked hp hook
      exact ⟨link, p, rfl, hp, .inl ⟨present, parentLive, h.entries_eq hv role hp hook⟩⟩
    · obtain ⟨p, hp, gone⟩ := h.ended pending
      have nowhere : p.entries id = [] :=
        Node.entries_eq_nil fun token => h.not_hooked pending hp
      exact ⟨link, p, rfl, hp, .inr ⟨gone.symm.imp_left And.left, nowhere, pending⟩⟩

/-- When nobody is left to hear of anything, each view has one entry. -/
theorem Paired.quiet {f : Forest α} (h : (quiet f).Paired) : f.Paired where
  toMatched := h.toMatched
  entered := by
    intro id v found isView live
    obtain ⟨link, p, role, hp, ⟨present, parentLive, entry⟩ | ⟨-, -, pending⟩⟩ :=
      h.entered found isView live
    · have lent : p.available = true := present.resolve_right nofun
      exact ⟨link, p, role, Option.filter_eq_some_iff.2 ⟨hp, lent⟩, parentLive, entry⟩
    · cases pending

end Situation

/-! ## Numbers -/

section

variable [RandomSource G] [LawfulRandomSource G] {allowed : Situation α → Move α G → Prop}
  {s t : Situation α}

/-- Every move gives out tokens in order. -/
theorem Next.succeeds {move : Move α G} (sound : s.forest.Sound) (step : Next move s t) :
    s.forest.Succeeds t.forest := by
  cases step with
  | call command begun =>
      obtain ⟨_, _, -, -, -, begins⟩ := Forest.begins_of_prelude sound begun
      exact begins.succeeds
  | refuse command failed =>
      exact Forest.succeeds_of_bare_eq (Forest.reads_of_prelude_error sound failed).2.bare.2
  | step react => exact (Forest.does_step sound react _).succeeds
  | finish => exact Forest.succeeds_update fun n => Node.succeeds_of_sublist rfl (.refl _)
  | forget => exact Forest.succeeds_of_nodes_eq rfl

/-- No token is given out twice, whatever happens: what is registered later under a token that was
given out is what was registered under it before. -/
theorem Course.succeeds {news : List (Occurrence α)} (h : Course allowed s news t)
    (first : Reached allowed s) : s.forest.Succeeds t.forest := by
  induction h with
  | stay => exact Forest.succeeds_of_nodes_eq rfl
  | next before _ step ih =>
      exact ih.trans (step.succeeds (before.reached first).ordered.forest.sound)

/-- Links and the registrations of views correspond one to one wherever a run comes to, if listeners
and commands leave the registrations of views alone; and whatever happens, no number is given out
twice. -/
theorem links_pair_with_registrations
    (h : Reached (fun s (move : Move α G) => move.Tactful s) s) :
    s.Paired ∧ (∀ f, s = .quiet f → f.Paired) ∧
      ∀ news t, Course (fun _ (_ : Move α G) => True) s news t →
        ∀ (id : NodeId) (n : Node α), s.forest.nodes[id]? = some n →
          ∃ m, t.forest.nodes[id]? = some m ∧ n.nextToken ≤ m.nextToken ∧
            ∀ r ∈ m.registrations, r.token < n.nextToken → r ∈ n.registrations := by
  obtain ⟨ordered, -, linked, -⟩ := h.tidy
  have paired := linked.paired ordered.forest.sound
  refine ⟨paired, ?_, fun news t course id n hn => ?_⟩
  · rintro f rfl
    exact paired.quiet
  · have after := course.succeeds (h.mono fun _ _ _ => trivial)
    obtain ⟨m, hm, succeeds⟩ := after.forth hn
    refine ⟨m, hm, succeeds.nextToken, fun r hr given => ?_⟩
    exact (succeeds.registrations r hr).resolve_right (Nat.not_le.2 given)

end

/-- A node whose listener has left before a view of it was destroyed, and another view of it. -/
theorem links_pair_with_registrations_of_two_views :
    ∃ f : Forest Unit, Reached (fun s (move : Move Unit Generator) => move.Tactful s) (.quiet f) ∧
      f.Paired ∧ (f.nodes[0]?.map fun n => (n.nextToken, n.entries 1, n.entries 2)) =
        some (3, [], [⟨2, .view 2⟩]) := by
  have created : Reached (α := Unit) (G := Generator) (fun s move => move.Tactful s) _ :=
    Reached.start.next (by rintro _ _ ⟨⟩) (.call (.create [4]) rfl)
  have listened := created.next (by rintro _ _ ⟨⟩) (.call (.subscribe 0 ()) rfl)
  have viewed := listened.next (by rintro _ _ ⟨⟩) (.call (.view 0) rfl)
  have again := viewed.next (by rintro _ _ ⟨⟩) (.call (.view 0) rfl)
  have harmless : ∀ child : NodeId, (⟨0, .view child⟩ : Registration Unit) ∉
      [⟨0, .listener ()⟩, ⟨1, .view 1⟩, ⟨2, .view 2⟩] := by simp
  have left := again.next (by rintro _ _ ⟨⟩ _ child ⟨⟩; exact harmless child)
    (.call (.unsubscribe 0 0) rfl)
  have destroyed := left.next (by rintro _ _ ⟨⟩) (.call (.destroy 1) rfl)
  have released := destroyed.next (by rintro _ _ ⟨⟩; trivial) (.step fun _ _ _ => [])
  exact ⟨_, released, (links_pair_with_registrations released).2.1 _ rfl, rfl⟩

end SparseTensor
