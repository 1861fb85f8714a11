/-
# Views and the values of their parents

A view that holds an encoding has the cells of the node that it is registered with, unless it is
still to hear that these have changed (`Situation.Coherent`).  So between two commands, when
nothing is left to hear, every view shows what its parent shows.
-/
import SparseTensor.Proofs.TactfulRuns

namespace SparseTensor

variable {α G : Type}

namespace Situation

/-- A registered view holds no encoding, or it has the cells of its parent, or it is to hear of a
change. -/
def Coherent (s : Situation α) : Prop :=
  ∀ (id child : NodeId) (n v : Node α) (token : Token), s.forest.nodes[id]? = some n →
    ⟨token, .view child⟩ ∈ n.registrations → s.forest.nodes[child]? = some v →
      v.isFresh = true → n.isFresh = true ∧ v.cells = n.cells ∨
        .deliver id ⟨token, .view child⟩ .valueChanged ∈ s.tasks

variable {f g : Forest α} {tasks new : List (Task α)} {changing : Option NodeId}

/-- A change of a node that keeps its encodings and registers no view keeps coherence. -/
theorem Coherent.update (h : Coherent ⟨f, tasks, changing⟩) {now : Option NodeId} {id : NodeId}
    {g : Node α → Node α} (tame : Forest.Tame g) (cache : ∀ n, (g n).cache = n.cache)
    (kept : ∀ source token child, .deliver source ⟨token, .view child⟩ .valueChanged ∈ tasks →
      .deliver source ⟨token, .view child⟩ .valueChanged ∈ new) :
    Coherent ⟨f.update id g, new, now⟩ := by
  have alike : ∀ n, (g n).isFresh = n.isFresh ∧ (g n).cells = n.cells := by
    intro n
    unfold Node.isFresh Node.cells
    rw [cache, tame.shape]
    exact ⟨rfl, rfl⟩
  have back : ∀ {j : NodeId} {m : Node α}, (f.update id g).nodes[j]? = some m →
      ∃ n, f.nodes[j]? = some n ∧ m.isFresh = n.isFresh ∧ m.cells = n.cells ∧
        ∀ token child, ⟨token, .view child⟩ ∈ m.registrations →
          ⟨token, .view child⟩ ∈ n.registrations := by
    intro j m hm
    obtain ⟨n, hn, ⟨-, rfl⟩ | ⟨-, rfl⟩⟩ := Forest.update_cases hm
    · exact ⟨n, hn, (alike n).1, (alike n).2, tame.hooks n⟩
    · exact ⟨m, hn, rfl, rfl, fun _ _ hook => hook⟩
  intro j child m w token hm hook hw fresh
  obtain ⟨n, hn, freshness, cells, hooks⟩ := back hm
  obtain ⟨v, hv, freshness', cells', -⟩ := back hw
  rw [freshness, cells, cells']
  exact (h j child n v token hn (hooks token child hook) hv (freshness' ▸ fresh)).imp_right
    (kept j token child)

/-- A node that forgets what it has read, and lets its views know, keeps coherence. -/
theorem Coherent.forget (h : Coherent ⟨f, tasks, changing⟩) {id : NodeId} {g : Node α → Node α}
    (stale : ∀ n, (g n).isFresh = false)
    (told : ∀ n token child, f.nodes[id]? = some n → ⟨token, .view child⟩ ∈ (g n).registrations →
      .deliver id ⟨token, .view child⟩ .valueChanged ∈ new)
    (kept : ∀ source token child, child ≠ id →
      .deliver source ⟨token, .view child⟩ .valueChanged ∈ tasks →
        .deliver source ⟨token, .view child⟩ .valueChanged ∈ new) :
    Coherent ⟨f.update id g, new, changing⟩ := by
  intro j child m w token hm hook hw fresh
  obtain ⟨v, hv, ⟨-, rfl⟩ | ⟨other, rfl⟩⟩ := Forest.update_cases hw
  · rw [stale v] at fresh
    cases fresh
  obtain ⟨n, hn, ⟨rfl, rfl⟩ | ⟨-, rfl⟩⟩ := Forest.update_cases hm
  · exact .inr (told n token child hn hook)
  · exact (h j child m w token hn hook hv fresh).imp_right (kept j token child other.symm)

/-- Reading keeps coherence: a view takes over the cells of the node it is registered with. -/
theorem Coherent.reads (h : Coherent ⟨f, tasks, changing⟩) (linked : Linked ⟨f, tasks, changing⟩)
    (sound : f.Sound) (reads : f.Reads g) : Coherent ⟨g, tasks, changing⟩ := by
  induction reads with
  | refl => exact h
  | note _ _ ih => exact ih
  | @derive g id n c reads found fresh held holds ih =>
      have same : ({ n with cache := c } : Node α).cells = n.cells :=
        Node.cells_eq (n := { n with cache := c }) holds (by simpa [Node.isFresh] using held)
      have back : ∀ {j : NodeId} {m : Node α},
          (g.update id fun n => { n with cache := c }).nodes[j]? = some m →
            ∃ k, g.nodes[j]? = some k ∧ m.registrations = k.registrations ∧
              m.isFresh = k.isFresh ∧ m.cells = k.cells := by
        intro j m hm
        obtain ⟨k, hk, ⟨rfl, rfl⟩ | ⟨-, rfl⟩⟩ := Forest.update_cases hm
        · obtain rfl : n = k := Option.some.inj (found.symm.trans hk)
          exact ⟨n, hk, rfl, by simp [Node.isFresh, held] at fresh ⊢; exact fresh.symm ▸ rfl, same⟩
        · exact ⟨m, hk, rfl, rfl, rfl⟩
      intro j child m w token hm hook hw fresh
      obtain ⟨k, hk, registrations, freshness, cells⟩ := back hm
      obtain ⟨v, hv, -, freshness', cells'⟩ := back hw
      rw [freshness, cells, cells']
      exact ih j child k v token hk (registrations ▸ hook) hv (freshness' ▸ fresh)
  | @takeOver g id n p link reads found live stale role alive parent parentLive parentFresh ih =>
      have linked' := linked.of_resembles (Forest.resembles_of_bare_eq reads.bare.2)
      intro j child m w token hm hook hw fresh
      obtain ⟨v, hv, ⟨rfl, rfl⟩ | ⟨-, rfl⟩⟩ := Forest.update_cases hw
      · -- The view is registered with the parent that it took the cells from.
        obtain ⟨k, hk, same⟩ := Forest.update_cases hm
        have hook' : ⟨token, .view id⟩ ∈ k.registrations := by
          rcases same with ⟨-, rfl⟩ | ⟨-, rfl⟩ <;> exact hook
        obtain ⟨-, -, v', hv', role'⟩ := linked'.hooked hk hook'
        obtain rfl : n = v' := Option.some.inj (found.symm.trans hv')
        obtain rfl : link = ⟨j, token⟩ := Option.some.inj (Role.view.inj (role.symm.trans role'))
        obtain rfl : p = k := Option.some.inj (parent.symm.trans hk)
        have older := ((reads.sound sound).linked found role).1
        rcases same with ⟨rfl, -⟩ | ⟨-, rfl⟩
        · exact absurd older (Nat.lt_irrefl _)
        · exact .inl ⟨parentFresh, rfl⟩
      · obtain ⟨k, hk, ⟨rfl, rfl⟩ | ⟨-, rfl⟩⟩ := Forest.update_cases hm
        · obtain rfl : n = k := Option.some.inj (found.symm.trans hk)
          rcases ih id child n w token hk hook hv fresh with ⟨was, -⟩ | hmem
          · rw [stale] at was
            cases was
          · exact .inr hmem
        · exact ih j child m w token hk hook hv fresh

/-- Coherence is a matter of the nodes, and of the changes that are told. -/
theorem Coherent.of_nodes_eq (h : Coherent ⟨f, tasks, changing⟩) {now : Option NodeId}
    (same : g.nodes = f.nodes)
    (kept : ∀ source token child, .deliver source ⟨token, .view child⟩ .valueChanged ∈ tasks →
      .deliver source ⟨token, .view child⟩ .valueChanged ∈ new) : Coherent ⟨g, new, now⟩ := by
  intro id child n v token hn hook hv fresh
  exact (h id child n v token (same ▸ hn) hook (same ▸ hv) fresh).imp_right (kept id token child)

/-- Destroying a node keeps coherence. -/
theorem Coherent.bury (h : Coherent ⟨f, tasks, changing⟩) (id : NodeId) (n : Node α)
    (kept : ∀ source token child, .deliver source ⟨token, .view child⟩ .valueChanged ∈ tasks →
      .deliver source ⟨token, .view child⟩ .valueChanged ∈ new) :
    Coherent ⟨(f.bury id n).1, new, changing⟩ := by
  have buried : Coherent ⟨f.update id Node.buried, new, changing⟩ :=
    h.update Forest.tame_buried (fun _ => rfl) kept
  exact Forest.of_bury (P := fun g => Coherent ⟨g, new, changing⟩) buried fun link =>
    buried.update (Forest.tame_unsubscribe link.token) (fun _ => rfl) fun _ _ _ hmem => hmem

/-- What a task does keeps coherence. -/
theorem Coherent.does {task : Task α} (h : Coherent ⟨f, task :: tasks, changing⟩)
    (linked : Linked ⟨f, task :: tasks, changing⟩) (held : Held ⟨f, task :: tasks, changing⟩)
    (sound : f.Sound) (does : f.Does task g new) : Coherent ⟨g, new ++ tasks, changing⟩ := by
  -- A task that tells nobody of a change may be done away with.
  have kept : ∀ new : List (Task α),
      (∀ source token child, task ≠ .deliver source ⟨token, .view child⟩ .valueChanged) →
        ∀ source token child,
          .deliver source ⟨token, .view child⟩ .valueChanged ∈ task :: tasks →
            .deliver source ⟨token, .view child⟩ .valueChanged ∈ new ++ tasks := by
    intro new other source token child hmem
    rcases List.mem_cons.1 hmem with same | hmem
    · exact absurd same.symm (other source token child)
    · exact List.mem_append_right _ hmem
  -- A task of a view may be done away with once the view has forgotten what it has read.
  have others : ∀ (new : List (Task α)) {own : NodeId} {t : Token} {mine : NodeId} {event : Event},
      task = .deliver own ⟨t, .view mine⟩ event → ∀ source token child, child ≠ mine →
        .deliver source ⟨token, .view child⟩ .valueChanged ∈ task :: tasks →
          .deliver source ⟨token, .view child⟩ .valueChanged ∈ new ++ tasks := by
    intro new own t mine event is source token child other hmem
    rcases List.mem_cons.1 hmem with same | hmem
    · rw [is] at same
      cases same
      exact absurd rfl other
    · exact List.mem_append_right _ hmem
  cases does with
  | hear actions => exact h.of_nodes_eq rfl (kept _ nofun)
  | @miss source child token event deaf =>
      intro id other n v token' hn hook hv fresh
      rcases h id other n v token' hn hook hv fresh with same | hmem
      · exact .inl same
      · rcases List.mem_cons.1 hmem with same | hmem
        · cases same
          obtain ⟨-, -, w, hw, role⟩ := linked.hooked hn hook
          exact absurd deaf (linked.not_deaf held List.mem_cons_self hw role)
        · exact .inr hmem
  | @ripple source child token n found _ _ =>
      rw [Forest.ripple_fst]
      refine h.forget (fun _ => rfl) (fun m token' other hm hook => ?_) (others _ rfl)
      obtain rfl : n = m := Option.some.inj (found.symm.trans hm)
      exact List.mem_append_left _ (List.mem_append_left _ (List.mem_map.2 ⟨_, hook, rfl⟩))
  | @orphan source child token n found _ _ =>
      have orphaned : Coherent ⟨f.update child Node.cutOff, (f.orphan child n).2 ++ tasks,
          changing⟩ :=
        h.forget (fun _ => rfl) (fun _ _ _ _ hook => absurd hook List.not_mem_nil) (others _ rfl)
      exact orphaned.of_nodes_eq rfl fun _ _ _ hmem => hmem
  | look outcome _ reads => exact (h.reads linked sound reads).of_nodes_eq rfl (kept _ nofun)
  | @subscribe id n listener other action found =>
      have subscribed : Coherent ⟨f.update id fun n => n.subscribe (.listener other), tasks,
          changing⟩ := h.update (Forest.tame_subscribe other) (fun _ => rfl) (kept [] nofun)
      exact subscribed.of_nodes_eq rfl fun _ _ _ hmem => hmem
  | @unsubscribe id n listener token found =>
      have left : Coherent ⟨f.update id fun n => n.unsubscribe token, tasks, changing⟩ :=
        h.update (Forest.tame_unsubscribe token) (fun _ => rfl) (kept [] nofun)
      exact left.of_nodes_eq rfl fun _ _ _ hmem => hmem
  | @destroy id n listener found => exact h.bury id n (kept _ nofun)
  | report => exact h.of_nodes_eq rfl (kept _ nofun)
  | release =>
      exact h.update ⟨fun _ => rfl, fun _ => .inl rfl, fun _ _ _ h => h⟩ (fun _ => rfl)
        (kept _ nofun)

/-- Adding a node with which nobody is registered keeps coherence. -/
theorem Coherent.push (h : (quiet f).Coherent) (linked : (quiet f).Linked) {n : Node α}
    (nodes : g.nodes = f.nodes.push n) (registrations : n.registrations = []) :
    (quiet g).Coherent := by
  intro id child m v token hm hook hv fresh
  rcases Forest.push_cases nodes hm with hm | ⟨-, rfl⟩
  · obtain ⟨-, -, w, hw, -⟩ := linked.hooked hm hook
    obtain rfl : w = v := Option.some.inj ((Forest.getElem?_of_push nodes hw).symm.trans hv)
    exact h id child m w token hm hook hw fresh
  · rw [registrations] at hook
    cases hook

/-- Creating a view keeps coherence: the view has read nothing yet. -/
theorem Coherent.branch (h : (quiet f).Coherent) {parent : NodeId} {p : Node α} {shape : Shape}
    (nodes : g.nodes = (f.update parent fun p => p.subscribe (.view f.nodes.size)).nodes.push
      (.view shape ⟨parent, p.nextToken⟩)) : (quiet g).Coherent := by
  intro id child n v token hn hook hv fresh
  rcases Forest.push_cases nodes hv with hv | ⟨-, rfl⟩
  · obtain ⟨w, hw, same⟩ := Forest.update_cases hv
    have alike : w.isFresh = v.isFresh ∧ w.cells = v.cells := by
      rcases same with ⟨-, rfl⟩ | ⟨-, rfl⟩ <;> exact ⟨rfl, rfl⟩
    rw [← alike.2]
    rcases Forest.push_cases nodes hn with hn | ⟨-, rfl⟩
    · obtain ⟨k, hk, ⟨rfl, rfl⟩ | ⟨-, rfl⟩⟩ := Forest.update_cases hn
      · rcases List.mem_append.1 hook with hook | hook
        · exact h parent child k w token hk hook hw (alike.1.trans fresh)
        · cases List.mem_singleton.1 hook
          exact absurd (Array.getElem?_eq_some_iff.1 hw).1 (Nat.lt_irrefl _)
      · exact h id child n w token hk hook hw (alike.1.trans fresh)
    · cases hook
  · cases fresh

/-- Changing a canonical node keeps coherence: its views are about to hear of it. -/
theorem Coherent.storing (h : (quiet f).Coherent) (linked : (quiet f).Linked) {id : NodeId}
    {n : Node α} (found : f.nodes[id]? = some n) (role : n.role = .canonical) (value : Cache) :
    (Situation.storing f id value).Coherent := by
  have told : ∀ r ∈ n.registrations,
      .deliver id r .valueChanged ∈ (Situation.storing f id value).tasks := by
    intro r hr
    simp only [Situation.storing, found, Option.map_some, Option.getD_some]
    exact List.mem_map.2 ⟨r, hr, rfl⟩
  intro j child m w token hm hook hw fresh
  obtain ⟨k, hk, same⟩ := Forest.update_cases hm
  have hook' : ⟨token, .view child⟩ ∈ k.registrations := by
    rcases same with ⟨-, rfl⟩ | ⟨-, rfl⟩ <;> exact hook
  obtain ⟨v, hv, ⟨rfl, -⟩ | ⟨-, rfl⟩⟩ := Forest.update_cases hw
  · -- A canonical node is not registered as a view.
    obtain ⟨-, -, u, hu, view⟩ := linked.hooked hk hook'
    obtain rfl : n = u := Option.some.inj (found.symm.trans hu)
    rw [role] at view
    cases view
  · rcases same with ⟨rfl, -⟩ | ⟨-, rfl⟩
    · obtain rfl : n = k := Option.some.inj (found.symm.trans hk)
      exact .inr (told _ hook')
    · rcases h j child m w token hk hook hv fresh with same | hmem
      · exact .inl same
      · exact absurd hmem List.not_mem_nil

/-- What a command does before listeners run keeps coherence. -/
theorem coherent_begin (h : (quiet f).Coherent) (linked : (quiet f).Linked) (sound : f.Sound)
    {touch : Touch α} {happening : Happening} {effect : Effect}
    (begins : f.Begins touch happening effect g) : (g.begin effect).Coherent := by
  have same : ∀ (source : NodeId) (token : Token) (child : NodeId),
      Task.deliver source ⟨token, .view child⟩ .valueChanged ∈ ([] : List (Task α)) →
        Task.deliver source ⟨token, .view child⟩ .valueChanged ∈ ([] : List (Task α)) :=
    fun _ _ _ hmem => hmem
  cases begins with
  | read reads => exact h.reads linked sound reads
  | found isSet _ nodes => exact h.push linked nodes rfl
  | branch found live size _ nodes => exact h.branch nodes
  | @listen id n listener found =>
      exact h.update (Forest.tame_subscribe listener) (fun _ => rfl) same
  | @leave id n token found =>
      exact h.update (Forest.tame_unsubscribe token) (fun _ => rfl) same
  | @store _ id n value cells reads found role held holds =>
      have linked' := linked.of_resembles (Forest.resembles_of_bare_eq reads.bare.2)
      obtain ⟨found, -⟩ := Option.filter_eq_some_iff.1 found
      exact (h.reads linked sound reads).storing linked' found role value
  | @bury id n found =>
      simp only [Forest.begin, found]
      exact h.bury id n fun _ _ _ hmem => absurd hmem List.not_mem_nil

/-- Ending a change keeps coherence. -/
theorem Coherent.finish {id : NodeId} (h : Coherent ⟨f, [], some id⟩) :
    (quiet (f.update id fun n => { n with available := true })).Coherent :=
  h.update ⟨fun _ => rfl, fun _ => .inl rfl, fun _ _ _ h => h⟩ (fun _ => rfl)
    fun _ _ _ hmem => hmem

/-- Every tactful move keeps coherence. -/
theorem Coherent.next [RandomSource G] [LawfulRandomSource G] {s t : Situation α}
    {move : Move α G} (h : s.Coherent) (ordered : s.Ordered) (held : s.Held) (linked : s.Linked)
    (step : Next move s t) : t.Coherent := by
  have sound := ordered.forest.sound
  cases step with
  | call command begun =>
      obtain ⟨_, _, -, -, -, begins⟩ := Forest.begins_of_prelude sound begun
      exact coherent_begin h linked sound begins
  | refuse command failed =>
      exact h.reads linked sound (Forest.reads_of_prelude_error sound failed).2
  | @step react f task tasks changing =>
      exact h.does linked held sound (Forest.does_step sound react task)
  | finish => exact h.finish
  | forget => exact h.of_nodes_eq rfl fun _ _ _ hmem => hmem

end Situation

namespace Situation

variable {f : Forest α} {tasks : List (Task α)} {changing : Option NodeId}

/-- All that is kept along tactful runs. -/
structure Tidy (s : Situation α) : Prop where
  ordered : s.Ordered
  held : s.Held
  linked : s.Linked
  coherent : s.Coherent

/-- The forest without nodes is tidy. -/
theorem tidy_start : (quiet (.empty : Forest α)).Tidy where
  ordered := ordered_start
  held := linked_start.1
  linked := linked_start.2
  coherent := by
    intro id child n v token found
    simp [quiet, Forest.empty] at found

/-- A tactful step keeps situations tidy. -/
theorem Tidy.step {task : Task α} (h : Tidy ⟨f, task :: tasks, changing⟩)
    (tactful : task.Tactful f) (react : Reaction α) :
    Tidy ⟨(f.step react task).1, (f.step react task).2 ++ tasks, changing⟩ := by
  have sound := h.ordered.forest.sound
  have does := Forest.does_step sound react task
  exact ⟨h.ordered.does does, h.held.does does, h.linked.does sound h.held tactful does,
    h.coherent.does h.linked h.held sound does⟩

/-- Ending a change keeps situations tidy. -/
theorem Tidy.finish {id : NodeId} (h : Tidy ⟨f, [], some id⟩) :
    (quiet (f.update id fun n => { n with available := true })).Tidy :=
  ⟨h.ordered.finish, h.held.finish, h.linked.finish h.held, h.coherent.finish⟩

/-- Every tactful move keeps situations tidy. -/
theorem Tidy.next [RandomSource G] [LawfulRandomSource G] {s t : Situation α} {move : Move α G}
    (h : s.Tidy) (tactful : move.Tactful s) (step : Next move s t) : t.Tidy where
  ordered := h.ordered.next step
  held := (linked_next h.ordered h.held h.linked tactful step).1
  linked := (linked_next h.ordered h.held h.linked tactful step).2
  coherent := h.coherent.next h.ordered h.held h.linked step

end Situation

/-- All situations that tactful moves lead to are tidy. -/
theorem Reached.tidy [RandomSource G] [LawfulRandomSource G] {s : Situation α}
    (h : Reached (fun s (move : Move α G) => move.Tactful s) s) : s.Tidy := by
  induction h with
  | start => exact Situation.tidy_start
  | next _ tactful step ih => exact ih.next tactful step

end SparseTensor
