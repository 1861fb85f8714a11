/-
# Scenes along runs

A scene goes on to be about the forest while a command is carried out: it changes as is said of
the command, and loses the nodes that listeners destroy meanwhile (`Situation.losses`).
-/
import SparseTensor.Proofs.Scenes

namespace SparseTensor

variable {α G : Type}

/-! ## What listeners destroy -/

/-- The node that an occurrence tells to be destroyed. -/
def Occurrence.lost? : Occurrence α → Option NodeId
  | .acted _ ⟨some id, _⟩ .destroyed => some id
  | _ => none

/-- The nodes that listeners have destroyed. -/
def lost (trace : List (Occurrence α)) : Finset NodeId :=
  (trace.filterMap Occurrence.lost?).toFinset

/-- The node that a task is to report destroyed. -/
def Task.lost? : Task α → Option NodeId
  | .report _ ⟨some id, _⟩ .destroyed => some id
  | _ => none

namespace Situation

/-- The nodes that listeners have begun to destroy. -/
def losses (s : Situation α) : Finset NodeId :=
  lost s.forest.trace ∪ (s.tasks.filterMap Task.lost?).toFinset

/-- Nothing is lost by deliveries. -/
@[simp] theorem filterMap_deliveries (source : NodeId) (event : Event)
    (registrations : List (Registration α)) :
    (Forest.deliveries source event registrations).filterMap Task.lost? = [] := by
  simp [Forest.deliveries, Task.lost?]

/-- A task that reports nothing may be done away with. -/
theorem losses_eq {f g : Forest α} {task : Task α} {new tasks : List (Task α)}
    {changing : Option NodeId} (trace : lost g.trace = lost f.trace) (task_eq : task.lost? = none)
    (new_eq : new.filterMap Task.lost? = []) :
    losses ⟨g, new ++ tasks, changing⟩ = losses ⟨f, task :: tasks, changing⟩ := by
  simp only [losses, trace, List.filterMap_append, new_eq, List.nil_append,
    List.filterMap_cons, task_eq]

/-- What has happened to listeners loses nothing unless it is a destruction. -/
theorem lost_record (f : Forest α) {o : Occurrence α} (h : o.lost? = none) :
    lost (f.record o).trace = lost f.trace := by
  simp [Forest.record, lost, h]

/-- An action that does not end with a destruction loses nothing. -/
theorem lost_acted (f : Forest α) (listener : α) (action : Action α) {outcome : Outcome}
    (other : outcome ≠ .destroyed) :
    lost (f.record (.acted listener action outcome)).trace = lost f.trace := by
  refine lost_record f ?_
  unfold Occurrence.lost?
  split
  · rename_i same
    cases same
    exact absurd rfl other
  · rfl

/-- What was to be reported is reported. -/
theorem losses_report (f : Forest α) (listener : α) (action : Action α) (outcome : Outcome)
    (tasks : List (Task α)) (changing : Option NodeId) :
    losses ⟨f.record (.acted listener action outcome), tasks, changing⟩ =
      losses ⟨f, .report listener action outcome :: tasks, changing⟩ := by
  have same : (Task.report listener action outcome).lost? =
      (Occurrence.acted listener action outcome).lost? := by
    obtain ⟨_ | id, deed⟩ := action <;> cases outcome <;> rfl
  simp only [losses, Forest.record, lost, List.filterMap_append, List.filterMap_cons,
    List.filterMap_nil, same]
  cases (Occurrence.acted listener action outcome).lost? <;> simp

/-- A destruction that begins reports nothing yet. -/
@[simp] theorem filterMap_bury (f : Forest α) (id : NodeId) (n : Node α) :
    (f.bury id n).2.filterMap Task.lost? = [] := by
  simp [Forest.bury, Task.lost?]

/-- The trace of a forest in which a destruction has begun. -/
theorem trace_bury (f : Forest α) (id : NodeId) (n : Node α) :
    (f.bury id n).1.trace = f.trace :=
  Forest.of_bury (P := fun g => g.trace = f.trace) rfl fun _ => rfl

end Situation

/-! ## Changes of single nodes -/

/-- A change of a node that keeps the cells of a canonical one shows nothing else. -/
theorem Figure.Draws.keep {figure : Figure} {n m : Node α} (h : figure.Draws n)
    (shape : m.shape = n.shape) (role : m.role = n.role ∨ m.role = n.role.unlinked)
    (cells : n.role = .canonical → m.cells = n.cells) : figure.Draws m := by
  cases figure with
  | canonical own values =>
      obtain ⟨canonical, rfl, rfl⟩ := h
      refine ⟨?_, shape, cells canonical⟩
      rcases role with same | same
      · exact same.trans canonical
      · rw [same, canonical]
        rfl
  | view own parent =>
      obtain ⟨isView, rfl, parents⟩ := h
      rcases role with same | same
      · exact ⟨same ▸ isView, shape, same ▸ parents⟩
      · refine ⟨by rw [same, Role.isView_unlinked, isView], shape, fun link linked => ?_⟩
        have none := congrArg Role.link? (same.symm.trans linked)
        rw [Role.link?_unlinked] at none
        cases none

namespace Portrays

variable {c : Scene} {f g : Forest α} {tasks new : List (Task α)} {changing : Option NodeId}

/-- Only the nodes are portrayed. -/
theorem of_nodes_eq (h : Portrays c ⟨f, tasks, changing⟩) (same : g.nodes = f.nodes) :
    Portrays c ⟨g, new, changing⟩ where
  size := h.size.trans (congrArg Array.size same).symm
  named := h.named
  drawn found := h.drawn (same ▸ found)
  gone found := h.gone (same ▸ found)
  orphaned found := h.orphaned (same ▸ found)

/-- Reading shows nothing else. -/
theorem reads (h : Portrays c ⟨f, tasks, changing⟩) (sound : f.Sound) (reads : f.Reads g) :
    Portrays c ⟨g, new, changing⟩ := by
  have back : ∀ {id : NodeId} {m : Node α}, g.nodes[id]? = some m → ∃ n, f.nodes[id]? = some n ∧
      m.shape = n.shape ∧ m.role = n.role ∧ m.available = n.available ∧
        m.orphaned = n.orphaned ∧ (n.role = .canonical → m.cells = n.cells) := by
    intro id m hm
    obtain ⟨n, hn, bare⟩ := Forest.exists_of_map_eq reads.bare.2 hm
    obtain ⟨k, hk, -, kept⟩ := reads.node hn
    obtain rfl : m = k := Option.some.inj (hm.symm.trans hk)
    exact ⟨n, hn, (congrArg Node.shape bare :), (congrArg Node.role bare :),
      (congrArg Node.available bare :), (congrArg Node.orphaned bare :),
      fun canonical => (kept (sound.canonical hn canonical)).2⟩
  constructor
  · have size := congrArg Array.size reads.bare.2
    simp only [Array.size_map] at size
    exact h.size.trans size.symm
  · exact h.named
  · intro id m hm
    obtain ⟨n, hn, shape, role, -, -, cells⟩ := back hm
    obtain ⟨figure, drawn, draws⟩ := h.drawn hn
    refine ⟨figure, drawn, ?_⟩
    cases figure with
    | canonical own values =>
        exact ⟨role.trans draws.1, shape.trans draws.2.1, (cells draws.1).trans draws.2.2⟩
    | view own parent =>
        exact ⟨role ▸ draws.1, shape.trans draws.2.1, role ▸ draws.2.2⟩
  · intro id m hm
    obtain ⟨n, hn, -, -, available, -⟩ := back hm
    rw [available]
    exact h.gone hn
  · intro id m hm lent orphaned
    obtain ⟨n, hn, -, -, available, same, -⟩ := back hm
    exact h.orphaned hn (available ▸ lent) (same ▸ orphaned)

/-- A change of a node shows nothing else if canonical nodes keep their cells, and views are
orphaned only where the scene says so. -/
theorem update (h : Portrays c ⟨f, tasks, changing⟩) {id : NodeId} {g : Node α → Node α}
    (shape : ∀ n, (g n).shape = n.shape)
    (role : ∀ n, (g n).role = n.role ∨ (g n).role = n.role.unlinked)
    (cells : ∀ n, f.nodes[id]? = some n → n.role = .canonical → (g n).cells = n.cells)
    (available : ∀ n, (g n).available = n.available)
    (orphaned : ∀ n, f.nodes[id]? = some n → n.available = true → (g n).orphaned = true →
      n.orphaned = true ∨ c.cells id = .error .orphaned) :
    Portrays c ⟨f.update id g, new, changing⟩ where
  size := h.size.trans (Forest.size_update f id g).symm
  named := h.named
  drawn := by
    intro j m hm
    obtain ⟨n, hn, ⟨rfl, rfl⟩ | ⟨-, rfl⟩⟩ := Forest.update_cases hm
    · obtain ⟨figure, drawn, draws⟩ := h.drawn hn
      exact ⟨figure, drawn, draws.keep (shape n) (role n) (cells n hn)⟩
    · exact h.drawn hn
  gone := by
    intro j m hm
    obtain ⟨n, hn, ⟨rfl, rfl⟩ | ⟨-, rfl⟩⟩ := Forest.update_cases hm
    · rw [available]
      exact h.gone hn
    · exact h.gone hn
  orphaned := by
    intro j m hm lent cut
    obtain ⟨n, hn, ⟨rfl, rfl⟩ | ⟨-, rfl⟩⟩ := Forest.update_cases hm
    · rw [available] at lent
      rcases orphaned n hn lent cut with was | said
      · exact h.orphaned hn lent was
      · exact said
    · exact h.orphaned hn lent cut

/-- A change of what is not portrayed shows nothing else. -/
theorem touch (h : Portrays c ⟨f, tasks, changing⟩) (id : NodeId) (g : Node α → Node α)
    (shape : ∀ n, (g n).shape = n.shape) (role : ∀ n, (g n).role = n.role)
    (cache : ∀ n, (g n).cache = n.cache) (available : ∀ n, (g n).available = n.available)
    (orphaned : ∀ n, (g n).orphaned = n.orphaned) :
    Portrays c ⟨f.update id g, new, changing⟩ := by
  refine h.update shape (fun n => .inl (role n)) (fun n _ _ => ?_) available
    fun n _ _ cut => .inl ((orphaned n) ▸ cut)
  unfold Node.cells
  rw [cache, shape]

/-- A node that is destroyed is lost. -/
theorem bury (h : Portrays c ⟨f, tasks, changing⟩) {id : NodeId} {n : Node α}
    (found : f.nodes[id]? = some n) (unchanged : changing ≠ some id) :
    Portrays (c.lose {id}) ⟨(f.bury id n).1, new, changing⟩ := by
  have inside : id < c.figures.size := h.size ▸ (Array.getElem?_eq_some_iff.1 found).1
  have buried : Portrays (c.lose {id}) ⟨f.update id Node.buried, tasks, changing⟩ := by
    refine ⟨h.size.trans (Forest.size_update f id _).symm, fun j hj => ?_, fun {j m} hm => ?_,
      fun {j m} hm => ?_, fun {j m} hm lent cut => ?_⟩
    · rcases Finset.mem_union.1 hj with hj | hj
      · exact h.named j hj
      · rwa [Finset.mem_singleton.1 hj]
    all_goals obtain ⟨k, hk, ⟨rfl, rfl⟩ | ⟨other, rfl⟩⟩ := Forest.update_cases hm
    · obtain ⟨figure, drawn, draws⟩ := h.drawn hk
      exact ⟨figure, drawn, draws.keep rfl (.inr rfl) fun _ => rfl⟩
    · exact h.drawn hk
    · simpa [Scene.lose, Node.buried] using unchanged
    · simpa [Scene.lose, Ne.symm other] using h.gone hk
    · cases lent
    · exact Scene.orphaned_lose (h.orphaned hk lent cut) {id}
  exact Forest.of_bury (P := fun g => Portrays (c.lose {id}) ⟨g, new, changing⟩)
    (buried.of_nodes_eq rfl) fun link => buried.touch link.parent
      (fun p => p.unsubscribe link.token) (fun _ => rfl) (fun _ => rfl) (fun _ => rfl)
      (fun _ => rfl) fun _ => rfl

/-- A view that is to be orphaned is an orphan in the scene. -/
theorem orphaned_of_ended (h : Portrays c ⟨f, tasks, changing⟩)
    (tidy : Situation.Tidy ⟨f, tasks, changing⟩) {source child : NodeId} {token : Token}
    {n : Node α} (found : f.nodes[child]? = some n) (lent : n.available = true)
    (live : n.orphaned = false) (hmem : .deliver source ⟨token, .view child⟩ .destroyed ∈ tasks) :
    c.cells child = .error .orphaned := by
  obtain ⟨younger, v, hv, isView, only⟩ := tidy.linked.awaited hmem
  obtain rfl : n = v := Option.some.inj (found.symm.trans hv)
  obtain ⟨m, hm, how⟩ := tidy.linked.ended hmem
  obtain ⟨figure, drawn, draws⟩ := h.drawn found
  have role : n.role = .view (some ⟨source, token⟩) := by
    have there := Option.filter_eq_some_iff.2 ⟨found, lent⟩
    rcases tidy.linked.canonical_or_linked there live with canonical | ⟨link, linked⟩
    · rw [canonical] at isView
      cases isView
    · rw [linked, only link linked]
  rw [Scene.cells_of_view ((draws.view role) ▸ drawn) younger]
  split
  · rfl
  · rename_i here
    -- The source is there, so it is an orphan that is lent out.
    have present : ¬ (m.available = false ∧ changing ≠ some source) := fun gone =>
      here ((h.gone hm).2 gone)
    have orphaned := how.resolve_right present
    cases available : m.available with
    | true => exact h.orphaned hm available orphaned
    | false =>
        obtain rfl : changing = some source := by
          by_contra unchanged
          exact present ⟨available, unchanged⟩
        obtain ⟨k, hk, canonical, -⟩ := tidy.held.changed rfl
        obtain rfl : m = k := Option.some.inj (hm.symm.trans hk)
        rw [(tidy.linked.unlinked hm).2 canonical] at orphaned
        cases orphaned

/-- A view that hears of a change shows nothing else: its cells are those of a node above it. -/
theorem ripple (h : Portrays c ⟨f, tasks, changing⟩)
    (linked : Situation.Linked ⟨f, tasks, changing⟩) {source child : NodeId} {token : Token}
    {event : Event} {n : Node α}
    (hmem : .deliver source ⟨token, .view child⟩ event ∈ tasks) :
    Portrays c ⟨(f.ripple child n).1, new, changing⟩ := by
  obtain ⟨-, v, hv, isView, -⟩ := linked.awaited hmem
  refine h.update (fun _ => rfl) (fun _ => .inl rfl) (fun m hm canonical => ?_) (fun _ => rfl)
    fun m _ _ cut => .inl cut
  obtain rfl : v = m := Option.some.inj (hv.symm.trans hm)
  rw [canonical] at isView
  cases isView

/-- A view that is cut off shows nothing else than the orphan that it is in the scene. -/
theorem orphan (h : Portrays c ⟨f, tasks, changing⟩)
    (tidy : Situation.Tidy ⟨f, tasks, changing⟩) {source child : NodeId} {token : Token}
    {n : Node α} (found : f.nodes[child]? = some n) (live : n.orphaned = false)
    (hmem : .deliver source ⟨token, .view child⟩ .destroyed ∈ tasks) :
    Portrays c ⟨(f.orphan child n).1, new, changing⟩ := by
  obtain ⟨-, v, hv, isView, -⟩ := tidy.linked.awaited hmem
  obtain rfl : n = v := Option.some.inj (found.symm.trans hv)
  have cutOff : Portrays c ⟨f.update child Node.cutOff, tasks, changing⟩ := by
    refine h.update (fun _ => rfl) (fun _ => .inr rfl) (fun m hm canonical => ?_) (fun _ => rfl)
      fun m hm lent _ => .inr ?_
    all_goals obtain rfl : n = m := Option.some.inj (found.symm.trans hm)
    · rw [canonical] at isView
      cases isView
    · exact h.orphaned_of_ended tidy found lent live hmem
  exact cutOff.of_nodes_eq rfl

/-- What a task does shows nothing else than that nodes are lost. -/
theorem does {task : Task α} (tidy : Situation.Tidy ⟨f, task :: tasks, changing⟩)
    (does : f.Does task g new)
    (h : Portrays (c.lose (Situation.losses ⟨f, task :: tasks, changing⟩))
      ⟨f, task :: tasks, changing⟩) :
    Portrays (c.lose (Situation.losses ⟨g, new ++ tasks, changing⟩))
      ⟨g, new ++ tasks, changing⟩ := by
  have sound := tidy.ordered.forest.sound
  have silent : task.lost? = none → lost g.trace = lost f.trace →
      new.filterMap Task.lost? = [] →
        Portrays (c.lose (Situation.losses ⟨f, task :: tasks, changing⟩))
          ⟨g, new ++ tasks, changing⟩ →
            Portrays (c.lose (Situation.losses ⟨g, new ++ tasks, changing⟩))
              ⟨g, new ++ tasks, changing⟩ := by
    intro quiet trace nothing portrays
    rwa [Situation.losses_eq trace quiet nothing]
  cases does with
  | @hear source token listener event actions =>
      refine silent rfl (Situation.lost_record f rfl) (by simp [Task.lost?]) ?_
      exact h.of_nodes_eq rfl
  | miss _ =>
      exact silent rfl rfl rfl (h.of_nodes_eq rfl)
  | @ripple source child token n found _ _ =>
      exact silent rfl rfl (by simp [Forest.ripple, Task.lost?])
        (h.ripple tidy.linked List.mem_cons_self)
  | @orphan source child token n found _ live =>
      exact silent rfl rfl (by simp [Forest.orphan, Task.lost?])
        (h.orphan tidy found live List.mem_cons_self)
  | @look g listener action outcome other reads =>
      have kept := Situation.lost_acted g listener action other
      refine silent rfl (kept.trans (congrArg lost reads.bare.1)) rfl ?_
      have read : Portrays _ ⟨_, tasks, _⟩ := h.reads sound reads
      exact read.of_nodes_eq rfl
  | @subscribe id n listener other action found =>
      refine silent rfl (Situation.lost_acted _ listener action (by rintro ⟨⟩)) rfl ?_
      generalize c.lose _ = d at h ⊢
      have subscribed : Portrays d ⟨f.update id fun n => n.subscribe (.listener other), tasks,
          changing⟩ :=
        h.touch id _ (fun _ => rfl) (fun _ => rfl) (fun _ => rfl) (fun _ => rfl) fun _ => rfl
      exact subscribed.of_nodes_eq rfl
  | @unsubscribe id n listener token found =>
      refine silent rfl (Situation.lost_acted _ listener _ (by rintro ⟨⟩)) rfl ?_
      generalize c.lose _ = d at h ⊢
      have left : Portrays d ⟨f.update id fun n => n.unsubscribe token, tasks, changing⟩ :=
        h.touch id _ (fun _ => rfl) (fun _ => rfl) (fun _ => rfl) (fun _ => rfl) fun _ => rfl
      exact left.of_nodes_eq rfl
  | @destroy id n listener found =>
      have more : Situation.losses ⟨(f.bury id n).1, ((f.bury id n).2 ++
          [.report listener ⟨some id, .destroy⟩ .destroyed]) ++ tasks, changing⟩ =
            Situation.losses ⟨f, .act listener ⟨some id, .destroy⟩ :: tasks, changing⟩ ∪ {id} := by
        simp only [Situation.losses, Situation.trace_bury, List.filterMap_append,
          Situation.filterMap_bury]
        simp [List.filterMap_cons, Task.lost?]
      rw [more, ← Scene.lose_lose]
      obtain ⟨present, lent⟩ := Option.filter_eq_some_iff.1 found
      exact h.bury present (tidy.held.changing_ne present lent)
  | @report listener action outcome =>
      rw [List.nil_append, Situation.losses_report]
      exact h.of_nodes_eq rfl
  | @release id =>
      refine silent rfl rfl rfl ?_
      exact h.touch id _ (fun _ => rfl) (fun _ => rfl) (fun _ => rfl) (fun _ => rfl) fun _ => rfl

/-- A new node is drawn beside the others. -/
theorem push (h : Portrays c (.quiet f)) {figure : Figure} {n : Node α}
    (nodes : g.nodes = f.nodes.push n) (draws : figure.Draws n) (lent : n.available = true)
    (live : n.orphaned = false) :
    Portrays { c with figures := c.figures.push figure } (.quiet g) := by
  have kept : ∀ {j : NodeId} {other : Figure}, c.figures[j]? = some other →
      (c.figures.push figure)[j]? = some other := by
    intro j other found
    obtain ⟨inside, rfl⟩ := Array.getElem?_eq_some_iff.1 found
    rw [Array.getElem?_push_lt inside]
  have size : (c.figures.push figure).size = g.nodes.size := by
    rw [nodes, Array.size_push, Array.size_push, h.size]
    rfl
  refine ⟨size, fun id gone => ?_, fun {j m} hm => ?_, fun {j m} hm => ?_,
    fun {j m} hm lent' cut => ?_⟩
  · rw [Array.size_push]
    exact Nat.lt_succ_of_lt (h.named id gone)
  all_goals rcases Forest.push_cases nodes hm with hm | ⟨rfl, rfl⟩
  · obtain ⟨other, drawn, draws⟩ := h.drawn hm
    exact ⟨other, kept drawn, draws⟩
  · refine ⟨figure, ?_, draws⟩
    exact (Array.getElem?_push ..).trans (if_pos h.size.symm)
  · exact h.gone hm
  · refine ⟨fun gone => ?_, fun gone => ?_⟩
    · exact absurd (h.named _ gone) (h.size ▸ Nat.lt_irrefl _)
    · rw [lent] at gone
      cases gone.1
  · exact Scene.orphaned_mono (c := c) (d := { c with figures := c.figures.push figure })
      (fun _ gone => gone) kept (h.orphaned hm lent' cut)
  · rw [live] at cut
    cases cut

/-- A value that is stored is drawn. -/
theorem storing (h : Portrays c (.quiet f)) {id : NodeId} {n : Node α} {value : Cache}
    {cells : Sparse} (found : f.available? id = some n) (canonical : n.role = .canonical)
    (held : value.isStale = false) (holds : value.Holds n.shape cells) :
    Portrays (c.change (.stored id cells)) (.storing f id value) := by
  obtain ⟨found, lent⟩ := Option.filter_eq_some_iff.1 found
  have figures : ∀ j, (c.change (.stored id cells)).figures[j]? =
      if id = j then c.figures[j]?.map (Figure.store cells) else c.figures[j]? :=
    fun j => Array.getElem?_modify
  have here : id ∉ c.gone := fun gone => by
    have taken := ((h.gone found).1 gone).1
    rw [lent] at taken
    cases taken
  refine ⟨?_, fun j gone => ?_, fun {j m} hm => ?_, fun {j m} hm => ?_,
    fun {j m} hm lent' cut => ?_⟩
  · simp only [Scene.change, Array.size_modify, Situation.storing, Forest.size_update]
    exact h.size
  · simp only [Scene.change, Array.size_modify]
    exact h.named j gone
  all_goals obtain ⟨k, hk, ⟨rfl, rfl⟩ | ⟨other, rfl⟩⟩ := Forest.update_cases hm
  · obtain rfl : n = k := Option.some.inj (found.symm.trans hk)
    obtain ⟨figure, drawn, draws⟩ := h.drawn found
    rw [draws.canonical canonical] at drawn
    refine ⟨.canonical n.shape cells, ?_, canonical, rfl, ?_⟩
    · rw [figures, if_pos rfl, drawn]
      rfl
    · exact Node.cells_eq (n := { n with cache := value, available := false }) holds
        (by simpa [Node.isFresh] using held)
  · obtain ⟨figure, drawn, draws⟩ := h.drawn hk
    exact ⟨figure, by rw [figures, if_neg other, drawn], draws⟩
  · exact ⟨fun gone => absurd gone here, fun gone => absurd rfl gone.2⟩
  · have kept := h.gone hk
    simp only [Scene.change, Situation.storing, Situation.quiet] at kept ⊢
    simpa [other] using kept
  · cases lent'
  · refine Scene.orphaned_mono (c := c) (d := c.change (.stored id cells)) (fun _ gone => gone)
      (fun {i shape parent} view => ?_) (h.orphaned hk lent' cut)
    rw [figures, view]
    split <;> rfl

/-- A scene goes on to be about the forest when a command begins, and nothing is lost. -/
theorem begin (h : Portrays c (.quiet f)) (sound : f.Sound) {touch : Touch α}
    {happening : Happening} {effect : Effect} (begins : f.Begins touch happening effect g) :
    Portrays (c.change happening) (g.begin effect) ∧ (g.begin effect).losses = lost f.trace := by
  have nothing : ∀ {f g : Forest α}, g.trace = f.trace →
      (Situation.quiet g).losses = lost f.trace := by
    intro f g trace
    simp [Situation.losses, Situation.quiet, trace]
  cases begins with
  | read reads => exact ⟨h.reads sound reads, nothing reads.bare.1⟩
  | @found _ shape cells isSet trace nodes =>
      exact ⟨h.push nodes ⟨rfl, rfl, rfl⟩ rfl rfl, nothing trace⟩
  | @branch _ parent p shape found live size trace nodes =>
      have registered : Portrays c
          (.quiet (f.update parent fun p => p.subscribe (.view f.nodes.size))) :=
        h.touch parent _ (fun _ => rfl) (fun _ => rfl) (fun _ => rfl) (fun _ => rfl) fun _ => rfl
      refine ⟨registered.push nodes ⟨rfl, rfl, ?_⟩ rfl rfl, nothing trace⟩
      rintro link ⟨⟩
      rfl
  | @listen id n listener found =>
      exact ⟨h.touch id _ (fun _ => rfl) (fun _ => rfl) (fun _ => rfl) (fun _ => rfl) fun _ => rfl,
        nothing rfl⟩
  | @leave id n token found =>
      exact ⟨h.touch id _ (fun _ => rfl) (fun _ => rfl) (fun _ => rfl) (fun _ => rfl) fun _ => rfl,
        nothing rfl⟩
  | @store _ id n value cells reads found role held holds =>
      have read : Portrays c (.quiet g) := h.reads sound reads
      refine ⟨read.storing found role held holds, ?_⟩
      simp [Forest.begin, Situation.losses, Situation.storing, Forest.update, reads.bare.1]
  | @bury id n found =>
      have present := (Option.filter_eq_some_iff.1 found).1
      simp only [Forest.begin, found]
      refine ⟨h.bury present (by rintro ⟨⟩), ?_⟩
      simp only [Situation.losses, Situation.burying, Situation.trace_bury,
        Situation.filterMap_bury]
      simp

/-- A node that was changed is there again. -/
theorem finish {id : NodeId} (h : Portrays c ⟨f, [], some id⟩)
    (tidy : Situation.Tidy ⟨f, [], some id⟩) :
    Portrays c (.quiet (f.update id fun n => { n with available := true })) := by
  obtain ⟨n, found, canonical, -⟩ := tidy.held.changed rfl
  refine ⟨h.size.trans (Forest.size_update f id _).symm, h.named, fun {j m} hm => ?_,
    fun {j m} hm => ?_, fun {j m} hm lent cut => ?_⟩
  all_goals obtain ⟨k, hk, ⟨rfl, rfl⟩ | ⟨other, rfl⟩⟩ := Forest.update_cases hm
  · obtain ⟨figure, drawn, draws⟩ := h.drawn hk
    exact ⟨figure, drawn, draws.keep rfl (.inl rfl) fun _ => rfl⟩
  · exact h.drawn hk
  · simpa using h.gone hk
  · simpa [Situation.quiet, other] using h.gone hk
  · obtain rfl : n = k := Option.some.inj (found.symm.trans hk)
    have live := (tidy.linked.unlinked found).2 canonical
    rw [live] at cut
    cases cut
  · exact h.orphaned hk lent cut

end Portrays

end SparseTensor
