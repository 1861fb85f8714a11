/-
# Tellings

If listeners do nothing when they hear an event, nothing else happens until everybody has heard of
it: every task on the agenda delivers the event or lets go of a node (`Situation.Telling`).  Views
that are to hear it are still linked to whom they hear it from, and none of them twice, so each of
them passes it on (`Forest.Tells`).

What has been heard, and what the tasks that are left come to, stay the same together
(`Telling.leads`).  So an event is heard as in the walk from where it begins, and
`events_of_turn` says which commands let listeners hear which events, and in which order.
-/
import SparseTensor.Proofs.Histories
import SparseTensor.Proofs.LastEvents
import SparseTensor.Proofs.Roots

namespace SparseTensor

variable {α G : Type}

/-- Listeners that do nothing when they hear an event. -/
def Silent (react : Reaction α) : Prop :=
  ∀ f listener event, react f listener event = []

/-- What a view becomes when it hears an event of its parent. -/
def Event.mark : Event → Node α → Node α
  | .valueChanged => Node.outdated
  | .destroyed => Node.cutOff

/-- A task that delivers an event, or lets go of a node. -/
inductive Task.Conveys (event : Event) : Task α → Prop
  | deliver (source : NodeId) (r : Registration α) : Conveys event (.deliver source r event)
  | release (id : NodeId) : Conveys event (.release id)

namespace Forest

/-- All that a task can do while an event is told. -/
inductive Tells (f : Forest α) (event : Event) : Task α → Forest α → List (Task α) → Prop
  | hear {source : NodeId} {token : Token} {listener : α} :
    Tells f event (.deliver source ⟨token, .listener listener⟩ event)
      (f.record (.heard source token listener event)) []
  | pass {source child : NodeId} {token : Token} {v : Node α} {g : Forest α} :
    f.nodes[child]? = some v → v.role = .view (some ⟨source, token⟩) → g.trace = f.trace →
      g.nodes = (f.update child event.mark).nodes →
        Tells f event (.deliver source ⟨token, .view child⟩ event) g
          (deliveries child event v.registrations ++ [.release child])
  | release {id : NodeId} :
    Tells f event (.release id) (f.update id fun n => { n with holders := n.holders - 1 }) []

/-- What is told goes on to be told. -/
theorem Tells.conveys {f g : Forest α} {event : Event} {task : Task α} {new : List (Task α)}
    (tells : f.Tells event task g new) : ∀ t ∈ new, t.Conveys event := by
  intro t ht
  cases tells with
  | hear => cases ht
  | pass _ _ _ _ =>
      rcases List.mem_append.1 ht with ht | ht
      · obtain ⟨r, -, rfl⟩ := List.mem_map.1 ht
        exact .deliver _ r
      · cases List.mem_singleton.1 ht
        exact .release _
  | release => cases ht

/-- What a task comes to is a matter of the walk from the view that it tells. -/
theorem told_congr {f g : Forest α} (size : g.nodes.size = f.nodes.size) {t : Task α}
    (same : ∀ source token child event, t = .deliver source ⟨token, .view child⟩ event →
      g.walk event child = f.walk event child) : g.told t = f.told t := by
  cases t with
  | deliver source r event =>
      obtain ⟨token, target⟩ := r
      cases target with
      | listener listener => rfl
      | view child => simp only [told, size, same source token child event rfl]
  | act _ _ | report _ _ _ | release _ => rfl

/-- What a task comes to is a matter of registrations. -/
theorem told_eq {f g : Forest α} (size : g.nodes.size = f.nodes.size)
    (same : ∀ j : NodeId,
      g.nodes[j]?.map Node.registrations = f.nodes[j]?.map Node.registrations) :
    g.told = f.told := by
  funext t
  refine told_congr size fun _ _ _ _ _ => ?_
  exact walk_congr size (fun _ => True) (fun j _ => same j) (fun _ _ _ _ _ _ _ => trivial)
    trivial

/-- A change of a node that keeps its registrations. -/
theorem registrations_update {f : Forest α} {id : NodeId} {g : Node α → Node α}
    (same : ∀ n, (g n).registrations = n.registrations) (j : NodeId) :
    (f.update id g).nodes[j]?.map Node.registrations = f.nodes[j]?.map Node.registrations := by
  rw [getElem?_update]
  split
  · cases f.nodes[j]? with
    | none => rfl
    | some n => exact congrArg some (same n)
  · rfl

end Forest

namespace Situation

/-- A situation in which an event is told, and nothing else is to be done. -/
structure Telling (event : Event) (s : Situation α) : Prop where
  whole : s.Whole
  orderly : s.Orderly
  conveys : ∀ t ∈ s.tasks, t.Conveys event
  /-- Views hear the event from their parents. -/
  due : ∀ {source : NodeId} {token : Token} {child : NodeId},
    .deliver source ⟨token, .view child⟩ event ∈ s.tasks →
      ∃ v, s.forest.nodes[child]? = some v ∧ v.role = .view (some ⟨source, token⟩)

section

variable {react : Reaction α} {event : Event} {f g : Forest α} {task : Task α}
  {tasks new : List (Task α)} {changing : Option NodeId}

/-- A task tells the event, or lets go of a node. -/
theorem Telling.tells (h : Telling event ⟨f, task :: tasks, changing⟩) (silent : Silent react) :
    f.Tells event task (f.step react task).1 (f.step react task).2 := by
  cases h.conveys task List.mem_cons_self with
  | deliver source r =>
      obtain ⟨token, target⟩ := r
      cases target with
      | listener listener =>
          have nothing : react (f.record (.heard source token listener event)) listener event =
              [] := silent _ _ _
          simp only [Forest.step, nothing, List.map_nil]
          exact .hear
      | view child =>
          obtain ⟨v, hv, role⟩ := h.due List.mem_cons_self
          obtain ⟨lent, live, -⟩ := h.whole.linked.linked hv role
          have younger := (h.whole.ordered.forest.sound.linked hv role).1
          have held : v.holders ≠ 0 := by
            have holders := h.whole.held.holders hv
            simp only [lent, true_or, if_true] at holders
            omega
          cases event with
          | valueChanged =>
              simp only [Forest.step, Forest.passOn, hv, held, if_false, younger, if_true]
              exact .pass hv role rfl rfl
          | destroyed =>
              simp only [Forest.step, Forest.passOn, hv, held, if_false, live,
                Bool.false_eq_true]
              exact .pass hv role rfl rfl
  | release id => exact .release

/-- Of the views that are to be orphaned, none is told twice. -/
theorem Telling.other {source : NodeId} {token : Token} {child : NodeId}
    (h : Telling .destroyed ⟨f, .deliver source ⟨token, .view child⟩ .destroyed :: tasks, changing⟩)
    {t : NodeId} {other : Token} {c : NodeId}
    (hmem : .deliver t ⟨other, .view c⟩ .destroyed ∈ tasks) : c ≠ child := by
  rintro rfl
  obtain ⟨v, hv, role⟩ := h.due List.mem_cons_self
  obtain ⟨w, hw, role'⟩ := h.due (List.mem_cons_of_mem _ hmem)
  obtain rfl := Option.some.inj (hv.symm.trans hw)
  have same := Option.some.inj (Role.view.inj (role.symm.trans role'))
  have apart := (List.pairwise_cons.1 h.orderly.apart).1 _ hmem
  exact apart (congrArg Link.parent same) (congrArg Link.token same)

/-- A view that has heard the event is out of the way of all that is left to do. -/
theorem Telling.clear {source : NodeId} {token : Token} {child : NodeId} {v : Node α}
    (h : Telling event ⟨f, .deliver source ⟨token, .view child⟩ event :: tasks, changing⟩)
    (hv : f.nodes[child]? = some v) {t : NodeId} {other : Token} {c : NodeId}
    (hmem : .deliver t ⟨other, .view c⟩ event ∈ Forest.deliveries child event v.registrations ++
      .release child :: tasks) : c = child → event = .valueChanged := by
  rintro rfl
  cases event with
  | valueChanged => rfl
  | destroyed =>
      rcases List.mem_append.1 hmem with hmem | hmem
      · obtain ⟨-, -, hook⟩ := exists_of_deliver_mem hmem
        exact absurd (h.whole.child hv hook).1.1 (Nat.lt_irrefl _)
      · rcases List.mem_cons.1 hmem with wrong | hmem
        · cases wrong
        · exact absurd rfl (h.other hmem)

/-- What is told goes on to be told. -/
theorem Telling.step (h : Telling event ⟨f, task :: tasks, changing⟩) (silent : Silent react) :
    Telling event ⟨(f.step react task).1, (f.step react task).2 ++ tasks, changing⟩ := by
  have tells := h.tells silent
  have tactful : task.Tactful f := by
    cases h.conveys task List.mem_cons_self <;> trivial
  have whole := h.whole.step tactful react
  have orderly := h.orderly.does (Forest.does_step h.whole.ordered.forest.sound react task)
  have later : ∀ {source token child}, .deliver source ⟨token, .view child⟩ event ∈ tasks →
      ∃ v, f.nodes[child]? = some v ∧ v.role = .view (some ⟨source, token⟩) := fun hmem =>
    h.due (List.mem_cons_of_mem _ hmem)
  generalize (f.step react task).1 = g at *
  generalize (f.step react task).2 = new at *
  refine ⟨whole, orderly, fun t ht => ?_, fun {source token child} hmem => ?_⟩
  · rcases List.mem_append.1 ht with ht | ht
    · exact tells.conveys t ht
    · exact h.conveys t (List.mem_cons_of_mem _ ht)
  · cases tells with
    | hear => exact later hmem
    | @release id =>
        obtain ⟨v, hv, role⟩ := later hmem
        obtain ⟨m, hm, ⟨-, rfl⟩ | ⟨-, rfl⟩⟩ := Forest.exists_update hv id
          fun n => { n with holders := n.holders - 1 }
        · exact ⟨_, hm, role⟩
        · exact ⟨_, hm, role⟩
    | @pass parent view own v _ hv role trace nodes =>
        rw [List.append_assoc] at hmem
        have clear := h.clear hv hmem
        have before : ∃ w, f.nodes[child]? = some w ∧ w.role = .view (some ⟨source, token⟩) := by
          rcases List.mem_append.1 hmem with hmem | hmem
          · obtain ⟨rfl, -, hook⟩ := exists_of_deliver_mem hmem
            exact (h.whole.child hv hook).2
          · rcases List.mem_cons.1 hmem with wrong | hmem
            · cases wrong
            · exact later hmem
        obtain ⟨w, hw, linked⟩ := before
        -- the view that has just heard the event is told again only if it keeps its link
        obtain ⟨m, hm, same⟩ := Forest.exists_update hw view event.mark
        refine ⟨m, nodes ▸ hm, ?_⟩
        rcases same with ⟨here, rfl⟩ | ⟨-, rfl⟩
        · obtain rfl := clear here.symm
          exact linked
        · exact linked

/-- What has been heard, and what the tasks that are left come to, stay the same together. -/
theorem Telling.trace_step (h : Telling event ⟨f, task :: tasks, changing⟩)
    (silent : Silent react) :
    (f.step react task).1.trace ++
        ((f.step react task).2 ++ tasks).flatMap (f.step react task).1.told =
      f.trace ++ (task :: tasks).flatMap f.told := by
  have tells := h.tells silent
  have conveys := tells.conveys
  generalize (f.step react task).1 = g at *
  generalize (f.step react task).2 = new at *
  cases tells with
  | @hear source token listener =>
      have same : (f.record (.heard source token listener event)).told = f.told :=
        Forest.told_eq rfl fun _ => rfl
      rw [same, List.nil_append, List.flatMap_cons, ← List.append_assoc]
      rfl
  | @release id =>
      have same : (f.update id fun n => { n with holders := n.holders - 1 }).told = f.told :=
        Forest.told_eq (Forest.size_update ..) (Forest.registrations_update fun _ => rfl)
      rw [same]
      rfl
  | @pass source child token v _ hv role trace nodes =>
      have size : g.nodes.size = f.nodes.size := by rw [nodes, Forest.size_update]
      have others : ∀ j, j ≠ child → g.nodes[j]? = f.nodes[j]? := by
        intro j other
        rw [nodes, Forest.getElem?_update, if_neg other.symm]
      have same : ∀ t ∈ Forest.deliveries child event v.registrations ++ .release child :: tasks,
          g.told t = f.told t := by
        intro t ht
        cases event with
        | valueChanged =>
            refine congrFun (Forest.told_eq size fun j => ?_) t
            rw [nodes]
            exact Forest.registrations_update (g := Event.valueChanged.mark) (fun _ => rfl) j
        | destroyed =>
            -- the view has lost its registrations, but the walks that are left do not meet it
            refine Forest.told_congr size fun origin token' c e is => ?_
            have conveyed : t.Conveys .destroyed := by
              rcases List.mem_append.1 ht with ht | ht
              · exact conveys t (List.mem_append_left _ ht)
              · rcases List.mem_cons.1 ht with rfl | ht
                · exact .release child
                · exact h.conveys t (List.mem_cons_of_mem _ ht)
            subst is
            obtain rfl : e = .destroyed := by
              cases conveyed
              rfl
            refine Forest.walk_congr size (· ≠ child)
              (fun j other => congrArg _ (others j other)) (fun j n token'' c' _ hn hook => ?_) ?_
            · rintro rfl
              exact h.whole.linked.not_hooked List.mem_cons_self hn hook
            · exact fun here => nomatch h.clear hv ht here
      have younger := (h.whole.ordered.forest.sound.linked hv role).1
      have inside := (Array.getElem?_eq_some_iff.1 hv).1
      -- what the view comes to is what its own registrations come to
      have own : f.told (.deliver source ⟨token, .view child⟩ event) =
          (Forest.deliveries child event v.registrations).flatMap f.told := by
        rw [← Forest.walk_eq hv]
        exact if_pos ⟨younger, inside⟩
      rw [trace, List.append_assoc, List.singleton_append, List.flatMap_congr same,
        List.flatMap_append, List.flatMap_cons, List.flatMap_cons, own]
      rfl

/-- Along a telling what has been heard, and what is left to be heard, stay the same together. -/
theorem Telling.leads {s t : Situation α} (h : Telling event s) (silent : Silent react)
    (leads : s.Leads react t) : Telling event t ∧
      t.forest.trace ++ t.tasks.flatMap t.forest.told =
        s.forest.trace ++ s.tasks.flatMap s.forest.told := by
  induction leads with
  | refl => exact ⟨h, rfl⟩
  | step _ ih =>
      obtain ⟨telling, balance⟩ := ih
      exact ⟨telling.step silent, (telling.trace_step silent).trans balance⟩

/-- At the end of a telling everybody has heard what there was to be heard. -/
theorem Telling.trace_eq {s : Situation α} (h : Telling event s) (silent : Silent react)
    {t : Forest α} (leads : s.Leads react ⟨t, [], s.changing⟩) :
    t.trace = s.forest.trace ++ s.tasks.flatMap s.forest.told := by
  rw [← (h.leads silent leads).2]
  exact (List.append_nil _).symm

end

/-! ## Where tellings begin -/

section

variable {f : Forest α} {id : NodeId} {n : Node α}

/-- The destruction of a node begins to be told as in the walk from the node. -/
theorem telling_burying (h : (quiet f).Whole) (after : (burying f id n).Whole)
    (orderly : (burying f id n).Orderly) (found : f.nodes[id]? = some n) :
    Telling .destroyed (burying f id n) ∧
      (burying f id n).tasks.flatMap (burying f id n).forest.told = f.walk .destroyed id := by
  have sound := h.ordered.forest.sound
  have told : (burying f id n).tasks =
      Forest.deliveries id .destroyed n.registrations ++ [.release id] := rfl
  refine ⟨⟨after, orderly, fun t ht => ?_, fun {source token child} hmem => ?_⟩, ?_⟩
  · rw [told] at ht
    rcases List.mem_append.1 ht with ht | ht
    · obtain ⟨r, -, rfl⟩ := List.mem_map.1 ht
      exact .deliver _ r
    · cases List.mem_singleton.1 ht
      exact .release _
  · obtain ⟨rfl, -, hook⟩ := exists_of_deliver_mem_release (told ▸ hmem)
    obtain ⟨⟨younger, -⟩, v, hv, role⟩ := h.child found hook
    exact ⟨v, (Forest.getElem?_bury_of_lt sound found younger).trans hv, role⟩
  · rw [told, List.flatMap_append, Forest.walk_eq found]
    refine (List.append_nil _).trans (List.flatMap_congr fun t ht => ?_)
    obtain ⟨r, hr, rfl⟩ := List.mem_map.1 ht
    refine Forest.told_congr (f.size_bury id n) fun source token child event is => ?_
    cases is
    refine Forest.walk_congr (f.size_bury id n) (id < ·)
      (fun j younger => congrArg _ (Forest.getElem?_bury_of_lt sound found younger))
      (fun j m token child younger hm hook => ?_) (h.child found hr).1.1
    exact Nat.lt_trans younger (h.child hm hook).1.1

/-- A change of a node begins to be told as in the walk from the node. -/
theorem telling_storing {value : Cache} (h : (quiet f).Whole) (after : (storing f id value).Whole)
    (orderly : (storing f id value).Orderly) (found : f.nodes[id]? = some n) :
    Telling .valueChanged (storing f id value) ∧
      (storing f id value).tasks.flatMap (storing f id value).forest.told =
        f.walk .valueChanged id := by
  have told : (storing f id value).tasks =
      Forest.deliveries id .valueChanged n.registrations := by
    simp [storing, found]
  refine ⟨⟨after, orderly, fun t ht => ?_, fun {source token child} hmem => ?_⟩, ?_⟩
  · rw [told] at ht
    obtain ⟨r, -, rfl⟩ := List.mem_map.1 ht
    exact .deliver _ r
  · obtain ⟨rfl, -, hook⟩ := exists_of_deliver_mem (told ▸ hmem)
    obtain ⟨⟨younger, -⟩, v, hv, role⟩ := h.child found hook
    refine ⟨v, ?_, role⟩
    have other : source ≠ child := Nat.ne_of_lt younger
    exact ((Forest.getElem?_update f source child _).trans (if_neg other)).trans hv
  · have same : (storing f id value).forest.told = f.told :=
      Forest.told_eq (Forest.size_update ..) (Forest.registrations_update fun _ => rfl)
    rw [told, same, Forest.walk_eq found]

/-- Reading keeps situations whole. -/
theorem Whole.reads {g : Forest α} (h : (quiet f).Whole) (reads : f.Reads g) : (quiet g).Whole where
  ordered := ordered_quiet (reads.ordered h.ordered.forest)
  held := h.held.of_bare_eq reads.bare.2 fun _ => rfl
  linked := h.linked.of_resembles (Forest.resembles_of_bare_eq reads.bare.2)

end

end Situation

/-! ## What commands let hear -/

/-- What an effect lets listeners hear. -/
def Effect.walk (f : Forest α) : Effect → List (Occurrence α)
  | .nothing => []
  | .store id _ => f.walk .valueChanged id
  | .bury id => f.walk .destroyed id

namespace Forest

/-- A walk is a matter of the bare nodes. -/
theorem Reads.walk {f g : Forest α} (reads : f.Reads g) (event : Event) (id : NodeId) :
    g.walk event id = f.walk event id := by
  have size : g.nodes.size = f.nodes.size := by
    simpa using congrArg Array.size reads.bare.2
  refine walk_congr size (fun _ => True) (fun j _ => ?_) (fun _ _ _ _ _ _ _ => trivial)
    trivial
  have same := congrArg (·[j]?) reads.bare.2
  simp only [Array.getElem?_map] at same
  simpa [Function.comp_def] using congrArg (Option.map Node.registrations) same

/-- When everybody has heard, the listeners in a walk have heard in its order. -/
theorem Begins.trace_of_leads {f g t : Forest α} {react : Reaction α} {touch : Touch α}
    {happening : Happening} {effect : Effect} (begins : f.Begins touch happening effect g)
    (whole : (Situation.quiet f).Whole) (after : effect ≠ .nothing → (g.begin effect).Whole)
    (orderly : (g.begin effect).Orderly) (silent : Silent react)
    (leads : (g.begin effect).Leads react ⟨t, [], (g.begin effect).changing⟩) :
    t.trace = f.trace ++ effect.walk f := by
  have same := begins.trace
  cases begins with
  | read _ | found _ _ _ | branch _ _ _ _ _ | listen _ | leave _ =>
      cases leads.eq_of_quiet
      exact same.trans (List.append_nil _).symm
  | @store _ id n value cells reads found _ _ _ =>
      have present := (Option.filter_eq_some_iff.1 found).1
      obtain ⟨telling, told⟩ :=
        Situation.telling_storing (whole.reads reads) (after nofun) orderly present
      have heard := telling.trace_eq silent leads
      rw [told, reads.walk] at heard
      exact heard.trans (congrArg (· ++ f.walk .valueChanged id) same)
  | @bury id n found =>
      have after := after nofun
      simp only [begin, found] at after orderly leads same
      have present := (Option.filter_eq_some_iff.1 found).1
      obtain ⟨telling, told⟩ := Situation.telling_burying whole after orderly present
      have heard := telling.trace_eq silent leads
      rw [told] at heard
      exact heard.trans (congrArg (· ++ f.walk .destroyed id) same)

variable [RandomSource G]

/-- The effect of a command that begins. -/
theorem effect_of_prelude {f g : Forest α} {command : Command α G} {answer : Answer G}
    {effect : Effect} (begun : command.prelude f = .ok (answer, effect) g) :
    match command with
    | .mutate id _ => ∃ value, effect = .store id value
    | .destroy id => effect = .bury id
    | _ => effect = .nothing := by
  cases command with
  | mutate id mutation =>
      obtain ⟨pair, _, -, rest⟩ := exists_of_bind_ok begun
      cases rest
      exact ⟨pair.1, rfl⟩
  | _ =>
      obtain ⟨_, _, -, rest⟩ := exists_of_bind_ok begun
      cases rest
      rfl

/-- The events that a command lets listeners hear, by its answer. -/
def events (f : Forest α) (command : Command α G) : Except Fault (Answer G) → List (Occurrence α)
  | .error _ => []
  | .ok _ =>
    match command with
    | .mutate id _ => f.walk .valueChanged id
    | .destroy id => f.walk .destroyed id
    | _ => []

/-- The events of a command are those of its effect. -/
theorem events_eq {f g : Forest α} {command : Command α G} {answer : Answer G} {effect : Effect}
    (begun : command.prelude f = .ok (answer, effect) g) :
    f.events command (.ok answer) = effect.walk f := by
  have kind := effect_of_prelude begun
  cases command with
  | mutate id mutation =>
      obtain ⟨value, rfl⟩ := kind
      rfl
  | _ =>
      cases kind
      rfl

/-- A walk goes depth first through the listeners of a node and of the views below it. -/
structure DepthFirst (f : Forest α) (event : Event) (id : NodeId) : Prop where
  /-- Registrations stand in the order in which they were made, and a view has its walk at the place
  of its own. -/
  order : ∀ n, f.nodes[id]? = some n →
    n.registrations.Pairwise (fun r s => r.token < s.token) ∧
      f.walk event id = n.registrations.flatMap fun r =>
        match r.target with
        | .listener listener => [.heard id r.token listener event]
        | .view child => f.walk event child
  /-- Nobody hears twice. -/
  nodup : (f.walk event id).Nodup
  /-- The listeners of the node and of all from which the way up leads to it hear, and nobody
  else. -/
  mem : ∀ o, o ∈ f.walk event id ↔ ∃ j m token listener, f.Above j id ∧
    f.nodes[j]? = some m ∧ ⟨token, .listener listener⟩ ∈ m.registrations ∧
      o = .heard j token listener event

end Forest

/-- Between two commands walks go depth first. -/
theorem Situation.Whole.depthFirst {f : Forest α} (h : (Situation.quiet f).Whole) (event : Event)
    (id : NodeId) : f.DepthFirst event id where
  order n found := by
    refine ⟨(h.linked.tokens found).1, ?_⟩
    rw [Forest.walk_eq found, Forest.deliveries, List.flatMap_map]
    refine List.flatMap_congr fun r hr => ?_
    obtain ⟨token, target⟩ := r
    cases target with
    | listener listener => rfl
    | view child => exact h.told_view found hr
  nodup := h.nodup_walk
  mem _ := h.mem_walk_iff

section

variable [RandomSource G] [LawfulRandomSource G]

/-- What a request lets listeners hear if they do nothing: a change goes depth first through the
listeners of the node and of all views below it, a destruction likewise, and everything else,
whatever fails among it, is heard by nobody. -/
theorem events_of_turn {allowed : Situation α → Move α G → Prop} {f : Forest α}
    (h : Reached allowed (.quiet f)) (inPlace : f.InPlace) {r : Request α G}
    (silent : Silent r.react) :
    (f.turn r).1.trace = f.trace ++ f.events r.command (f.turn r).1.answer ∧
      ∀ event id, f.DepthFirst event id := by
  have whole := h.whole inPlace
  have sound : f.Sound := whole.ordered.forest.sound
  refine ⟨?_, whole.depthFirst⟩
  cases begun : r.command.prelude f with
  | error fault g =>
      have reads := (Forest.reads_of_prelude_error sound begun).2
      rw [Forest.turn_of_error begun]
      exact reads.bare.1.trans (List.append_nil _).symm
  | ok pair g =>
      obtain ⟨answer, effect⟩ := pair
      obtain ⟨_, _, -, -, -, begins⟩ := Forest.begins_of_prelude sound begun
      obtain ⟨t, leads, ended⟩ := Forest.turn_of_ok begun
      have step : Next (.call r.command) (.quiet f) (g.begin effect) := .call r.command begun
      have orderly := h.orderly.next sound step
      rw [ended, Forest.events_eq begun]
      have finished : (Situation.finish ⟨t, [], (g.begin effect).changing⟩).trace = t.trace := by
        cases (g.begin effect).changing <;> rfl
      refine finished.trans (begins.trace_of_leads whole (fun busy => ?_) orderly silent leads)
      -- whoever removes a registration has no effect
      have tactful : Move.Tactful (.quiet f) (.call r.command) := by
        intro id token touch
        rw [touch] at begins
        cases begins
        exact absurd rfl busy
      exact whole.next tactful step

end

/-- A change of a node, which two listeners of the node hear, and one of a view in between, as the
view was created between the registrations of the two. -/
theorem events_around_view :
    ∃ f : Forest Nat, Reached (fun s (move : Move Nat Generator) => move.Tactful s) (.quiet f) ∧
      f.InPlace ∧
        (f.turn (G := Generator) ⟨.mutate 0 (.setSparse [1]), fun _ _ _ => []⟩).1.trace =
          [.heard 0 0 10 .valueChanged, .heard 1 0 11 .valueChanged,
            .heard 0 2 12 .valueChanged] := by
  let four : Shape := ⟨[4], by decide, by simp, by decide⟩
  let f : Forest Nat :=
    ⟨#[{ (Node.canonical four : Node Nat) with
          nextToken := 3
          registrations := [⟨0, .listener 10⟩, ⟨1, .view 1⟩, ⟨2, .listener 12⟩] },
        { (Node.view four ⟨0, 1⟩ : Node Nat) with
          nextToken := 1, registrations := [⟨0, .listener 11⟩] }], [], []⟩
  have created : Reached (α := Nat) (G := Generator) (fun s move => move.Tactful s) _ :=
    Reached.start.next (by rintro _ _ ⟨⟩) (.call (.create [4]) rfl)
  have first := created.next (by rintro _ _ ⟨⟩) (.call (.subscribe 0 10) rfl)
  have viewed := first.next (by rintro _ _ ⟨⟩) (.call (.view 0) rfl)
  have second := viewed.next (by rintro _ _ ⟨⟩) (.call (.subscribe 1 11) rfl)
  have third := second.next (by rintro _ _ ⟨⟩) (.call (.subscribe 0 12) rfl)
  have reached : Reached (G := Generator) (fun s move => move.Tactful s) (.quiet f) :=
    third.next (by trivial) .forget
  let r : Request Nat Generator := ⟨.mutate 0 (.setSparse [1]), fun _ _ _ => []⟩
  obtain ⟨heard, depthFirst⟩ := events_of_turn (r := r) reached reached.inPlace fun _ _ _ => rfl
  have answered : (f.turn r).1.answer = .ok .done := by
    obtain ⟨t, -, ended⟩ := Forest.turn_of_ok
      (show r.command.prelude f = .ok (.done, .store 0 (.ofSparse [1])) f from rfl)
    rw [ended]
  refine ⟨f, reached, reached.inPlace, ?_⟩
  rw [heard, answered]
  show f.walk .valueChanged 0 = _
  rw [((depthFirst .valueChanged 0).order _ rfl).2]
  show .heard 0 0 10 .valueChanged :: (f.walk .valueChanged 1 ++ [.heard 0 2 12 .valueChanged]) = _
  rw [((depthFirst .valueChanged 1).order _ rfl).2]
  rfl

end SparseTensor
