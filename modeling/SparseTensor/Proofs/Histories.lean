/-
# Histories

A history is a list of commands, each with the way in which listeners react while it is carried
out.  Played from the empty forest, it is answered as by the scenes that it goes through
(`play_eq`), whatever listeners do.  If they are blind, questions may be put in or left out
anywhere without any other answer or any event being another (`play_insert`).

All this is so as long as no registration of a view is removed by its token.
-/
import SparseTensor.Proofs.Portraits
import SparseTensor.Proofs.Veils
import SparseTensor.Session.Basic

namespace SparseTensor

variable {α G : Type}

/-! ## Runs of one situation -/

namespace Situation

/-- The situations that a situation leads to, one task after another. -/
inductive Leads (react : Reaction α) (s : Situation α) : Situation α → Prop
  | refl : Leads react s s
  | step {f : Forest α} {task : Task α} {tasks : List (Task α)} {changing : Option NodeId} :
    Leads react s ⟨f, task :: tasks, changing⟩ →
      Leads react s ⟨(f.step react task).1, (f.step react task).2 ++ tasks, changing⟩

/-- No registration of a view is removed by its token in any of these. -/
def TactfulRun (react : Reaction α) (s : Situation α) : Prop :=
  ∀ (t : Situation α) (task : Task α) (tasks : List (Task α)), s.Leads react t →
    t.tasks = task :: tasks → task.Tactful t.forest

variable {react : Reaction α} {s t : Situation α}

/-- Between two commands nothing is left to do. -/
theorem Leads.eq_of_quiet {f : Forest α} (h : (quiet f).Leads react t) : t = quiet f := by
  induction h with
  | refl => rfl
  | step _ ih => cases ih

/-- The end of the agenda is reached. -/
theorem Leads.complete (h : s.Leads react t) :
    s.Leads react ⟨t.forest.run react t.tasks, [], t.changing⟩ := by
  obtain ⟨f, tasks, changing⟩ := t
  simp only
  induction f, tasks using Forest.run.induct react with
  | case1 f =>
      rw [Forest.run]
      exact h
  | case2 f task tasks next _ ih =>
      rw [Forest.run]
      exact ih h.step

/-- All situations of a run lead to the same end. -/
theorem Leads.run_eq (h : s.Leads react t) :
    t.forest.run react t.tasks = s.forest.run react s.tasks := by
  induction h with
  | refl => rfl
  | step _ ih =>
      rw [← ih]
      conv => rhs; rw [Forest.run]

/-- Tactful runs are tidy. -/
theorem Leads.tidy (h : s.Leads react t) (tidy : s.Tidy) (tactful : s.TactfulRun react) :
    t.Tidy := by
  induction h with
  | refl => exact tidy
  | step leads ih => exact ih.step (tactful _ _ _ leads rfl) react

/-- Along tactful runs a scene goes on to be about the forest, but for what is lost. -/
theorem Leads.portrays {c : Scene} (h : s.Leads react t) (tidy : s.Tidy)
    (tactful : s.TactfulRun react) (portrays : Portrays (c.lose s.losses) s) :
    Portrays (c.lose t.losses) t := by
  induction h with
  | refl => exact portrays
  | step leads ih =>
      have here := leads.tidy tidy tactful
      exact ih.does here (Forest.does_step here.ordered.forest.sound react _)

/-- What is kept of a situation after which nobody is left to hear of anything. -/
theorem tidy_finish {c : Scene} {f : Forest α} {changing : Option NodeId}
    (tidy : Tidy ⟨f, [], changing⟩) (portrays : Portrays c ⟨f, [], changing⟩) :
    (quiet (finish ⟨f, [], changing⟩)).Tidy ∧
      Portrays c (.quiet (finish ⟨f, [], changing⟩)) ∧
        (finish ⟨f, [], changing⟩).trace = f.trace := by
  cases changing with
  | none => exact ⟨tidy, portrays, rfl⟩
  | some id => exact ⟨tidy.finish, portrays.finish tidy, rfl⟩

/-- Forests stay the same under the veil when a change ends. -/
theorem veiled_finish {f g : Forest α} (same : f.veiled = g.veiled) (changing : Option NodeId) :
    (finish ⟨f, [], changing⟩).veiled = (finish ⟨g, [], changing⟩).veiled := by
  cases changing with
  | none => exact same
  | some id =>
      refine Forest.veiled_update same id fun n m bare => ?_
      exact (congrArg (fun n : Node α => { n with available := true }) bare :)

/-- Alike situations lead to alike situations if listeners are blind. -/
theorem Alike.leads (blind : Blind react) {s' : Situation α} (same : s.Alike s')
    (ordered : s.Ordered) (ordered' : s'.Ordered) (h : s.Leads react t) :
    ∃ t', s'.Leads react t' ∧ t.Alike t' ∧ t.Ordered ∧ t'.Ordered := by
  induction h with
  | refl => exact ⟨s', .refl, same, ordered, ordered'⟩
  | @step f task tasks changing leads ih =>
      obtain ⟨⟨f', _, _⟩, leads', ⟨forest, rfl, rfl⟩, here, here'⟩ := ih
      obtain ⟨after, new⟩ :=
        Forest.veiled_step blind here.forest.sound here'.forest.sound forest task
      refine ⟨_, leads'.step, ⟨after, congrArg (· ++ tasks) new, rfl⟩, ?_, ?_⟩
      · exact here.does (Forest.does_step here.forest.sound react task)
      · exact here'.does (Forest.does_step here'.forest.sound react task)

theorem Alike.symm {s t : Situation α} (h : s.Alike t) : t.Alike s :=
  ⟨h.forest.symm, h.tasks.symm, h.changing.symm⟩

end Situation

/-! ## What can be seen under the veil -/

/-- What listeners have destroyed can be seen under the veil. -/
theorem lost_veiled (trace : List (Occurrence α)) :
    lost (trace.map Occurrence.veiled) = lost trace := by
  have same : ∀ o : Occurrence α, o.veiled.lost? = o.lost? := by
    intro o
    cases o with
    | heard source token listener event => rfl
    | acted listener action outcome =>
        obtain ⟨_ | id, deed⟩ := action <;> cases outcome <;> rfl
  simp only [lost, List.filterMap_map]
  congr 2
  exact funext same

/-- What is told of registrations is the same under the veil. -/
theorem Touch.told_veiled {f g : Forest α} (same : f.veiled = g.veiled) (touch : Touch α)
    (answer : Answer G) : touch.told f answer = touch.told g answer := by
  cases touch with
  | nothing => rfl
  | listen id listener =>
      rcases Forest.cases_of_veiled_eq same id with ⟨hn, hm⟩ | ⟨n, m, hn, hm, bare⟩
      · simp only [told, hn, hm]
      · have nextToken : n.nextToken = m.nextToken := (congrArg Node.nextToken bare :)
        simp only [told, hn, hm, Option.map_some, nextToken]
  | leave id token =>
      rcases Forest.cases_of_veiled_eq same id with ⟨hn, hm⟩ | ⟨n, m, hn, hm, bare⟩
      · simp only [told, hn, hm]
      · have flag : n.hasToken token = m.hasToken token := (congrArg (Node.hasToken · token) bare :)
        simp only [told, hn, hm, Option.map_some, flag]

/-! ## Tact under the veil -/

/-- What is harmless is so under the veil. -/
theorem Forest.Harmless.veiled {f g : Forest α} {id : NodeId} {token : Token}
    (h : f.Harmless id token) (same : f.veiled = g.veiled) : g.Harmless id token := by
  intro m child hm hook
  rcases Forest.cases_of_veiled_eq same id with ⟨-, none⟩ | ⟨n, k, hn, hk, bare⟩
  · cases hm.symm.trans none
  · obtain rfl := Option.some.inj (hm.symm.trans hk)
    have registrations : n.registrations = m.registrations := (congrArg Node.registrations bare :)
    exact h n child hn (registrations ▸ hook)

/-- What is tactful is so under the veil. -/
theorem Task.Tactful.veiled {f g : Forest α} {task : Task α} (h : task.Tactful f)
    (same : f.veiled = g.veiled) : task.Tactful g := by
  unfold Task.Tactful at h ⊢
  split
  · exact Forest.Harmless.veiled h same
  · trivial

/-- A run is tactful if another one like it is. -/
theorem Situation.TactfulRun.alike {react : Reaction α} {s t : Situation α}
    (h : s.TactfulRun react) (blind : Blind react) (same : s.Alike t) (ordered : s.Ordered)
    (ordered' : t.Ordered) : t.TactfulRun react := by
  intro t' task tasks leads first
  obtain ⟨s', leads', same', -, -⟩ := same.symm.leads blind ordered' ordered leads
  exact (h s' task tasks leads' (same'.tasks.symm.trans first)).veiled same'.forest.symm

/-- The listeners of a session are blind: their rules name what to do. -/
theorem Session.blind_reaction (s : Session) : Blind s.reaction := by
  have named : ∀ (tokens : Names Token) (trace : List (Occurrence Listener)),
      tokens.afterTrace (trace.map Occurrence.veiled) = tokens.afterTrace trace := by
    intro tokens trace
    unfold Names.afterTrace
    rw [List.foldl_map]
    congr 1
    funext tokens o
    cases o with
    | heard source token listener event => rfl
    | acted listener action outcome =>
        obtain ⟨node, deed⟩ := action
        cases deed <;> cases outcome <;> rfl
  intro f g same
  have trace : f.trace.map Occurrence.veiled = g.trace.map Occurrence.veiled :=
    congrArg Forest.trace same
  funext l event
  unfold Session.reaction
  rw [← named s.tokens f.trace, trace, named]

/-! ## Loyal listeners -/

/-- A task that removes no registration by its token. -/
def Task.Loyal : Task α → Prop
  | .act _ ⟨_, .unsubscribe (some _)⟩ => False
  | _ => True

/-- Listeners that remove no registrations by their tokens. -/
def Loyal (react : Reaction α) : Prop :=
  ∀ f listener event, ∀ action ∈ react f listener event, (Task.act listener action).Loyal

/-- Destroying a node is loyal. -/
theorem Forest.loyal_bury (f : Forest α) (id : NodeId) (n : Node α) :
    ∀ t ∈ (f.bury id n).2, t.Loyal := by
  intro t ht
  simp only [bury, deliveries, List.mem_append, List.mem_map, List.mem_singleton] at ht
  obtain ⟨_, -, rfl⟩ | rfl := ht <;> trivial

/-- Loyal listeners put only loyal tasks on the agenda. -/
theorem Forest.loyal_step {react : Reaction α} (loyal : Loyal react) (f : Forest α)
    (task : Task α) : ∀ t ∈ (f.step react task).2, t.Loyal := by
  intro t ht
  unfold step at ht
  split at ht
  · obtain ⟨action, hmem, rfl⟩ := List.mem_map.1 ht
    exact loyal _ _ _ action hmem
  · rename_i source token child event
    unfold passOn at ht
    split at ht
    · cases ht
    split at ht
    · cases ht
    split at ht
    all_goals split at ht
    any_goals cases ht
    all_goals
      simp only [ripple, orphan, deliveries, List.mem_append, List.mem_map,
        List.mem_singleton] at ht
      obtain ⟨_, -, rfl⟩ | rfl := ht <;> trivial
  · split at ht
    · unfold perform at ht
      split at ht
      · split at ht <;> cases ht
      · cases ht
      · cases ht
      · cases ht
      · cases ht
      · rcases List.mem_append.1 ht with ht | ht
        · exact loyal_bury f _ _ t ht
        · cases List.mem_singleton.1 ht
          trivial
    · cases ht
  · cases ht
  · cases ht

/-- A run in which nobody removes registrations by their tokens is tactful. -/
theorem Situation.tactfulRun_of_loyal {react : Reaction α} (loyal : Loyal react)
    {s : Situation α} (h : ∀ t ∈ s.tasks, t.Loyal) : s.TactfulRun react := by
  have all : ∀ {t : Situation α}, s.Leads react t → ∀ task ∈ t.tasks, task.Loyal := by
    intro t leads
    induction leads with
    | refl => exact h
    | @step f task tasks changing _ ih =>
        intro other hmem
        rcases List.mem_append.1 hmem with hmem | hmem
        · exact Forest.loyal_step loyal f task other hmem
        · exact ih other (List.mem_cons_of_mem task hmem)
  intro t task tasks leads first
  have kind := all leads task (first ▸ List.mem_cons_self)
  unfold Task.Tactful
  split
  · exact kind.elim
  · trivial

/-! ## Histories -/

/-- A command, and how listeners react while it is carried out. -/
structure Request (α G : Type) where
  command : Command α G
  react : Reaction α

/-- The answer to a request, and all that has happened to listeners up to then. -/
structure Turn (α G : Type) where
  answer : Except Fault (Answer G)
  trace : List (Occurrence α)

/-- A turn without the cells that listeners have read. -/
def Turn.veiled (t : Turn α G) : Turn α G :=
  { t with trace := t.trace.map Occurrence.veiled }

variable [RandomSource G]

namespace Forest

/-- Carry a request out. -/
def turn (f : Forest α) (r : Request α G) : Turn α G × Forest α :=
  match r.command.call r.react f with
  | .ok answer g => (⟨.ok answer, g.trace⟩, g)
  | .error fault g => (⟨.error fault, g.trace⟩, g)

/-- Carry requests out, one after another. -/
def play (f : Forest α) : List (Request α G) → List (Turn α G)
  | [] => []
  | r :: rest => (f.turn r).1 :: (f.turn r).2.play rest

/-- No registration of a view is removed by its token while a request is carried out. -/
def TactfulRequest (f : Forest α) (r : Request α G) : Prop :=
  r.command.Tactful f ∧ ∀ answer effect g, r.command.prelude f = .ok (answer, effect) g →
    (g.begin effect).TactfulRun r.react

/-- No registration of a view is removed by its token while requests are carried out. -/
def Tactful (f : Forest α) : List (Request α G) → Prop
  | [] => True
  | r :: rest => f.TactfulRequest r ∧ (f.turn r).2.Tactful rest

/-- A request that is refused. -/
theorem turn_of_error {f g : Forest α} {r : Request α G} {fault : Fault}
    (h : r.command.prelude f = .error fault g) : f.turn r = (⟨.error fault, g.trace⟩, g) := by
  unfold turn
  rw [r.command.call_eq, bind_of_error h]

/-- A request that is carried out goes through the situations that its effect leads to. -/
theorem turn_of_ok {f g : Forest α} {r : Request α G} {answer : Answer G} {effect : Effect}
    (h : r.command.prelude f = .ok (answer, effect) g) :
    ∃ t, (g.begin effect).Leads r.react ⟨t, [], (g.begin effect).changing⟩ ∧
      f.turn r = (⟨.ok answer, (Situation.finish ⟨t, [], (g.begin effect).changing⟩).trace⟩,
        Situation.finish ⟨t, [], (g.begin effect).changing⟩) := by
  refine ⟨_, Situation.Leads.refl.complete, ?_⟩
  unfold turn
  rw [r.command.call_eq, bind_of_ok h]
  have carried := g.carryOut_eq r.react effect
  unfold Situation.complete at carried
  rw [← carried]
  rfl

end Forest

namespace Forest

/-- Effects begin with loyal tasks. -/
theorem loyal_begin (f : Forest α) (effect : Effect) : ∀ t ∈ (f.begin effect).tasks, t.Loyal := by
  intro t ht
  cases effect with
  | nothing => cases ht
  | store id value =>
      obtain ⟨_, -, rfl⟩ := List.mem_map.1 ht
      trivial
  | bury id =>
      cases found : f.available? id with
      | none =>
          simp only [begin, found] at ht
          cases ht
      | some n =>
          simp only [begin, found] at ht
          exact loyal_bury f id n t ht

/-- A history in which nobody removes registrations by their tokens is tactful. -/
theorem tactful_of_loyal {history : List (Request α G)}
    (loyal : ∀ r ∈ history, Loyal r.react ∧ ∀ id token, r.command.touch ≠ .leave id token)
    (f : Forest α) : f.Tactful history := by
  induction history generalizing f with
  | nil => trivial
  | cons r rest ih =>
      obtain ⟨⟨listeners, stays⟩, later⟩ := List.forall_mem_cons.1 loyal
      refine ⟨⟨fun id token touch => absurd touch (stays id token), fun answer effect g _ => ?_⟩,
        ih later _⟩
      exact Situation.tactfulRun_of_loyal listeners (loyal_begin g effect)

end Forest

/-- The answers to some commands by the scene alone; the nodes that are lost with each of them
come with it. -/
def Scene.play (c : Scene) : List (Command α G × Finset NodeId) → List (Except Fault (Answer G))
  | [] => []
  | (command, ids) :: rest => (c.turn command).1 :: ((c.turn command).2.lose ids).play rest

/-! ## Answers by the scene -/

variable [LawfulRandomSource G]

namespace Forest

/-- What a forest and a scene about it have in common between two requests. -/
structure Settled (c : Scene) (f : Forest α) : Prop where
  tidy : (Situation.quiet f).Tidy
  portrays : Portrays c (.quiet f)
  lost : lost f.trace ⊆ c.gone

/-- A request is answered as by the scene, which goes on to be about the forest. -/
theorem Settled.turn {c : Scene} {f : Forest α} (h : Settled c f) {r : Request α G}
    (tactful : f.TactfulRequest r) :
    (f.turn r).1.answer.map Answer.plain = (c.turn r.command).1.map Answer.plain ∧
      Settled ((c.turn r.command).2.lose (SparseTensor.lost (f.turn r).1.trace)) (f.turn r).2 := by
  have sound : f.Sound := h.tidy.ordered.forest.sound
  have outlook := h.portrays.outlook h.tidy
  have size : c.figures.size = f.nodes.size := h.portrays.size
  have tidy {t : Situation α} (step : Next (.call r.command) (.quiet f) t) : t.Tidy :=
    @Situation.Tidy.next α G _ _ _ _ (.call r.command) h.tidy tactful.1 step
  cases begun : r.command.prelude f with
  | error fault g =>
      obtain ⟨said, reads⟩ := reads_of_prelude_error sound begun
      have turned : c.turn r.command = (.error fault, c) := by
        unfold Scene.turn
        rw [outlook, size, said]
      rw [turn_of_error begun, turned]
      -- a request that is refused tells nobody, so nothing more is lost
      have nothing : c.lose (SparseTensor.lost g.trace) = c :=
        Scene.lose_of_subset (reads.bare.1 ▸ h.lost)
      refine ⟨rfl, ?_⟩
      simp only [nothing]
      exact ⟨tidy (.refuse r.command begun), h.portrays.reads sound reads,
        reads.bare.1 ▸ h.lost⟩
  | ok pair g =>
      obtain ⟨full, effect⟩ := pair
      obtain ⟨answer, happening, said, -, plain, begins⟩ := begins_of_prelude sound begun
      have turned : c.turn r.command = (.ok answer, c.change happening) := by
        unfold Scene.turn
        rw [outlook, size, said]
      obtain ⟨t, leads, ended⟩ := turn_of_ok begun
      rw [ended, turned]
      refine ⟨congrArg Except.ok plain, ?_⟩
      -- what the request does itself is in the scene before listeners run; what they destroy is
      -- lost
      have started : (g.begin effect).Tidy := tidy (.call r.command begun)
      obtain ⟨portrays, losses⟩ := h.portrays.begin sound begins
      have before : Portrays ((c.change happening).lose (g.begin effect).losses)
          (g.begin effect) := by
        rwa [losses, Scene.lose_of_subset (h.lost.trans (c.gone_subset_change happening))]
      have after := leads.portrays started (tactful.2 _ _ _ begun) before
      have lost : Situation.losses ⟨t, [], (g.begin effect).changing⟩ =
          SparseTensor.lost t.trace := by
        simp [Situation.losses]
      obtain ⟨tidy, portrays, trace⟩ :=
        Situation.tidy_finish (leads.tidy started (tactful.2 _ _ _ begun)) after
      simp only [trace, ← lost]
      refine ⟨tidy, portrays, ?_⟩
      rw [trace, ← lost]
      exact Finset.subset_union_right

/-- Requests are answered as by the scenes that they go through. -/
theorem Settled.play_eq {c : Scene} {f : Forest α} (h : Settled c f)
    {history : List (Request α G)} (tactful : f.Tactful history) :
    (f.play history).map (fun t => t.answer.map Answer.plain) =
      (c.play ((history.map Request.command).zip
        ((f.play history).map fun t => SparseTensor.lost t.trace))).map
          (Except.map Answer.plain) := by
  induction history generalizing c f with
  | nil => rfl
  | cons r rest ih =>
      obtain ⟨now, later⟩ := tactful
      obtain ⟨answer, settled⟩ := h.turn now
      simp only [play, Scene.play, List.map_cons, List.zip_cons_cons, answer, ih settled later]

/-! ## Requests under the veil -/

/-- A request comes to the same under the veil, and is as tactful, if listeners are blind. -/
theorem Settled.turn_veiled {c : Scene} {f f' : Forest α} (h : Settled c f) (h' : Settled c f')
    (same : f.veiled = f'.veiled) {r : Request α G} (blind : Blind r.react)
    (tactful : f.TactfulRequest r) : f'.TactfulRequest r ∧
      (f.turn r).1.veiled = (f'.turn r).1.veiled ∧
        (f.turn r).2.veiled = (f'.turn r).2.veiled := by
  have sound : f.Sound := h.tidy.ordered.forest.sound
  have sound' : f'.Sound := h'.tidy.ordered.forest.sound
  have outlook : f'.outlook = f.outlook :=
    (h'.portrays.outlook h'.tidy).symm.trans (h.portrays.outlook h.tidy)
  have size := size_of_veiled_eq same
  have discreet : r.command.Tactful f' := fun id token touch =>
    (tactful.1 id token touch).veiled same
  have opens' := opens_prelude sound' r.command
  unfold OpensAsSaid at opens'
  cases begun : r.command.prelude f with
  | error fault g =>
      obtain ⟨said, reads⟩ := reads_of_prelude_error sound begun
      rw [outlook, ← size, said] at opens'
      obtain ⟨g', begun', reads'⟩ := opens'
      have after : g.veiled = g'.veiled := reads.veiled.trans (same.trans reads'.veiled.symm)
      rw [turn_of_error begun, turn_of_error begun']
      refine ⟨⟨discreet, fun _ _ _ wrong => by cases begun'.symm.trans wrong⟩, ?_, after⟩
      exact congrArg (Turn.mk _) (congrArg Forest.trace after)
  | ok pair g =>
      obtain ⟨full, effect⟩ := pair
      obtain ⟨answer, happening, said, told, -, begins⟩ := begins_of_prelude sound begun
      rw [outlook, ← size, said] at opens'
      obtain ⟨effect', g', begun', -, begins'⟩ := opens'
      rw [← Touch.told_veiled same, ← told] at begun'
      have started := Situation.alike_begin same begins begins'
      have ordered := Situation.ordered_begin h.tidy.ordered.forest begins
      have ordered' := Situation.ordered_begin h'.tidy.ordered.forest begins'
      have run := tactful.2 _ _ _ begun
      obtain ⟨t, leads, ended⟩ := turn_of_ok begun
      obtain ⟨t', leads', ended'⟩ := turn_of_ok begun'
      -- The run of the other forest comes to an end that is alike.
      obtain ⟨⟨u, _, _⟩, leadsU, ⟨forest, rfl, rfl⟩, -, -⟩ :=
        started.leads blind ordered ordered' leads
      obtain rfl : u = t' := by
        have endU := leadsU.run_eq
        have end' := leads'.run_eq
        rw [Forest.run] at endU end'
        exact endU.trans end'.symm
      have after := Situation.veiled_finish forest (g.begin effect).changing
      rw [ended, ended', ← started.changing]
      refine ⟨⟨discreet, fun _ _ _ other => ?_⟩, ?_, after⟩
      · cases begun'.symm.trans other
        exact run.alike blind started ordered ordered'
      · exact congrArg (Turn.mk _) (congrArg Forest.trace after)

/-- Requests come to the same under the veil, and are as tactful, if listeners are blind. -/
theorem Settled.play_veiled {c : Scene} {f f' : Forest α} (h : Settled c f) (h' : Settled c f')
    (same : f.veiled = f'.veiled) {history : List (Request α G)}
    (blind : ∀ r ∈ history, Blind r.react) (tactful : f.Tactful history) :
    f'.Tactful history ∧
      (f.play history).map Turn.veiled = (f'.play history).map Turn.veiled := by
  induction history generalizing c f f' with
  | nil => exact ⟨trivial, rfl⟩
  | cons r rest ih =>
      obtain ⟨blindNow, blindLater⟩ := List.forall_mem_cons.1 blind
      obtain ⟨now, later⟩ := tactful
      obtain ⟨now', turn, after⟩ := h.turn_veiled h' same blindNow now
      have settled := (h.turn now).2
      have settled' := (h'.turn now').2
      have lost : SparseTensor.lost (f'.turn r).1.trace = SparseTensor.lost (f.turn r).1.trace := by
        rw [← lost_veiled, ← lost_veiled (f.turn r).1.trace]
        exact congrArg (fun t : Turn α G => SparseTensor.lost t.trace) turn.symm
      rw [lost] at settled'
      obtain ⟨later', turns⟩ := ih settled settled' after blindLater later
      exact ⟨⟨now', later'⟩, by simp only [play, List.map_cons, turn, turns]⟩

/-- A question is tactful, and is asked under the veil. -/
theorem Settled.ask {c : Scene} {f : Forest α} (h : Settled c f) (question : Question)
    (react : Reaction α) : f.TactfulRequest ⟨(.ask question : Command α G), react⟩ ∧
      (f.turn ⟨(.ask question : Command α G), react⟩).2.veiled = f.veiled ∧
        Settled c (f.turn ⟨(.ask question : Command α G), react⟩).2 := by
  have sound : f.Sound := h.tidy.ordered.forest.sound
  let r : Request α G := ⟨.ask question, react⟩
  have discreet : r.command.Tactful f := fun _ _ touch => nomatch touch
  have settled : ∀ {g : Forest α}, f.Reads g → Next (.call r.command) (.quiet f) (.quiet g) →
      Settled c g := fun reads step =>
    ⟨@Situation.Tidy.next α G _ _ _ _ (.call r.command) h.tidy discreet step,
      h.portrays.reads sound reads, reads.bare.1 ▸ h.lost⟩
  have asked := says_question (G := G) question f sound rfl
  cases said : (question.said f.outlook : Except Fault (Answer G)) with
  | error fault =>
      rw [said] at asked
      obtain ⟨g, failed, reads⟩ := asked
      have refused : r.command.prelude f = .error fault g := bind_of_error failed
      rw [turn_of_error (r := r) refused]
      exact ⟨⟨discreet, fun _ _ _ other => by cases refused.symm.trans other⟩, reads.veiled,
        settled reads (.refuse r.command refused)⟩
  | ok answer =>
      rw [said] at asked
      obtain ⟨full, g, answered, reads, -⟩ := asked
      have begun : r.command.prelude f = .ok (full, .nothing) g := bind_of_ok answered
      obtain ⟨t, leads, ended⟩ := turn_of_ok (r := r) begun
      cases leads.eq_of_quiet
      rw [ended]
      refine ⟨⟨discreet, fun _ _ _ other u task tasks leads first => ?_⟩, reads.veiled,
        settled reads (.call r.command begun)⟩
      cases begun.symm.trans other
      cases leads.eq_of_quiet
      cases first

/-- A question may be put in anywhere, or left out, and everything is as tactful as before. -/
theorem Settled.tactful_insert {c : Scene} {f : Forest α} (h : Settled c f)
    {before after : List (Request α G)} (blind : ∀ r ∈ before ++ after, Blind r.react)
    (question : Question) (react : Reaction α) :
    f.Tactful (before ++ ⟨.ask question, react⟩ :: after) ↔ f.Tactful (before ++ after) := by
  induction before generalizing c f with
  | nil =>
      obtain ⟨discreet, same, settled⟩ := h.ask (G := G) question react
      refine ⟨fun tactful => ?_, fun tactful => ⟨discreet, ?_⟩⟩
      · exact (settled.play_veiled h same blind tactful.2).1
      · exact (h.play_veiled settled same.symm blind tactful).1
  | cons r rest ih =>
      obtain ⟨-, blindLater⟩ := List.forall_mem_cons.1 blind
      exact and_congr_right fun now => ih (h.turn now).2 blindLater

/-- A question may be put in anywhere, or left out, and nothing else changes. -/
theorem Settled.play_insert {c : Scene} {f : Forest α} (h : Settled c f)
    {before after : List (Request α G)} (blind : ∀ r ∈ before ++ after, Blind r.react)
    (tactful : f.Tactful (before ++ after)) (question : Question) (react : Reaction α) :
    ((f.play (before ++ ⟨.ask question, react⟩ :: after)).map Turn.veiled).eraseIdx
      before.length = (f.play (before ++ after)).map Turn.veiled := by
  induction before generalizing c f with
  | nil =>
      obtain ⟨-, same, settled⟩ := h.ask (G := G) question react
      exact (h.play_veiled settled same.symm blind tactful).2.symm
  | cons r rest ih =>
      obtain ⟨-, blindLater⟩ := List.forall_mem_cons.1 blind
      obtain ⟨now, later⟩ := tactful
      exact congrArg ((f.turn r).1.veiled :: ·) (ih (h.turn now).2 blindLater later)

/-- The scene without nodes is about the forest without nodes. -/
theorem settled_empty : Settled Scene.empty (Forest.empty : Forest α) where
  tidy := Situation.tidy_start
  portrays := by
    have nothing : ∀ (id : NodeId) (n : Node α), (Forest.empty : Forest α).nodes[id]? ≠ some n := by
      simp [Forest.empty]
    exact ⟨rfl, by simp [Scene.empty], fun found => absurd found (nothing _ _),
      fun found => absurd found (nothing _ _), fun found => absurd found (nothing _ _)⟩
  lost := by simp [SparseTensor.lost, Forest.empty]

end Forest

/-- Caching cannot be observed between commands.  Whatever listeners do, the answers to a history
are those of the scenes that it goes through, in which a view has the cells of its parent and
there are no encodings; and if listeners are blind, a question may be put in or left out anywhere
without any other answer or any event being another. -/
theorem caching_is_unobservable (history : List (Request α G))
    (tactful : Forest.empty.Tactful history) :
    (Forest.empty.play history).map (fun t => t.answer.map Answer.plain) =
        (Scene.empty.play ((history.map Request.command).zip
          ((Forest.empty.play history).map fun t => lost t.trace))).map
            (Except.map Answer.plain) ∧
      ∀ (before after : List (Request α G)) (question : Question) (react : Reaction α),
        (∀ r ∈ before ++ after, Blind r.react) →
          history = before ++ after ∨ history = before ++ ⟨.ask question, react⟩ :: after →
            ((Forest.empty.play (before ++ ⟨.ask question, react⟩ :: after)).map
              Turn.veiled).eraseIdx before.length =
                (Forest.empty.play (before ++ after)).map Turn.veiled := by
  have settled : Forest.Settled Scene.empty (Forest.empty : Forest α) := Forest.settled_empty
  refine ⟨settled.play_eq tactful, fun before after question react blind place => ?_⟩
  refine settled.play_insert blind ?_ question react
  rcases place with rfl | rfl
  · exact tactful
  · exact (settled.tactful_insert blind question react).1 tactful

/-- A history of a canonical node and a view of it. -/
theorem caching_is_unobserved_by_view :
    let react : Reaction Unit := fun _ _ _ => []
    let history : List (Request Unit Generator) :=
      [⟨.create [4], react⟩, ⟨.view 0, react⟩, ⟨.ask (.sparse 1), react⟩,
        ⟨.mutate 0 (.setSparse [1]), react⟩, ⟨.ask (.sparse 1), react⟩]
    Forest.empty.Tactful history ∧
      (Forest.empty.play history).map (fun t => t.answer.map Answer.plain) =
        (Scene.empty.play ((history.map Request.command).zip
          ((Forest.empty.play history).map fun t => lost t.trace))).map
            (Except.map Answer.plain) := by
  intro react history
  have tactful : Forest.empty.Tactful history := by
    refine Forest.tactful_of_loyal (fun r hr => ⟨?_, ?_⟩) _
    all_goals
      simp only [history, List.mem_cons, List.not_mem_nil, or_false] at hr
      rcases hr with rfl | rfl | rfl | rfl | rfl
    all_goals simp [Loyal, react, Command.touch]
  exact ⟨tactful, (caching_is_unobservable history tactful).1⟩

end SparseTensor
