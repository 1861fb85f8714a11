/-
# The last events of a registration

A node tells its registrations of its destruction when they are removed already, so all that a
registration may hear from then on is on the agenda (`Forest.Spent`): a step only takes away from
it what is heard.  `destroyed_is_heard_last` says of any run that after a destruction a registration
hears what was pending for it, and that this is one change at most.

Such a change is pending if a listener destroys a view in the middle of a delivery: the delivery
goes on to all to whom it began, and `changed_after_destroyed` is a run in which a registration
hears of a change after it has heard that its node is gone.
-/
import SparseTensor.Proofs.PendingEvents
import SparseTensor.Proofs.Portraits

namespace SparseTensor

variable {α G : Type}

/-! ## Hearings -/

/-- That a listener hears an event, and the registration under which it does. -/
structure Hearing (α : Type) where
  source : NodeId
  token : Token
  listener : α
  event : Event

/-- What an occurrence lets hear. -/
def Occurrence.hearing? : Occurrence α → Option (Hearing α)
  | .heard source token listener event => some ⟨source, token, listener, event⟩
  | .acted _ _ _ => none

/-- What a task will let hear at once. -/
def Task.hearing? : Task α → Option (Hearing α)
  | .deliver source ⟨token, .listener listener⟩ event => some ⟨source, token, listener, event⟩
  | _ => none

/-- All that is heard according to a trace. -/
def heard (trace : List (Occurrence α)) : List (Hearing α) :=
  trace.filterMap Occurrence.hearing?

/-- All that is to be heard according to an agenda. -/
def awaited (tasks : List (Task α)) : List (Hearing α) :=
  tasks.filterMap Task.hearing?

/-- What is heard under one registration. -/
def under (source : NodeId) (token : Token) (hearings : List (Hearing α)) : List (Hearing α) :=
  hearings.filter fun h => h.source = source ∧ h.token = token

variable {source : NodeId} {token : Token}

@[simp] theorem heard_append (a b : List (Occurrence α)) : heard (a ++ b) = heard a ++ heard b :=
  List.filterMap_append

@[simp] theorem awaited_append (a b : List (Task α)) : awaited (a ++ b) = awaited a ++ awaited b :=
  List.filterMap_append

@[simp] theorem under_append (a b : List (Hearing α)) :
    under source token (a ++ b) = under source token a ++ under source token b :=
  List.filter_append ..

/-- The first task is what is heard first. -/
theorem awaited_cons (task : Task α) (tasks : List (Task α)) :
    awaited (task :: tasks) = task.hearing?.toList ++ awaited tasks := by
  cases heard : task.hearing? <;> simp [awaited, heard]

/-- Only a delivery to a listener lets hear something at once. -/
theorem Task.eq_of_hearing? {task : Task α} {h : Hearing α} (hears : task.hearing? = some h) :
    task = .deliver h.source ⟨h.token, .listener h.listener⟩ h.event := by
  unfold Task.hearing? at hears
  split at hears
  · cases hears
    rfl
  · cases hears

/-- What is to be heard is delivered to a listener. -/
theorem mem_awaited {tasks : List (Task α)} {h : Hearing α} (hmem : h ∈ awaited tasks) :
    .deliver h.source ⟨h.token, .listener h.listener⟩ h.event ∈ tasks := by
  obtain ⟨task, ht, hears⟩ := List.mem_filterMap.1 hmem
  exact Task.eq_of_hearing? hears ▸ ht

/-- An agenda on which nothing is delivered under a registration. -/
theorem under_awaited_eq_nil {tasks : List (Task α)}
    (h : ∀ r event, r.token = token → .deliver source r event ∉ tasks) :
    under source token (awaited tasks) = [] := by
  refine List.filter_eq_nil_iff.2 fun hearing hmem => ?_
  simp only [decide_eq_true_eq]
  rintro ⟨rfl, rfl⟩
  exact h _ _ rfl (mem_awaited hmem)

/-! ## Registrations that are removed -/

namespace Forest

variable {f g : Forest α}

/-- A token of a node that was given out, and under which nobody is registered any more. -/
def Spent (f : Forest α) (source : NodeId) (token : Token) : Prop :=
  ∃ n, f.nodes[source]? = some n ∧ token < n.nextToken ∧ ∀ r ∈ n.registrations, r.token ≠ token

/-- Nobody is ever registered again under a token that is spent. -/
theorem Spent.succeeds (h : f.Spent source token) (after : f.Succeeds g) :
    g.Spent source token := by
  obtain ⟨n, hn, below, nobody⟩ := h
  obtain ⟨m, hm, succeeds⟩ := after.forth hn
  refine ⟨m, hm, below.trans_le succeeds.nextToken, fun r hr => ?_⟩
  rcases succeeds.registrations r hr with hr | new
  · exact nobody r hr
  · exact Nat.ne_of_gt (below.trans_le new)

/-- A registered token is not spent. -/
theorem Spent.not_mem (h : f.Spent source token) {r : Registration α} {n : Node α}
    (found : f.nodes[source]? = some n) (hr : r ∈ n.registrations) : r.token ≠ token := by
  obtain ⟨m, hm, -, nobody⟩ := h
  obtain rfl := Option.some.inj (found.symm.trans hm)
  exact nobody r hr

/-! ## What steps let hear -/

/-- A task lets hear what it says, and nothing else happens to listeners than that or one action. -/
theorem Does.news {task : Task α} {new : List (Task α)} (does : f.Does task g new) :
    ∃ news, g.trace = f.trace ++ news ∧ news.length ≤ 1 ∧ heard news = task.hearing?.toList := by
  cases does with
  | hear actions => exact ⟨[_], rfl, Nat.le_refl _, rfl⟩
  | miss _ => exact ⟨[], (List.append_nil _).symm, Nat.zero_le _, rfl⟩
  | ripple _ _ _ => exact ⟨[], (List.append_nil _).symm, Nat.zero_le _, rfl⟩
  | orphan _ _ _ => exact ⟨[], (List.append_nil _).symm, Nat.zero_le _, rfl⟩
  | look _ _ reads => exact ⟨[_], congrArg (· ++ [_]) reads.bare.1, Nat.le_refl _, rfl⟩
  | subscribe _ => exact ⟨[_], rfl, Nat.le_refl _, rfl⟩
  | unsubscribe _ => exact ⟨[_], rfl, Nat.le_refl _, rfl⟩
  | destroy _ =>
      refine ⟨[], ?_, Nat.zero_le _, rfl⟩
      rw [Situation.trace_bury, List.append_nil]
  | report => exact ⟨[_], rfl, Nat.le_refl _, rfl⟩
  | release => exact ⟨[], (List.append_nil _).symm, Nat.zero_le _, rfl⟩

/-- Nothing happens to listeners before the effect of a command. -/
theorem Begins.trace {touch : Touch α} {happening : Happening} {effect : Effect}
    (begins : f.Begins touch happening effect g) : (g.begin effect).forest.trace = f.trace := by
  cases begins with
  | read reads => exact reads.bare.1
  | found _ trace _ => exact trace
  | branch _ _ _ trace _ => exact trace
  | listen _ => rfl
  | leave _ => rfl
  | store reads _ _ _ _ => exact reads.bare.1
  | bury found =>
      simp only [begin, found]
      exact Situation.trace_bury f _ _

end Forest

/-! ## Runs and what happens on the way -/

/-- The situations that a situation leads to by moves that are allowed, with all that happens to
listeners on the way. -/
inductive Course [RandomSource G] (allowed : Situation α → Move α G → Prop) (s : Situation α) :
    List (Occurrence α) → Situation α → Prop
  | stay : Course allowed s [] s
  | next {news : List (Occurrence α)} {t u : Situation α} {move : Move α G} :
    Course allowed s news t → allowed t move → Next move t u →
      Course allowed s (news ++ u.forest.trace.drop t.forest.trace.length) u

namespace Situation

/-- What a move adds to what has happened. -/
structure Adds (s t : Situation α) (news : List (Occurrence α)) : Prop where
  drop : t.forest.trace.drop s.forest.trace.length = news
  length : news.length ≤ 1
  /-- Somebody hears an event when it is delivered. -/
  heard : ∀ h ∈ heard news, ∃ rest,
    s.tasks = .deliver h.source ⟨h.token, .listener h.listener⟩ h.event :: rest
  /-- Under a token that is spent nothing is heard but what was to be heard. -/
  spent : ∀ source token, s.forest.Spent source token → t.forest.Spent source token ∧
    under source token (SparseTensor.heard news) ++ under source token (awaited t.tasks) =
      under source token (awaited s.tasks)

/-- A move between two commands, which only tells those who are registered. -/
theorem adds_of_told {f : Forest α} {t : Situation α} (after : f.Succeeds t.forest)
    (trace : t.forest.trace = f.trace ∨ t.forest.trace = [])
    (told : ∀ source r event, .deliver source r event ∈ t.tasks →
      ∃ n, f.nodes[source]? = some n ∧ r ∈ n.registrations) : (quiet f).Adds t [] where
  drop := by
    rcases trace with same | none
    · simp [quiet, same]
    · simp [none]
  length := Nat.zero_le _
  heard h hmem := absurd hmem List.not_mem_nil
  spent source token spent := by
    refine ⟨spent.succeeds after, under_awaited_eq_nil fun r event same hmem => ?_⟩
    obtain ⟨n, hn, hr⟩ := told source r event hmem
    exact spent.not_mem hn hr same

/-- Doing a task adds what the task lets hear, or one action. -/
theorem adds_of_does {f g : Forest α} {task : Task α} {new tasks : List (Task α)}
    {changing : Option NodeId} (does : f.Does task g new) :
    ∃ news, Adds ⟨f, task :: tasks, changing⟩ ⟨g, new ++ tasks, changing⟩ news := by
  obtain ⟨news, trace, length, hearing⟩ := does.news
  refine ⟨news, ?_, length, fun h hmem => ?_, fun source token spent => ?_⟩
  · simp [trace]
  · rw [hearing, Option.mem_toList] at hmem
    rw [Task.eq_of_hearing? hmem]
    exact ⟨tasks, rfl⟩
  -- Whoever is put on the agenda is registered, so not under a token that is spent.
  · have nobody : under source token (awaited new) = [] := by
      refine under_awaited_eq_nil fun r event same hmem => ?_
      obtain ⟨n, hn, hr⟩ := does.told hmem
      exact spent.not_mem hn hr same
    refine ⟨spent.succeeds does.succeeds, ?_⟩
    rw [awaited_append, under_append, nobody, hearing, awaited_cons, under_append, List.nil_append]

/-- Every move adds one occurrence at most. -/
theorem adds_of_next [RandomSource G] [LawfulRandomSource G] {s t : Situation α}
    {move : Move α G} (sound : s.forest.Sound) (step : Next move s t) : ∃ news, s.Adds t news := by
  cases step with
  | call command begun =>
      obtain ⟨_, _, -, -, -, begins⟩ := Forest.begins_of_prelude sound begun
      exact ⟨[], adds_of_told begins.succeeds (.inl begins.trace) fun _ _ _ => begins.told⟩
  | refuse command failed =>
      have reads := (Forest.reads_of_prelude_error sound failed).2
      exact ⟨[], adds_of_told (Forest.succeeds_of_bare_eq reads.bare.2) (.inl reads.bare.1)
        fun _ _ _ hmem => absurd hmem List.not_mem_nil⟩
  | @step react f task tasks changing => exact adds_of_does (Forest.does_step sound react task)
  | @finish f id =>
      have after : f.Succeeds (f.update id fun n => { n with available := true }) :=
        Forest.succeeds_update fun n => Node.succeeds_of_sublist rfl (.refl _)
      refine ⟨[], ?_, Nat.zero_le _, fun h hmem => absurd hmem List.not_mem_nil,
        fun source token spent => ⟨spent.succeeds after, rfl⟩⟩
      exact List.drop_length
  | @forget f =>
      have after : f.Succeeds { f with trace := [], log := [] } := Forest.succeeds_of_nodes_eq rfl
      exact ⟨[], adds_of_told after (.inr rfl) fun _ _ _ hmem => absurd hmem List.not_mem_nil⟩

/-- Whoever is about to hear of a destruction will hear of one change more at most. -/
theorem Orderly.rest {f : Forest α} {source : NodeId} {r : Registration α}
    {rest : List (Task α)} {changing : Option NodeId}
    (h : Orderly ⟨f, .deliver source r .destroyed :: rest, changing⟩) :
    under source r.token (awaited rest) = [] ∨
      ∃ listener, under source r.token (awaited rest) =
        [⟨source, r.token, listener, .valueChanged⟩] := by
  obtain ⟨others, apart⟩ := List.pairwise_cons.1 h.apart
  have changes : ∀ x ∈ under source r.token (awaited rest),
      x.source = source ∧ x.token = r.token ∧ x.event = .valueChanged := by
    intro x hx
    obtain ⟨hmem, here⟩ := List.mem_filter.1 hx
    obtain ⟨same, token⟩ := of_decide_eq_true here
    refine ⟨same, token, ?_⟩
    cases event : x.event with
    | valueChanged => rfl
    | destroyed =>
        have pending := mem_awaited hmem
        rw [event] at pending
        exact absurd token.symm (others _ pending same.symm)
  -- Of two changes that are to be heard one is heard under another registration.
  have distinct : (under source r.token (awaited rest)).Pairwise fun x y =>
      x.event = .valueChanged → y.event = .valueChanged → x.source = y.source →
        x.token ≠ y.token := by
    refine List.Pairwise.filter _ (List.pairwise_filterMap.2 (apart.imp ?_))
    intro a b apart x hx y hy change change' same token
    rw [Task.eq_of_hearing? hx, Task.eq_of_hearing? hy, change, change'] at apart
    rcases apart with younger | ⟨-, earlier⟩
    · exact Nat.ne_of_gt younger same
    · exact Nat.ne_of_lt earlier token
  rcases pending : under source r.token (awaited rest) with _ | ⟨x, _ | ⟨y, more⟩⟩
  · exact .inl rfl
  · rw [pending] at changes
    obtain ⟨here, token, change⟩ := changes x List.mem_cons_self
    refine .inr ⟨x.listener, ?_⟩
    rw [← here, ← token, ← change]
  · rw [pending] at changes distinct
    obtain ⟨here, token, change⟩ := changes x List.mem_cons_self
    obtain ⟨here', token', change'⟩ := changes y (List.mem_cons_of_mem _ List.mem_cons_self)
    exact absurd (token.trans token'.symm) ((List.pairwise_cons.1 distinct).1 y List.mem_cons_self
      change change' (here.trans here'.symm))

end Situation

section

variable [RandomSource G]

/-- What a course leads to is reached. -/
theorem Course.reached {allowed : Situation α → Move α G → Prop} {s t : Situation α}
    {news : List (Occurrence α)} (h : Course allowed s news t) (first : Reached allowed s) :
    Reached allowed t := by
  induction h with
  | stay => exact first
  | next _ may step ih => exact ih.next may step

/-- A run in which a registration is about to hear that its node is destroyed, and what is on the
agenda behind that: under the same registration nothing is to be heard any more, or one change. -/
structure Farewell (allowed : Situation α → Move α G → Prop) (before : List (Occurrence α))
    (source : NodeId) (token : Token) (listener : α) (rest : List (Task α)) : Prop where
  course : ∃ s, Course allowed (.quiet .empty) before s ∧
    s.tasks = .deliver source ⟨token, .listener listener⟩ .destroyed :: rest
  pending : under source token (awaited rest) = [] ∨
    ∃ listener, under source token (awaited rest) = [⟨source, token, listener, .valueChanged⟩]

variable [LawfulRandomSource G] {allowed : Situation α → Move α G → Prop}
  {before after : List (Occurrence α)} {source : NodeId} {token : Token} {listener : α}
  {t u : Situation α}

/-- When a registration has heard that its node is destroyed, its token is spent, and all that it
will hear was on the agenda. -/
theorem Reached.farewell {rest : List (Task α)} (h : Reached allowed t)
    (tasks : t.tasks = .deliver source ⟨token, .listener listener⟩ .destroyed :: rest) :
    t.forest.Spent source token ∧ under source token (awaited t.tasks) =
      ⟨source, token, listener, .destroyed⟩ :: under source token (awaited rest) ∧
        (under source token (awaited rest) = [] ∨ ∃ listener,
          under source token (awaited rest) = [⟨source, token, listener, .valueChanged⟩]) := by
  have orderly := h.orderly
  have pending : .deliver source ⟨token, .listener listener⟩ .destroyed ∈ t.tasks :=
    tasks ▸ List.mem_cons_self
  obtain ⟨n, hn, below⟩ := orderly.used pending
  refine ⟨⟨n, hn, below, orderly.gone pending hn⟩, ?_, ?_⟩
  · simp [tasks, awaited_cons, Task.hearing?, under]
  · obtain ⟨f, _, changing⟩ := t
    cases tasks
    exact orderly.rest

/-- From the moment on in which a registration has heard that its node is destroyed, it hears what
was on the agenda. -/
theorem Course.farewell {news : List (Occurrence α)} (run : Course allowed (.quiet .empty) news t)
    (heardThen : news = before ++ .heard source token listener .destroyed :: after) :
    t.forest.Spent source token ∧ ∃ rest, Farewell allowed before source token listener rest ∧
      under source token (heard after) ++ under source token (awaited t.tasks) =
        under source token (awaited rest) := by
  induction run generalizing after with
  | stay => simp at heardThen
  | @next news t u move run may step ih =>
      have reached := run.reached .start
      obtain ⟨more, adds⟩ := Situation.adds_of_next reached.ordered.forest.sound step
      rw [adds.drop] at heardThen
      -- what is heard in this move was on the agenda before
      have later : ∀ {earlier : List (Occurrence α)}, after = earlier ++ more →
          news = before ++ .heard source token listener .destroyed :: earlier →
            u.forest.Spent source token ∧ ∃ rest,
              Farewell allowed before source token listener rest ∧
                under source token (heard after) ++ under source token (awaited u.tasks) =
                  under source token (awaited rest) := by
        rintro earlier rfl same
        obtain ⟨spent, rest, farewell, balance⟩ := ih same
        obtain ⟨spent, kept⟩ := adds.spent _ _ spent
        refine ⟨spent, rest, farewell, ?_⟩
        rw [heard_append, under_append, List.append_assoc, kept, balance]
      rcases more with _ | ⟨o, _ | ⟨_, _⟩⟩
      · exact later (List.append_nil _).symm ((List.append_nil _).symm.trans heardThen)
      -- one occurrence is added: the destruction itself, or something behind it
      · rcases List.eq_nil_or_concat after with rfl | ⟨earlier, p, rfl⟩
        · obtain ⟨rfl, same⟩ := List.append_inj' heardThen rfl
          cases same
          obtain ⟨rest, tasks⟩ := adds.heard ⟨source, token, listener, .destroyed⟩
            List.mem_cons_self
          obtain ⟨spent, balance, shape⟩ := reached.farewell tasks
          obtain ⟨spent, kept⟩ := adds.spent _ _ spent
          refine ⟨spent, rest, ⟨⟨t, run, tasks⟩, shape⟩, ?_⟩
          rw [balance] at kept
          simpa [heard, under, Occurrence.hearing?] using kept
        · rw [List.concat_eq_append, ← List.cons_append, ← List.append_assoc] at heardThen
          obtain ⟨same, last⟩ := List.append_inj' heardThen rfl
          exact later (last ▸ List.concat_eq_append) same
      · exact absurd adds.length (by simp)

/-- A registration that has heard that its node is destroyed hears from then on what was on the
agenda for it: nothing, or one change that was on its way to it already, whatever listeners do. -/
theorem destroyed_is_heard_last (run : Course allowed (.quiet .empty)
      (before ++ .heard source token listener .destroyed :: after) t) :
    ∃ rest, Farewell allowed before source token listener rest ∧
      under source token (heard after) ++ under source token (awaited t.tasks) =
        under source token (awaited rest) :=
  (run.farewell rfl).2

end

/-! ## A change behind a destruction -/

/-- Tactful runs from the beginning, with what happens to listeners. -/
abbrev TactfulCourse (G : Type) [RandomSource G] (news : List (Occurrence α))
    (s : Situation α) : Prop :=
  Course (fun s (move : Move α G) => move.Tactful s) (.quiet .empty) news s

/-- Under a registration that hears of a destruction nothing is heard any more. -/
def DestroyedLast (news : List (Occurrence α)) : Prop :=
  ∀ before after source token listener,
    news = before ++ .heard source token listener .destroyed :: after →
      under source token (heard after) = []

/-! ## A view that is destroyed on the way -/

namespace Detour

/-- A canonical node with a view. -/
def parent : Node Bool :=
  { (Node.canonical ⟨[5], by decide, by simp, by decide⟩ : Node Bool) with
    nextToken := 1, registrations := [⟨0, .view 1⟩] }

/-- The view between, which has a view itself. -/
def between : Node Bool :=
  { (Node.view parent.shape ⟨0, 0⟩ : Node Bool) with
    nextToken := 1, registrations := [⟨0, .view 2⟩] }

/-- The view of that view, with two listeners. -/
def last : Node Bool :=
  { (Node.view parent.shape ⟨1, 0⟩ : Node Bool) with
    nextToken := 2, registrations := [⟨0, .listener true⟩, ⟨1, .listener false⟩] }

/-- When the first listener hears of a change it destroys the view between. -/
def react : Reaction Bool := fun _ first event =>
  if first = true ∧ event = .valueChanged then [⟨some 1, .destroy⟩] else []

/-- The canonical node while its change is told. -/
def taken : Node Bool := { parent with cache := .ofSparse [1], available := false }

/-- What is still to be done when the first listener has heard of the change. -/
def later : List (Task Bool) :=
  [.deliver 2 ⟨1, .listener false⟩ .valueChanged, .release 2, .release 1]

/-- The value of the canonical node has changed. -/
def changed : Situation Bool :=
  ⟨⟨#[taken, between, last], [], []⟩, [.deliver 0 ⟨0, .view 1⟩ .valueChanged], some 0⟩

/-- The first listener has heard of it. -/
def told : Situation Bool :=
  ⟨⟨#[taken, { between with holders := 2 }, { last with holders := 2 }],
      [.heard 2 0 true .valueChanged], []⟩,
    .act true ⟨some 1, .destroy⟩ :: later, some 0⟩

/-- The view between is destroyed. -/
def destroyed : Situation Bool :=
  ⟨⟨#[{ taken with registrations := [] },
        { between with
          role := .view none, available := false, registrations := [], holders := 2 },
        { last with holders := 2 }], [.heard 2 0 true .valueChanged], []⟩,
    .deliver 1 ⟨0, .view 2⟩ .destroyed :: .release 1 ::
      .report true ⟨some 1, .destroy⟩ .destroyed :: later, some 0⟩

/-- The last view is an orphan. -/
def orphaned : Situation Bool :=
  ⟨⟨#[{ taken with registrations := [] },
        { between with
          role := .view none, available := false, registrations := [], holders := 2 },
        { last with role := .view none, orphaned := true, registrations := [], holders := 3 }],
      [.heard 2 0 true .valueChanged], [.orphanedView [5]]⟩,
    .deliver 2 ⟨0, .listener true⟩ .destroyed :: .deliver 2 ⟨1, .listener false⟩ .destroyed ::
      .release 2 :: .release 1 :: .report true ⟨some 1, .destroy⟩ .destroyed :: later, some 0⟩

/-- The nodes are created. -/
theorem course_nodes : TactfulCourse Generator [] (.quiet ⟨#[parent, between, last], [], []⟩) := by
  have created : TactfulCourse (α := Bool) Generator _ _ :=
    Course.stay.next (by rintro _ _ ⟨⟩) (.call (.create [5]) rfl)
  have viewed := created.next (by rintro _ _ ⟨⟩) (.call (.view 0) rfl)
  have nested := viewed.next (by rintro _ _ ⟨⟩) (.call (.view 1) rfl)
  have first := nested.next (by rintro _ _ ⟨⟩) (.call (.subscribe 2 true) rfl)
  have second := first.next (by rintro _ _ ⟨⟩) (.call (.subscribe 2 false) rfl)
  exact second.next (by trivial) .forget

end Detour

/-- What happens in a run in which two listeners are registered with a view of a view of a node:
when the value of the node changes, the first one destroys the view between them. -/
def changeBehindDestruction : List (Occurrence Bool) :=
  [.heard 2 0 true .valueChanged, .heard 2 0 true .destroyed, .heard 2 1 false .destroyed,
    .acted true ⟨some 1, .destroy⟩ .destroyed, .heard 2 1 false .valueChanged]

/-- The run, with the forest spelled out before and after the destruction. -/
theorem course_changeBehindDestruction :
    ∃ s, TactfulCourse Generator changeBehindDestruction s ∧ awaited s.tasks = [] := by
  have begun : TactfulCourse Generator [] Detour.changed :=
    Detour.course_nodes.next (by rintro _ _ ⟨⟩) (.call (.mutate 0 (.setSparse [1])) rfl)
  have passed := begun.next (by rintro _ _ ⟨⟩; trivial) (.step Detour.react)
  have passedOn := passed.next (by rintro _ _ ⟨⟩; trivial) (.step Detour.react)
  have heard : TactfulCourse Generator [.heard 2 0 true .valueChanged] Detour.told :=
    passedOn.next (by rintro _ _ ⟨⟩; trivial) (.step Detour.react)
  have acted : TactfulCourse Generator [.heard 2 0 true .valueChanged] Detour.destroyed :=
    heard.next (by rintro _ _ ⟨⟩; trivial) (.step Detour.react)
  have cutOff : TactfulCourse Generator [.heard 2 0 true .valueChanged] Detour.orphaned :=
    acted.next (by rintro _ _ ⟨⟩; trivial) (.step Detour.react)
  have firstHeard := cutOff.next (by rintro _ _ ⟨⟩; trivial) (.step Detour.react)
  have secondHeard := firstHeard.next (by rintro _ _ ⟨⟩; trivial) (.step Detour.react)
  have released := secondHeard.next (by rintro _ _ ⟨⟩; trivial) (.step Detour.react)
  have releasedToo := released.next (by rintro _ _ ⟨⟩; trivial) (.step Detour.react)
  have reported := releasedToo.next (by rintro _ _ ⟨⟩; trivial) (.step Detour.react)
  have changeHeard := reported.next (by rintro _ _ ⟨⟩; trivial) (.step Detour.react)
  exact ⟨_, changeHeard, rfl⟩

/-- In that run the second listener hears that its view is destroyed, and then the change that was
on its way. -/
theorem destroyed_is_heard_before_change :
    ∃ s rest, TactfulCourse Generator changeBehindDestruction s ∧
      Farewell (fun s (move : Move Bool Generator) => move.Tactful s)
        (changeBehindDestruction.take 2) 2 1 false rest ∧
          under 2 1 (awaited rest) = [⟨2, 1, false, .valueChanged⟩] := by
  obtain ⟨s, run, nothing⟩ := course_changeBehindDestruction
  have split : changeBehindDestruction = changeBehindDestruction.take 2 ++
      .heard 2 1 false .destroyed :: changeBehindDestruction.drop 3 := rfl
  obtain ⟨rest, farewell, balance⟩ := destroyed_is_heard_last (split ▸ run)
  refine ⟨s, rest, run, farewell, ?_⟩
  rw [← balance, nothing]
  rfl

/-- Destroyed is not always what a registration hears last: a listener that destroys a view on the
way lets a change through behind it. -/
theorem changed_after_destroyed :
    (∃ s, TactfulCourse Generator changeBehindDestruction s) ∧
      ¬ DestroyedLast changeBehindDestruction := by
  obtain ⟨s, run, -⟩ := course_changeBehindDestruction
  refine ⟨⟨s, run⟩, fun last => ?_⟩
  have nothing := last (changeBehindDestruction.take 2) (changeBehindDestruction.drop 3) 2 1 false
    rfl
  cases nothing

end SparseTensor
