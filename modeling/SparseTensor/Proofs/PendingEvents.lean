/-
# Pending events

An agenda names each event at most once for each registration.  Two changes that are both under
way differ in the node that tells of them: a view passes a change on only to younger nodes, so
the deliveries in front of an agenda are those of the younger nodes.  A node that tells of its
destruction has lost all its registrations, and it never gets them back, as tokens are given out
once (`Forest.Succeeds`).

`Situation.Orderly` says so of situations, and `Reached.orderly` of all that runs can come to,
whatever listeners do.
-/
import SparseTensor.Proofs.Ties

namespace SparseTensor

variable {α G : Type}

/-! ## Tokens are given out once -/

/-- What may become of a node: registrations come only with tokens that were not given out yet. -/
structure Node.Succeeds (n m : Node α) : Prop where
  nextToken : n.nextToken ≤ m.nextToken
  registrations : ∀ r ∈ m.registrations, r ∈ n.registrations ∨ n.nextToken ≤ r.token
  tokens : n.TokensOrdered → m.TokensOrdered

namespace Node

/-- A node that keeps its registrations, or loses some. -/
theorem succeeds_of_sublist {n m : Node α} (nextToken : m.nextToken = n.nextToken)
    (fewer : m.registrations.Sublist n.registrations) : n.Succeeds m where
  nextToken := nextToken.ge
  registrations _ hr := .inl (fewer.subset hr)
  tokens h := ⟨h.1.sublist fewer, fun r hr => nextToken ▸ h.2 r (fewer.subset hr)⟩

theorem Succeeds.refl (n : Node α) : n.Succeeds n :=
  succeeds_of_sublist rfl (.refl _)

theorem Succeeds.trans {n m k : Node α} (nm : n.Succeeds m) (mk : m.Succeeds k) :
    n.Succeeds k where
  nextToken := nm.nextToken.trans mk.nextToken
  registrations r hr := by
    rcases mk.registrations r hr with hr | new
    · exact nm.registrations r hr
    · exact .inr (nm.nextToken.trans new)
  tokens h := mk.tokens (nm.tokens h)

theorem succeeds_subscribe (n : Node α) (target : Target α) :
    n.Succeeds (n.subscribe target) where
  nextToken := Nat.le_succ _
  registrations r hr := by
    rcases List.mem_append.1 hr with hr | hr
    · exact .inl hr
    · obtain rfl := List.mem_singleton.1 hr
      exact .inr (Nat.le_refl _)
  tokens h := h.subscribe target

theorem succeeds_unsubscribe (n : Node α) (token : Token) : n.Succeeds (n.unsubscribe token) :=
  succeeds_of_sublist rfl List.filter_sublist

end Node

namespace Forest

/-- What may become of a forest: its nodes stay, and new nodes give out tokens in order. -/
structure Succeeds (f g : Forest α) : Prop where
  forth : ∀ {id : NodeId} {n : Node α}, f.nodes[id]? = some n →
    ∃ m, g.nodes[id]? = some m ∧ n.Succeeds m
  back : ∀ {id : NodeId} {m : Node α}, g.nodes[id]? = some m →
    (∃ n : Node α, f.nodes[id]? = some n ∧ n.Succeeds m) ∨ m.TokensOrdered

theorem Succeeds.trans {f g h : Forest α} (fg : f.Succeeds g) (gh : g.Succeeds h) :
    f.Succeeds h where
  forth hn := by
    obtain ⟨m, hm, first⟩ := fg.forth hn
    obtain ⟨k, hk, second⟩ := gh.forth hm
    exact ⟨k, hk, first.trans second⟩
  back hk := by
    rcases gh.back hk with ⟨m, hm, second⟩ | ordered
    · rcases fg.back hm with ⟨n, hn, first⟩ | ordered
      · exact .inl ⟨n, hn, first.trans second⟩
      · exact .inr (second.tokens ordered)
    · exact .inr ordered

theorem succeeds_update {f : Forest α} {id : NodeId} {g : Node α → Node α}
    (h : ∀ n : Node α, n.Succeeds (g n)) : f.Succeeds (f.update id g) where
  forth hn := by
    obtain ⟨m, hm, ⟨-, rfl⟩ | ⟨-, rfl⟩⟩ := exists_update hn id g
    · exact ⟨_, hm, h _⟩
    · exact ⟨m, hm, .refl m⟩
  back hm := by
    obtain ⟨n, hn, ⟨-, rfl⟩ | ⟨-, rfl⟩⟩ := update_cases hm
    · exact .inl ⟨n, hn, h n⟩
    · exact .inl ⟨_, hn, .refl _⟩

/-- What was given out before is a matter of the bare nodes. -/
theorem succeeds_of_bare_eq {f g : Forest α}
    (same : g.nodes.map Node.bare = f.nodes.map Node.bare) : f.Succeeds g := by
  have alike : ∀ {n m : Node α}, m.bare = n.bare → n.Succeeds m := by
    intro n m bare
    have registrations : m.registrations = n.registrations :=
      (congrArg Node.registrations bare :)
    exact Node.succeeds_of_sublist (congrArg Node.nextToken bare :) (registrations ▸ .refl _)
  constructor
  · intro id n hn
    obtain ⟨m, hm, bare⟩ := exists_of_map_eq same.symm hn
    exact ⟨m, hm, alike bare.symm⟩
  · intro id m hm
    obtain ⟨n, hn, bare⟩ := exists_of_map_eq same hm
    exact .inl ⟨n, hn, alike bare⟩

theorem succeeds_of_nodes_eq {f g : Forest α} (same : g.nodes = f.nodes) : f.Succeeds g :=
  succeeds_of_bare_eq (by rw [same])

/-- A new node has no registrations. -/
theorem succeeds_push {f g : Forest α} {n : Node α} (nodes : g.nodes = f.nodes.push n)
    (registrations : n.registrations = []) : f.Succeeds g where
  forth hm := ⟨_, getElem?_of_push nodes hm, .refl _⟩
  back hm := by
    rcases push_cases nodes hm with hm | ⟨-, rfl⟩
    · exact .inl ⟨_, hm, .refl _⟩
    · refine .inr ⟨?_, ?_⟩ <;> simp [registrations]

theorem succeeds_bury (f : Forest α) (id : NodeId) (n : Node α) :
    f.Succeeds (f.bury id n).1 := by
  have buried : f.Succeeds (f.update id Node.buried) :=
    succeeds_update fun n => n.succeeds_of_sublist (m := n.buried) rfl (List.nil_sublist _)
  exact of_bury buried fun link =>
    buried.trans (succeeds_update fun p => p.succeeds_unsubscribe link.token)

/-- What a task does gives no token out again. -/
theorem Does.succeeds {f g : Forest α} {task : Task α} {new : List (Task α)}
    (does : f.Does task g new) : f.Succeeds g := by
  cases does with
  | hear actions => exact succeeds_of_nodes_eq rfl
  | miss _ => exact succeeds_of_nodes_eq rfl
  | ripple _ _ _ =>
      rw [ripple_fst]
      exact succeeds_update fun n => Node.succeeds_of_sublist rfl (.refl _)
  | @orphan source child token n _ _ _ =>
      rw [orphan_fst]
      have cut : f.Succeeds (f.update child Node.cutOff) :=
        succeeds_update fun n => n.succeeds_of_sublist (m := n.cutOff) rfl (List.nil_sublist _)
      exact cut.trans (succeeds_of_nodes_eq rfl)
  | look outcome _ reads =>
      exact (succeeds_of_bare_eq reads.bare.2).trans (succeeds_of_nodes_eq rfl)
  | @subscribe id n listener other action _ =>
      have subscribed : f.Succeeds (f.update id fun n => n.subscribe (.listener other)) :=
        succeeds_update fun n => n.succeeds_subscribe _
      exact subscribed.trans (succeeds_of_nodes_eq rfl)
  | @unsubscribe id n listener token _ =>
      have left : f.Succeeds (f.update id fun n => n.unsubscribe token) :=
        succeeds_update fun n => n.succeeds_unsubscribe _
      exact left.trans (succeeds_of_nodes_eq rfl)
  | @destroy id n listener _ => exact f.succeeds_bury id n
  | report => exact succeeds_of_nodes_eq rfl
  | release => exact succeeds_update fun n => Node.succeeds_of_sublist rfl (.refl _)

/-- What a command does before listeners run gives no token out again. -/
theorem Begins.succeeds {f g : Forest α} {touch : Touch α} {happening : Happening}
    {effect : Effect} (begins : f.Begins touch happening effect g) :
    f.Succeeds (g.begin effect).forest := by
  cases begins with
  | read reads => exact succeeds_of_bare_eq reads.bare.2
  | found _ _ nodes => exact succeeds_push nodes rfl
  | @branch _ parent p shape _ _ _ _ nodes =>
      have subscribed : f.Succeeds (f.update parent fun p => p.subscribe (.view f.nodes.size)) :=
        succeeds_update fun n => n.succeeds_subscribe _
      exact subscribed.trans (succeeds_push nodes rfl)
  | @listen id n listener _ => exact succeeds_update fun n => n.succeeds_subscribe _
  | @leave id n token _ => exact succeeds_update fun n => n.succeeds_unsubscribe _
  | @store _ id n value cells reads _ _ _ _ =>
      have read : f.Succeeds g := succeeds_of_bare_eq reads.bare.2
      exact read.trans (succeeds_update fun n => Node.succeeds_of_sublist rfl (.refl _))
  | @bury id n found =>
      simp only [begin, found]
      exact f.succeeds_bury id n

end Forest

/-! ## Agendas -/

/-- Two tasks do not tell one registration of the same event; of two changes, the one that comes
first is told by a younger node, or under an older token. -/
def Task.Apart : Task α → Task α → Prop
  | .deliver s a .destroyed, .deliver t b .destroyed => s = t → a.token ≠ b.token
  | .deliver s a .valueChanged, .deliver t b .valueChanged =>
    t < s ∨ t = s ∧ a.token < b.token
  | _, _ => True

/-- A task that delivers nothing. -/
def Task.Silent (t : Task α) : Prop :=
  ∀ source r event, t ≠ .deliver source r event

theorem Task.Silent.apart {t : Task α} (h : t.Silent) (other : Task α) :
    t.Apart other ∧ other.Apart t := by
  cases t with
  | deliver source r event => exact absurd rfl (h source r event)
  | act _ _ | report _ _ _ | release _ =>
      refine ⟨trivial, ?_⟩
      cases other with
      | deliver _ _ event => cases event <;> trivial
      | act _ _ | report _ _ _ | release _ => trivial

/-- Letting go of a node delivers nothing. -/
theorem silent_release (id : NodeId) : ∀ t ∈ [(.release id : Task α)], t.Silent := by
  intro t ht
  obtain rfl := List.mem_singleton.1 ht
  exact fun _ _ _ => nofun

/-- What is delivered by the deliveries of a node, whatever silent is done behind them. -/
theorem Situation.exists_of_deliver_mem_append {source other : NodeId} {event e : Event}
    {registrations : List (Registration α)} {r : Registration α} {rest : List (Task α)}
    (silent : ∀ t ∈ rest, t.Silent)
    (h : .deliver other r e ∈ Forest.deliveries source event registrations ++ rest) :
    other = source ∧ e = event ∧ r ∈ registrations := by
  rcases List.mem_append.1 h with h | h
  · exact exists_of_deliver_mem h
  · exact absurd rfl (silent _ h other r e)

/-- Tasks that are apart stay so when tasks that deliver nothing are put behind them. -/
theorem pairwise_apart_append {new rest : List (Task α)} (h : new.Pairwise Task.Apart)
    (silent : ∀ t ∈ rest, t.Silent) : (new ++ rest).Pairwise Task.Apart := by
  refine List.pairwise_append.2 ⟨h, ?_, fun a _ b hb => ((silent b hb).apart a).2⟩
  exact List.pairwise_of_forall_mem_list fun a ha b _ => ((silent a ha).apart b).1

/-- A node tells its registrations apart. -/
theorem Node.TokensOrdered.apart {n : Node α} (h : n.TokensOrdered) (source : NodeId)
    (event : Event) : (Forest.deliveries source event n.registrations).Pairwise Task.Apart := by
  refine List.pairwise_map.2 (h.1.imp fun {a b} earlier => ?_)
  cases event with
  | valueChanged => exact .inr ⟨rfl, earlier⟩
  | destroyed => exact fun _ => Nat.ne_of_lt earlier

/-- A younger node may tell of a change before everything that comes behind the change of an older
one. -/
theorem Task.Apart.younger {source child : NodeId} {r a : Registration α} {other : Task α}
    (h : (Task.deliver source r .valueChanged).Apart other) (younger : source < child) :
    (Task.deliver child a .valueChanged).Apart other := by
  cases other with
  | deliver t b event =>
      cases event with
      | valueChanged =>
          refine .inl ?_
          rcases h with older | ⟨rfl, -⟩
          · exact older.trans younger
          · exact younger
      | destroyed => trivial
  | act _ _ | report _ _ _ | release _ => trivial

namespace Situation

/-- Events that are pending are pending once. -/
structure Orderly (s : Situation α) : Prop where
  tokens : ∀ {id : NodeId} {n : Node α}, s.forest.nodes[id]? = some n → n.TokensOrdered
  /-- Events are told under tokens that were given out. -/
  used : ∀ {source : NodeId} {r : Registration α} {event : Event},
    .deliver source r event ∈ s.tasks →
      ∃ n, s.forest.nodes[source]? = some n ∧ r.token < n.nextToken
  /-- Whoever is to hear of a destruction is not registered any more. -/
  gone : ∀ {source : NodeId} {r : Registration α} {n : Node α},
    .deliver source r .destroyed ∈ s.tasks → s.forest.nodes[source]? = some n →
      ∀ a ∈ n.registrations, a.token ≠ r.token
  apart : s.tasks.Pairwise Task.Apart

variable {f g : Forest α} {task : Task α} {tasks new : List (Task α)}
  {changing now : Option NodeId}

/-- A step keeps order if what it puts on the agenda is told to registrations, which are lost if
it is a destruction, and is apart from what is left. -/
theorem Orderly.agenda (h : Orderly ⟨f, tasks, changing⟩) (after : f.Succeeds g)
    (told : ∀ source r event, .deliver source r event ∈ new →
      ∃ n, f.nodes[source]? = some n ∧ r ∈ n.registrations)
    (lost : ∀ source r, .deliver source r .destroyed ∈ new →
      ∃ m, g.nodes[source]? = some m ∧ m.registrations = [])
    (apart : new.Pairwise Task.Apart) (others : ∀ a ∈ new, ∀ b ∈ tasks, a.Apart b) :
    Orderly ⟨g, new ++ tasks, now⟩ where
  tokens hm := by
    rcases after.back hm with ⟨n, hn, succeeds⟩ | ordered
    · exact succeeds.tokens (h.tokens hn)
    · exact ordered
  used := by
    intro source r event hmem
    have before : ∃ n : Node α, f.nodes[source]? = some n ∧ r.token < n.nextToken := by
      rcases List.mem_append.1 hmem with hmem | hmem
      · obtain ⟨n, hn, hr⟩ := told _ _ _ hmem
        exact ⟨n, hn, (h.tokens hn).2 _ hr⟩
      · exact h.used hmem
    obtain ⟨n, hn, below⟩ := before
    obtain ⟨m, hm, succeeds⟩ := after.forth hn
    exact ⟨m, hm, below.trans_le succeeds.nextToken⟩
  gone := by
    intro source r m hmem hm a ha
    rcases List.mem_append.1 hmem with hmem | hmem
    · obtain ⟨k, hk, none⟩ := lost _ _ hmem
      obtain rfl := Option.some.inj (hk.symm.trans hm)
      rw [none] at ha
      cases ha
    · obtain ⟨n, hn, below⟩ := h.used hmem
      obtain ⟨k, hk, succeeds⟩ := after.forth hn
      obtain rfl := Option.some.inj (hk.symm.trans hm)
      -- a registration that has come since then has a token that was not given out before
      rcases succeeds.registrations a ha with ha | new
      · exact h.gone hmem hn a ha
      · exact Nat.ne_of_gt (below.trans_le new)
  apart := List.pairwise_append.2 ⟨apart, h.apart, others⟩

/-- Tasks that deliver nothing may be put on the agenda. -/
theorem Orderly.silent (h : Orderly ⟨f, tasks, changing⟩) (after : f.Succeeds g)
    (silent : ∀ t ∈ new, t.Silent) : Orderly ⟨g, new ++ tasks, now⟩ := by
  refine h.agenda after (fun source r event hmem => ?_) (fun source r hmem => ?_)
    (List.pairwise_of_forall_mem_list fun a ha b _ => ((silent a ha).apart b).1)
    fun a ha b _ => ((silent a ha).apart b).1
  · exact absurd rfl (silent _ hmem source r event)
  · exact absurd rfl (silent _ hmem source r .destroyed)

/-- What is behind the first task is in order. -/
theorem Orderly.tail (h : Orderly ⟨f, task :: tasks, changing⟩) :
    Orderly ⟨f, tasks, changing⟩ where
  tokens := h.tokens
  used hmem := h.used (List.mem_cons_of_mem _ hmem)
  gone hmem := h.gone (List.mem_cons_of_mem _ hmem)
  apart := (List.pairwise_cons.1 h.apart).2

/-- A node that loses its registrations may tell them that it is gone. -/
theorem Orderly.end (h : Orderly ⟨f, tasks, changing⟩) (after : f.Succeeds g) {id : NodeId}
    {n m : Node α} (found : f.nodes[id]? = some n) (ended : g.nodes[id]? = some m)
    (none : m.registrations = []) {rest : List (Task α)} (silent : ∀ t ∈ rest, t.Silent) :
    Orderly ⟨g, Forest.deliveries id .destroyed n.registrations ++ rest ++ tasks, now⟩ := by
  refine h.agenda after (fun source r event hmem => ?_) (fun source r hmem => ?_)
    (pairwise_apart_append ((h.tokens found).apart id .destroyed) silent) fun a ha b hb => ?_
  · obtain ⟨rfl, -, hr⟩ := exists_of_deliver_mem_append silent hmem
    exact ⟨n, found, hr⟩
  · obtain ⟨rfl, -, -⟩ := exists_of_deliver_mem_append silent hmem
    exact ⟨m, ended, none⟩
  · rcases List.mem_append.1 ha with ha | ha
    · obtain ⟨r, hr, rfl⟩ := List.mem_map.1 ha
      cases b with
      | deliver t other event =>
          cases event with
          | valueChanged => trivial
          | destroyed =>
              -- whoever is to hear of a destruction already is not registered any more
              rintro rfl
              exact h.gone hb found r hr
      | act _ _ | report _ _ _ | release _ => trivial
    · exact ((silent a ha).apart b).1

/-- Destroying a node keeps order. -/
theorem Orderly.bury (h : Orderly ⟨f, tasks, changing⟩) {id : NodeId} {n : Node α}
    (found : f.available? id = some n) {rest : List (Task α)} (silent : ∀ t ∈ rest, t.Silent) :
    Orderly ⟨(f.bury id n).1, (f.bury id n).2 ++ rest ++ tasks, changing⟩ := by
  have present := (Option.filter_eq_some_iff.1 found).1
  obtain ⟨m, hm, ended⟩ := Forest.exists_bury_self present
  have quiet : ∀ t ∈ .release id :: rest, t.Silent := by
    intro t ht
    rcases List.mem_cons.1 ht with rfl | ht
    · exact fun _ _ _ => nofun
    · exact silent t ht
  have ends : Orderly ⟨(f.bury id n).1, Forest.deliveries id .destroyed n.registrations ++
      .release id :: rest ++ tasks, changing⟩ :=
    h.end (f.succeeds_bury id n) present hm ended quiet
  simpa [Forest.bury] using ends

/-- What a task does keeps order. -/
theorem Orderly.does (h : Orderly ⟨f, task :: tasks, changing⟩) (does : f.Does task g new) :
    Orderly ⟨g, new ++ tasks, changing⟩ := by
  have after := does.succeeds
  have nothing : ∀ t ∈ ([] : List (Task α)), t.Silent := fun _ ht => absurd ht List.not_mem_nil
  have told : ∀ source r event, .deliver source r event ∈ new →
      ∃ n, f.nodes[source]? = some n ∧ r ∈ n.registrations := fun _ _ _ => does.told
  cases does with
  | hear actions =>
      refine h.tail.silent after fun t ht => ?_
      obtain ⟨_, -, rfl⟩ := List.mem_map.1 ht
      exact fun _ _ _ => nofun
  | miss _ => exact h.tail.silent after nothing
  | @ripple source child token n found _ younger =>
      refine h.tail.agenda after told (fun t r hmem => ?_) (pairwise_apart_append
        ((h.tokens found).apart child .valueChanged) (silent_release child)) fun a ha b hb => ?_
      · obtain ⟨-, wrong, -⟩ := exists_of_deliver_mem_release hmem
        cases wrong
      · rcases List.mem_append.1 ha with ha | ha
        -- the change comes from a younger node now, and goes on to be apart from what is behind it
        · obtain ⟨r, -, rfl⟩ := List.mem_map.1 ha
          exact ((List.pairwise_cons.1 h.apart).1 b hb).younger younger
        · exact ((silent_release child a ha).apart b).1
  | @orphan source child token n found _ _ =>
      have cut : (f.orphan child n).1.nodes[child]? = some n.cutOff :=
        Forest.getElem?_update_self found Node.cutOff
      exact h.tail.end after found cut rfl (silent_release child)
  | look outcome _ reads => exact h.tail.silent after nothing
  | subscribe _ => exact h.tail.silent after nothing
  | unsubscribe _ => exact h.tail.silent after nothing
  | destroy found =>
      refine h.tail.bury found fun t ht => ?_
      obtain rfl := List.mem_singleton.1 ht
      exact fun _ _ _ => nofun
  | report => exact h.tail.silent after nothing
  | release => exact h.tail.silent after nothing

/-- What a command does before listeners run keeps order. -/
theorem orderly_begin (h : (quiet f).Orderly) {touch : Touch α} {happening : Happening}
    {effect : Effect} (begins : f.Begins touch happening effect g) :
    (g.begin effect).Orderly := by
  have after := begins.succeeds
  have silent : ∀ t ∈ ([] : List (Task α)), t.Silent := fun _ ht => absurd ht List.not_mem_nil
  cases begins with
  | read _ => exact h.silent after silent
  | found _ _ _ => exact h.silent after silent
  | branch _ _ _ _ _ => exact h.silent after silent
  | listen _ => exact h.silent after silent
  | leave _ => exact h.silent after silent
  | @store _ id n value cells reads found _ _ _ =>
      have read : (quiet g).Orderly :=
        h.silent (Forest.succeeds_of_bare_eq reads.bare.2) silent
      have present := (Option.filter_eq_some_iff.1 found).1
      have stored : g.Succeeds (storing g id value).forest :=
        Forest.succeeds_update fun n => Node.succeeds_of_sublist rfl (.refl _)
      have told : (storing g id value).tasks =
          Forest.deliveries id .valueChanged n.registrations := by
        simp [storing, present]
      have orderly : Orderly ⟨(storing g id value).forest, (storing g id value).tasks ++ [],
          some id⟩ := read.agenda stored (fun source r event hmem => ?_) (fun source r hmem => ?_)
        (told ▸ (read.tokens present).apart id .valueChanged)
          fun _ _ _ hb => absurd hb List.not_mem_nil
      · rwa [List.append_nil] at orderly
      · obtain ⟨rfl, -, hr⟩ := exists_of_deliver_mem (told ▸ hmem)
        exact ⟨n, present, hr⟩
      · obtain ⟨-, wrong, -⟩ := exists_of_deliver_mem (told ▸ hmem)
        cases wrong
  | @bury id n found =>
      have buried : Orderly ⟨(f.bury id n).1, (f.bury id n).2 ++ [] ++ [], none⟩ :=
        h.bury found silent
      simp only [List.append_nil] at buried
      simp only [Forest.begin, found]
      exact buried

/-- Every move keeps order. -/
theorem Orderly.next [RandomSource G] [LawfulRandomSource G] {s t : Situation α}
    {move : Move α G} (h : s.Orderly) (sound : s.forest.Sound) (step : Next move s t) :
    t.Orderly := by
  have silent : ∀ t ∈ ([] : List (Task α)), t.Silent := fun _ ht => absurd ht List.not_mem_nil
  cases step with
  | call command begun =>
      obtain ⟨_, _, -, -, -, begins⟩ := Forest.begins_of_prelude sound begun
      exact orderly_begin h begins
  | refuse command failed =>
      have reads := (Forest.reads_of_prelude_error sound failed).2
      exact h.silent (Forest.succeeds_of_bare_eq reads.bare.2) silent
  | @step react f task tasks changing => exact h.does (Forest.does_step sound react task)
  | finish =>
      refine h.silent (Forest.succeeds_update fun n => ?_) silent
      exact Node.succeeds_of_sublist rfl (.refl _)
  | @forget f =>
      have same : f.Succeeds { f with trace := [], log := [] } := Forest.succeeds_of_nodes_eq rfl
      exact h.silent same silent

end Situation

/-- In every situation that a run comes to, events that are pending are pending once. -/
theorem Reached.orderly [RandomSource G] [LawfulRandomSource G]
    {allowed : Situation α → Move α G → Prop} {s : Situation α} (h : Reached allowed s) :
    s.Orderly := by
  induction h with
  | start =>
      refine ⟨fun found => ?_, fun hmem => absurd hmem List.not_mem_nil,
        fun hmem => absurd hmem List.not_mem_nil, .nil⟩
      simp [Situation.quiet, Forest.empty] at found
  | next before _ step ih => exact ih.next before.ordered.forest.sound step

end SparseTensor
