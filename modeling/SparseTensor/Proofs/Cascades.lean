/-
# Cascades come to an end

What a change or a destruction sets off is a cascade: listeners hear of it, views pass it on, and
what listeners do may destroy and orphan further nodes, which tell their own registrations.  Nobody
stands aside: a listener may react in another way every time it hears something, register others
with nodes that are still to tell, and remove any registration.

`Cascade` follows a delivery task by task and keeps a record of what happens to registrations and
nodes (`Incident`).  That it ends does not depend on where it starts: every task uses up the budget
of the forest or is replaced by tasks of smaller rank (`wellFounded_task`).  That nothing happens
twice depends on what runs keep, and on one more invariant (`Situation.Once`), which speaks of the
record and of what is pending together:

* a view hears its parent under the one registration it was given, and nothing that happens in a
  cascade registers a view, so a node tells of a change only once, when it hears of it itself;
* a node that tells of its end has lost its registrations, and tokens are given out once;
* a node that is gone, or orphaned, stays so.

`cascade_ends` puts this together for the call of any command.
-/
import SparseTensor.Proofs.LastEvents
import SparseTensor.Proofs.Orphans

namespace SparseTensor

variable {α G : Type}

/-! ## What happens in a cascade -/

/-- Something that happens to a registration or to a node. -/
inductive Incident
  /-- The registration of a node under a token is told of an event. -/
  | told (source : NodeId) (token : Token) (event : Event)
  /-- The destruction of a node begins. -/
  | destroyed (id : NodeId)
  | orphaned (id : NodeId)
  deriving DecidableEq

/-- What is told by a task. -/
def Task.telling? : Task α → Option Incident
  | .deliver source r event => some (.told source r.token event)
  | _ => none

/-- What is still to be told according to an agenda. -/
def pending (tasks : List (Task α)) : List Incident :=
  tasks.filterMap Task.telling?

/-- Whether a node is there to be orphaned. -/
def Forest.isHeldView (f : Forest α) (child : NodeId) : Bool :=
  f.nodes[child]?.any fun n => n.holders ≠ 0 && !n.orphaned

/-- The nodes that a task puts an end to. -/
def Forest.endings (f : Forest α) : Task α → List Incident
  | .deliver _ ⟨_, .view child⟩ .destroyed => if f.isHeldView child then [.orphaned child] else []
  | .act _ ⟨some id, .destroy⟩ => if (f.available? id).isSome then [.destroyed id] else []
  | _ => []

/-- All that happens when a task is done. -/
def Forest.incidents (f : Forest α) (task : Task α) : List Incident :=
  task.telling?.toList ++ f.endings task

/-- What happens when an effect begins. -/
def Effect.incidents : Effect → List Incident
  | .bury id => [.destroyed id]
  | _ => []

/-- Doing the first task of an agenda, with what happens to registrations and nodes.  Listeners may
react in any way. -/
inductive Situation.Advances : Situation α → List Incident → Situation α → Prop
  | task (react : Reaction α) {f : Forest α} {task : Task α} {tasks : List (Task α)}
      {changing : Option NodeId} :
    Advances ⟨f, task :: tasks, changing⟩ (f.incidents task)
      ⟨(f.step react task).1, (f.step react task).2 ++ tasks, changing⟩

/-- The situations that a situation leads to, one task after another, with all that happens on the
way. -/
inductive Cascade (s : Situation α) : List Incident → Situation α → Prop
  | start : Cascade s [] s
  | next {news more : List Incident} {t u : Situation α} :
    Cascade s news t → t.Advances more u → Cascade s (news ++ more) u

/-- No cascade goes on forever, wherever it starts. -/
theorem wellFounded_task : WellFounded fun t s : Situation α => ∃ news, s.Advances news t := by
  refine Subrelation.wf ?_
    (InvImage.wf (fun s : Situation α => s.forest.agenda s.tasks) Agenda.wellFounded_follows)
  rintro _ _ ⟨_, ⟨react⟩⟩
  exact Forest.follows_step react _ _ _

/-- Listeners that react in one way take part in a cascade. -/
theorem Situation.Leads.cascade {react : Reaction α} {s t : Situation α} (h : s.Leads react t) :
    ∃ news, Cascade s news t := by
  induction h with
  | refl => exact ⟨[], .start⟩
  | step _ ih =>
      obtain ⟨news, cascade⟩ := ih
      exact ⟨_, cascade.next (.task react)⟩

/-- What a cascade leads to is reached. -/
theorem Cascade.reached [RandomSource G] {s t : Situation α} {news : List Incident}
    (h : Cascade s news t) (first : Reached (fun _ (_ : Move α G) => True) s) :
    Reached (fun _ (_ : Move α G) => True) t := by
  induction h with
  | start => exact first
  | next _ advances ih =>
      obtain ⟨react⟩ := advances
      exact ih.next trivial (.step react)

/-! ## Nodes wane -/

/-- What may become of a node in a cascade: it keeps its shape, a canonical one stays canonical, it is
not lent out again, it stays an orphan, and no view is registered with it. -/
structure Node.Wanes (n m : Node α) : Prop where
  shape : m.shape = n.shape
  canonical : n.role = .canonical → m.role = .canonical
  available : n.available = false → m.available = false
  orphaned : n.orphaned = true → m.orphaned = true
  hooks : ∀ token child, ⟨token, .view child⟩ ∈ m.registrations →
    (⟨token, .view child⟩ : Registration α) ∈ n.registrations

namespace Node

theorem Wanes.refl (n : Node α) : n.Wanes n :=
  ⟨rfl, fun h => h, fun h => h, fun h => h, fun _ _ h => h⟩

theorem Wanes.trans {n m k : Node α} (nm : n.Wanes m) (mk : m.Wanes k) : n.Wanes k where
  shape := mk.shape.trans nm.shape
  canonical h := mk.canonical (nm.canonical h)
  available h := mk.available (nm.available h)
  orphaned h := mk.orphaned (nm.orphaned h)
  hooks token child h := nm.hooks token child (mk.hooks token child h)

/-- A change that has nothing to do with links. -/
theorem Mild.wanes {n m : Node α} (h : n.Mild m) (shape : m.shape = n.shape)
    (available : m.available = n.available) : n.Wanes m where
  shape := shape
  canonical role := h.role.trans role
  available gone := available.trans gone
  orphaned orphan := h.orphaned.trans orphan
  hooks := h.hooks

theorem wanes_cutOff (n : Node α) : n.Wanes n.cutOff :=
  ⟨rfl, fun h => congrArg Role.unlinked h, fun h => h, fun _ => rfl,
    fun _ _ hook => absurd hook List.not_mem_nil⟩

theorem wanes_buried (n : Node α) : n.Wanes n.buried :=
  ⟨rfl, fun h => congrArg Role.unlinked h, fun _ => rfl, fun h => h,
    fun _ _ hook => absurd hook List.not_mem_nil⟩

end Node

namespace Forest

/-- What may become of a forest in a cascade. -/
structure Wanes (f g : Forest α) : Prop where
  forth : ∀ {id : NodeId} {n : Node α}, f.nodes[id]? = some n →
    ∃ m, g.nodes[id]? = some m ∧ n.Wanes m
  back : ∀ {id : NodeId} {m : Node α}, g.nodes[id]? = some m →
    ∃ n, f.nodes[id]? = some n ∧ n.Wanes m

theorem Wanes.trans {f g h : Forest α} (fg : f.Wanes g) (gh : g.Wanes h) : f.Wanes h where
  forth hn := by
    obtain ⟨m, hm, first⟩ := fg.forth hn
    obtain ⟨k, hk, second⟩ := gh.forth hm
    exact ⟨k, hk, first.trans second⟩
  back hk := by
    obtain ⟨m, hm, second⟩ := gh.back hk
    obtain ⟨n, hn, first⟩ := fg.back hm
    exact ⟨n, hn, first.trans second⟩

theorem wanes_update {f : Forest α} {id : NodeId} {u : Node α → Node α}
    (h : ∀ n : Node α, n.Wanes (u n)) : f.Wanes (f.update id u) where
  forth hn := by
    obtain ⟨m, hm, ⟨-, rfl⟩ | ⟨-, rfl⟩⟩ := exists_update hn id u
    · exact ⟨_, hm, h _⟩
    · exact ⟨m, hm, .refl m⟩
  back hm := by
    obtain ⟨n, hn, ⟨-, rfl⟩ | ⟨-, rfl⟩⟩ := update_cases hm
    · exact ⟨n, hn, h n⟩
    · exact ⟨_, hn, .refl _⟩

theorem wanes_of_bare_eq {f g : Forest α}
    (same : g.nodes.map Node.bare = f.nodes.map Node.bare) : f.Wanes g := by
  have alike : ∀ {n m : Node α}, m.bare = n.bare → n.Wanes m := by
    intro n m bare
    have registrations : m.registrations = n.registrations :=
      (congrArg Node.registrations bare :)
    refine ⟨(congrArg Node.shape bare :), fun role => ?_, fun gone => ?_, fun orphan => ?_,
      fun _ _ hook => registrations ▸ hook⟩
    · exact (congrArg Node.role bare :).trans role
    · exact (congrArg Node.available bare :).trans gone
    · exact (congrArg Node.orphaned bare :).trans orphan
  constructor
  · intro id n hn
    obtain ⟨m, hm, bare⟩ := exists_of_map_eq same.symm hn
    exact ⟨m, hm, alike bare.symm⟩
  · intro id m hm
    obtain ⟨n, hn, bare⟩ := exists_of_map_eq same hm
    exact ⟨n, hn, alike bare⟩

theorem wanes_of_nodes_eq {f g : Forest α} (same : g.nodes = f.nodes) : f.Wanes g :=
  wanes_of_bare_eq (by rw [same])

theorem wanes_bury (f : Forest α) (id : NodeId) (n : Node α) : f.Wanes (f.bury id n).1 := by
  have buried : f.Wanes (f.update id Node.buried) := wanes_update Node.wanes_buried
  exact of_bury buried fun link =>
    buried.trans (wanes_update fun p => (p.mild_unsubscribe link.token).wanes rfl rfl)

/-- Whatever a task does, nodes wane. -/
theorem Does.wanes {f g : Forest α} {task : Task α} {new : List (Task α)}
    (does : f.Does task g new) : f.Wanes g := by
  cases does with
  | hear _ => exact wanes_of_nodes_eq rfl
  | miss _ => exact wanes_of_nodes_eq rfl
  | @ripple source child token n _ _ _ =>
      rw [ripple_fst]
      exact wanes_update fun n => ⟨rfl, fun h => h, fun h => h, fun h => h, fun _ _ hook => hook⟩
  | @orphan source child token n _ _ _ =>
      rw [orphan_fst]
      exact (wanes_update Node.wanes_cutOff).trans (wanes_of_nodes_eq rfl)
  | look _ _ reads => exact (wanes_of_bare_eq reads.bare.2).trans (wanes_of_nodes_eq rfl)
  | @subscribe id n listener other action _ =>
      have subscribed : f.Wanes (f.update id fun n => n.subscribe (.listener other)) :=
        wanes_update fun n => (n.mild_subscribe other).wanes rfl rfl
      exact subscribed.trans (wanes_of_nodes_eq rfl)
  | @unsubscribe id n listener token _ =>
      have left : f.Wanes (f.update id fun n => n.unsubscribe token) :=
        wanes_update fun n => (n.mild_unsubscribe token).wanes rfl rfl
      exact left.trans (wanes_of_nodes_eq rfl)
  | @destroy id n listener _ => exact f.wanes_bury id n
  | report => exact wanes_of_nodes_eq rfl
  | release =>
      exact wanes_update fun n => ⟨rfl, fun h => h, fun h => h, fun h => h, fun _ _ hook => hook⟩

end Forest

/-! ## Traces that incidents leave -/

/-- What shows in a forest that something has happened.  A change leaves no trace. -/
def Incident.Lasts (f : Forest α) : Incident → Prop
  | told _ _ .valueChanged => True
  | told source token .destroyed => f.Spent source token
  | destroyed id => ∃ n, f.nodes[id]? = some n ∧ n.available = false
  | orphaned id => ∃ n, f.nodes[id]? = some n ∧ n.orphaned = true

section

variable {f g : Forest α} {task : Task α} {new tasks : List (Task α)} {changing : Option NodeId}

/-- What shows goes on to show. -/
theorem Incident.Lasts.does {x : Incident} (h : x.Lasts f) (does : f.Does task g new) :
    x.Lasts g := by
  cases x with
  | told source token event =>
      cases event with
      | valueChanged => trivial
      | destroyed => exact Forest.Spent.succeeds h does.succeeds
  | destroyed id =>
      obtain ⟨n, hn, gone⟩ := h
      obtain ⟨m, hm, wanes⟩ := does.wanes.forth hn
      exact ⟨m, hm, wanes.available gone⟩
  | orphaned id =>
      obtain ⟨n, hn, orphan⟩ := h
      obtain ⟨m, hm, wanes⟩ := does.wanes.forth hn
      exact ⟨m, hm, wanes.orphaned orphan⟩

/-- What a task puts an end to has not ended before, and has ended then. -/
theorem Forest.lasts_of_mem_endings (sound : f.Sound) (react : Reaction α) {x : Incident}
    (h : x ∈ f.endings task) : ¬ x.Lasts f ∧ x.Lasts (f.step react task).1 := by
  unfold endings at h
  split at h
  · rename_i source token child
    split at h
    · rename_i there
      obtain rfl := List.mem_singleton.1 h
      obtain ⟨n, hn, held⟩ := (Option.any_eq_true _ _).1 there
      simp only [Bool.and_eq_true, decide_eq_true_eq, Bool.not_eq_true'] at held
      constructor
      · rintro ⟨m, hm, orphan⟩
        obtain rfl := Option.some.inj (hn.symm.trans hm)
        rw [held.2] at orphan
        cases orphan
      · have orphans : (f.step react (.deliver source ⟨token, .view child⟩ .destroyed)).1 =
            (f.orphan child n).1 := by
          simp [step, passOn, hn, held.1, held.2]
        rw [orphans, orphan_fst]
        exact ⟨_, getElem?_update_self hn Node.cutOff, rfl⟩
    · cases h
  · rename_i listener id
    split at h
    · rename_i lent
      obtain rfl := List.mem_singleton.1 h
      obtain ⟨n, found⟩ := Option.isSome_iff_exists.1 lent
      obtain ⟨hn, available⟩ := Option.filter_eq_some_iff.1 found
      constructor
      · rintro ⟨m, hm, gone⟩
        obtain rfl := Option.some.inj (hn.symm.trans hm)
        rw [available] at gone
        cases gone
      · have buried : (f.step react (.act listener ⟨some id, .destroy⟩)).1 = (f.bury id n).1 := by
          simp [step, found, perform]
        rw [buried]
        exact ⟨_, getElem?_bury_self sound hn, rfl⟩
    · cases h
  · cases h

/-- A task puts an end to one node at most. -/
theorem Forest.nodup_endings (f : Forest α) (task : Task α) : (f.endings task).Nodup := by
  unfold endings
  split
  · split
    · exact List.nodup_singleton _
    · exact List.nodup_nil
  · split
    · exact List.nodup_singleton _
    · exact List.nodup_nil
  · exact List.nodup_nil

/-- What a task ends was not told of. -/
theorem Forest.not_told_of_mem_endings {x : Incident} (h : x ∈ f.endings task) {source : NodeId}
    {token : Token} {event : Event} : x ≠ .told source token event := by
  rintro rfl
  unfold endings at h
  split at h
  · split at h
    · cases List.mem_singleton.1 h
    · cases h
  · split at h
    · cases List.mem_singleton.1 h
    · cases h
  · cases h

/-! ## What is pending -/

@[simp] theorem pending_append (a b : List (Task α)) : pending (a ++ b) = pending a ++ pending b :=
  List.filterMap_append

/-- The first task tells first. -/
theorem pending_cons (task : Task α) (tasks : List (Task α)) :
    pending (task :: tasks) = task.telling?.toList ++ pending tasks := by
  cases telling : task.telling? <;> simp [pending, telling]

/-- Whatever is pending is to be delivered. -/
theorem mem_pending {x : Incident} (h : x ∈ pending tasks) :
    ∃ source r event, x = .told source r.token event ∧ .deliver source r event ∈ tasks := by
  obtain ⟨task, ht, telling⟩ := List.mem_filterMap.1 h
  unfold Task.telling? at telling
  split at telling
  · cases telling
    exact ⟨_, _, _, rfl, ht⟩
  · cases telling

/-- What is to be delivered is pending. -/
theorem told_mem_pending {source : NodeId} {r : Registration α} {event : Event}
    (h : .deliver source r event ∈ tasks) : .told source r.token event ∈ pending tasks :=
  List.mem_filterMap.2 ⟨_, h, rfl⟩

/-- Nothing is pending twice. -/
theorem Situation.Orderly.nodup_pending (h : Orderly ⟨f, tasks, changing⟩) :
    (pending tasks).Nodup := by
  refine List.pairwise_filterMap.2 (h.apart.imp fun {a b} apart x hx y hy => ?_)
  rintro rfl
  cases a with
  | deliver s r event =>
      cases b with
      | deliver t r' event' =>
          obtain ⟨rfl, same, rfl⟩ := Incident.told.inj (Option.some.inj (hy.trans hx.symm))
          cases event' with
          | valueChanged =>
              rcases apart with younger | ⟨-, earlier⟩
              · exact Nat.lt_irrefl _ younger
              · exact Nat.ne_of_lt earlier same.symm
          | destroyed => exact apart rfl same.symm
      | act _ _ | report _ _ _ | release _ => cases hy
  | act _ _ | report _ _ _ | release _ => cases hx

/-- A change is passed on by a view that hears of it. -/
theorem Forest.Does.told_change (does : f.Does task g new) {child : NodeId} {r : Registration α}
    (h : .deliver child r .valueChanged ∈ new) : ∃ parent token,
      task = .deliver parent ⟨token, .view child⟩ .valueChanged := by
  cases does with
  | hear actions =>
      obtain ⟨_, -, same⟩ := List.mem_map.1 h
      cases same
  | miss _ => cases h
  | @ripple source view token n _ _ _ =>
      obtain ⟨rfl, -, -⟩ := Situation.exists_of_deliver_mem_release h
      exact ⟨source, token, rfl⟩
  | orphan _ _ _ =>
      obtain ⟨-, wrong, -⟩ := Situation.exists_of_deliver_mem_release h
      cases wrong
  | look _ _ _ => cases h
  | subscribe _ => cases h
  | unsubscribe _ => cases h
  | destroy _ =>
      rcases List.mem_append.1 h with h | h
      · obtain ⟨-, wrong, -⟩ := Situation.exists_of_deliver_mem_release h
        cases wrong
      · cases List.mem_singleton.1 h
  | report => cases h
  | release => cases h

end

/-! ## Once -/

/-- The registration by which a view hears its parent. -/
def Forest.Hooks (f : Forest α) (parent : NodeId) (token : Token) (child : NodeId) : Prop :=
  ∃ n, f.nodes[parent]? = some n ∧ ⟨token, .view child⟩ ∈ n.registrations

/-- Whoever a task puts on the agenda as a view is registered, and nobody else is from then on. -/
theorem Forest.Does.hooks {f g : Forest α} {task : Task α} {new : List (Task α)}
    (does : f.Does task g new) {parent : NodeId} {token : Token} {child : NodeId}
    (h : g.Hooks parent token child) : f.Hooks parent token child := by
  obtain ⟨m, hm, hook⟩ := h
  obtain ⟨n, hn, wanes⟩ := does.wanes.back hm
  exact ⟨n, hn, wanes.hooks token child hook⟩

namespace Situation

/-- What is kept in a cascade that began in the forest `base`, when what has happened is `past`. -/
structure Once (base : Forest α) (past : List Incident) (s : Situation α) : Prop where
  /-- No view is registered that was not. -/
  hooks : ∀ {parent : NodeId} {token : Token} {child : NodeId},
    s.forest.Hooks parent token child → base.Hooks parent token child
  awaited : ∀ {source : NodeId} {token : Token} {child : NodeId} {event : Event},
    .deliver source ⟨token, .view child⟩ event ∈ s.tasks → base.Hooks source token child
  /-- A node tells of a change if it is the one that is changed, or when it has heard of it. -/
  changes : ∀ {source : NodeId} {token : Token},
    .told source token .valueChanged ∈ past ++ pending s.tasks → s.changing = some source ∨
      ∃ parent hook, base.Hooks parent hook source ∧ .told parent hook .valueChanged ∈ past
  lasts : ∀ x ∈ past ++ pending s.tasks, x.Lasts s.forest
  nodup : (past ++ pending s.tasks).Nodup

variable {base f g : Forest α} {past : List Incident} {task : Task α} {tasks new : List (Task α)}
  {changing : Option NodeId}

/-- What a task puts on the agenda was neither told before nor is it told by the task. -/
theorem Once.unheard (once : Once base past ⟨f, task :: tasks, changing⟩)
    (rooted : (quiet base).Rooted) (ordered : Ordered ⟨f, task :: tasks, changing⟩)
    (held : Held ⟨f, task :: tasks, changing⟩) (does : f.Does task g new) {x : Incident}
    (h : x ∈ pending new) : x ∉ past ++ pending (task :: tasks) := by
  obtain ⟨source, r, event, rfl, hmem⟩ := mem_pending h
  intro before
  cases event with
  | destroyed =>
      -- whoever is told of an end has lost its registration, and this one is registered
      obtain ⟨n, hn, hr⟩ := does.told hmem
      exact Forest.Spent.not_mem (once.lasts _ before) hn hr rfl
  | valueChanged =>
      obtain ⟨parent, token, rfl⟩ := does.told_change hmem
      have hook : base.Hooks parent token source := once.awaited List.mem_cons_self
      have here : Incident.told parent token .valueChanged ∈
          pending (.deliver parent (⟨token, .view source⟩ : Registration α) .valueChanged :: tasks) :=
        told_mem_pending List.mem_cons_self
      rcases once.changes before with root | ⟨other, otherToken, otherHook, told⟩
      -- the node that is changed is not a view
      · obtain ⟨n, hn, canonical, -⟩ := held.changed root
        obtain ⟨v, hv, isView⟩ := ordered.awaited List.mem_cons_self
        obtain rfl := Option.some.inj (hn.symm.trans hv)
        rw [canonical] at isView
        cases isView
      -- and a view that has heard of the change once does not hear of it again
      · obtain ⟨p, hp, registered⟩ := hook
        obtain ⟨q, hq, registered'⟩ := otherHook
        obtain ⟨-, -, v, hv, role⟩ := rooted.hooked hp registered
        obtain ⟨-, -, w, hw, role'⟩ := rooted.hooked hq registered'
        obtain rfl := Option.some.inj (hv.symm.trans hw)
        rw [role] at role'
        cases role'
        exact (List.nodup_append.1 once.nodup).2.2 _ told _ here rfl

/-- What has happened or is pending after a task was so before, or the task puts an end to
something, or has put it on the agenda. -/
theorem mem_record {x : Incident}
    (h : x ∈ (past ++ f.incidents task) ++ pending (new ++ tasks)) :
    x ∈ past ++ pending (task :: tasks) ∨ x ∈ f.endings task ∨ x ∈ pending new := by
  simp only [Forest.incidents, pending_append, pending_cons, List.mem_append] at h ⊢
  tauto

open scoped List in
/-- If nothing new has happened or was pending before, nothing happens twice. -/
theorem nodup_record (before : (past ++ pending (task :: tasks)).Nodup)
    (next : (pending (new ++ tasks)).Nodup)
    (ended : ∀ x ∈ f.endings task, x ∉ past ++ pending (task :: tasks))
    (unheard : ∀ x ∈ pending new, x ∉ past ++ pending (task :: tasks)) :
    ((past ++ f.incidents task) ++ pending (new ++ tasks)).Nodup := by
  have apart : (f.endings task ++ pending new).Nodup := by
    rw [pending_append] at next
    refine List.nodup_append.2 ⟨f.nodup_endings task, (List.nodup_append.1 next).1, ?_⟩
    intro x hx y hy
    obtain ⟨_, _, _, rfl, -⟩ := mem_pending hy
    exact Forest.not_told_of_mem_endings hx
  have whole : ((past ++ pending (task :: tasks)) ++ (f.endings task ++ pending new)).Nodup := by
    refine List.nodup_append.2 ⟨before, apart, fun x hx y hy => ?_⟩
    rintro rfl
    rcases List.mem_append.1 hy with hy | hy
    · exact ended x hy hx
    · exact unheard x hy hx
  refine (List.Perm.nodup_iff ?_).1 whole
  -- the same things in another order
  simp only [Forest.incidents, pending_append, pending_cons, List.append_assoc]
  refine .append_left _ (.append_left _ ?_)
  calc pending tasks ++ (f.endings task ++ pending new)
      = pending tasks ++ f.endings task ++ pending new := (List.append_assoc ..).symm
    _ ~ f.endings task ++ pending tasks ++ pending new := .append_right _ List.perm_append_comm
    _ = f.endings task ++ (pending tasks ++ pending new) := List.append_assoc ..
    _ ~ f.endings task ++ (pending new ++ pending tasks) := .append_left _ List.perm_append_comm

/-- Doing a task goes on to let everything happen once. -/
theorem Once.does (once : Once base past ⟨f, task :: tasks, changing⟩)
    (rooted : (quiet base).Rooted) (ordered : Ordered ⟨f, task :: tasks, changing⟩)
    (held : Held ⟨f, task :: tasks, changing⟩) (orderly : Orderly ⟨f, task :: tasks, changing⟩)
    (react : Reaction α) : Once base (past ++ f.incidents task)
      ⟨(f.step react task).1, (f.step react task).2 ++ tasks, changing⟩ := by
  have sound := ordered.forest.sound
  have does : f.Does task (f.step react task).1 (f.step react task).2 :=
    Forest.does_step sound react task
  have next := orderly.does does
  constructor
  · exact fun hook => once.hooks (does.hooks hook)
  · intro source token child event hmem
    rcases List.mem_append.1 hmem with hmem | hmem
    · exact once.hooks (does.told hmem)
    · exact once.awaited (List.mem_cons_of_mem _ hmem)
  · intro source token hmem
    rcases mem_record hmem with before | ended | new
    · refine (once.changes before).imp_right ?_
      rintro ⟨parent, hook, hooks, told⟩
      exact ⟨parent, hook, hooks, List.mem_append_left _ told⟩
    · exact absurd rfl (Forest.not_told_of_mem_endings ended)
    · -- the view that passes the change on has just heard of it
      obtain ⟨_, r, _, same, hmem⟩ := mem_pending new
      cases same
      obtain ⟨parent, hook, rfl⟩ := does.told_change hmem
      refine .inr ⟨parent, hook, once.awaited List.mem_cons_self, ?_⟩
      exact List.mem_append_right _ List.mem_cons_self
  · intro x hx
    rcases mem_record hx with before | ended | new
    · exact (once.lasts x before).does does
    · exact (Forest.lasts_of_mem_endings sound react ended).2
    · obtain ⟨source, r, event, rfl, hmem⟩ := mem_pending new
      cases event with
      | valueChanged => trivial
      | destroyed =>
          have hmem := List.mem_append_left tasks hmem
          obtain ⟨n, hn, below⟩ := next.used hmem
          exact ⟨n, hn, below, next.gone hmem hn⟩
  · refine nodup_record once.nodup next.nodup_pending (fun x hx before => ?_)
      fun x hx => once.unheard rooted ordered held does hx
    exact (Forest.lasts_of_mem_endings sound react hx).1 (once.lasts x before)

/-- Nothing has happened and nothing is pending. -/
theorem once_quiet (f : Forest α) : Once f [] (quiet f) where
  hooks h := h
  awaited hmem := absurd hmem List.not_mem_nil
  changes hmem := absurd hmem List.not_mem_nil
  lasts _ hx := absurd hx List.not_mem_nil
  nodup := List.nodup_nil

/-- Only the node that is changed tells of the change at first. -/
theorem once_storing {id : NodeId} {n : Node α} {value : Cache} (found : g.nodes[id]? = some n)
    (orderly : (storing g id value).Orderly) : Once g [] (storing g id value) := by
  have told : (storing g id value).tasks = Forest.deliveries id .valueChanged n.registrations := by
    simp [storing, found]
  have wanes : g.Wanes (g.update id fun n => { n with cache := value, available := false }) :=
    Forest.wanes_update fun n =>
      ⟨rfl, fun h => h, fun _ => rfl, fun h => h, fun _ _ hook => hook⟩
  have pending : ∀ x ∈ pending (storing g id value).tasks, ∃ token,
      x = .told id token .valueChanged := by
    intro x hx
    obtain ⟨source, r, event, rfl, hmem⟩ := mem_pending hx
    obtain ⟨rfl, rfl, -⟩ := exists_of_deliver_mem (told ▸ hmem)
    exact ⟨r.token, rfl⟩
  constructor
  · rintro parent token child ⟨m, hm, hook⟩
    obtain ⟨k, hk, kept⟩ := wanes.back hm
    exact ⟨k, hk, kept.hooks token child hook⟩
  · intro source token child event hmem
    obtain ⟨rfl, -, hr⟩ := exists_of_deliver_mem (told ▸ hmem)
    exact ⟨n, found, hr⟩
  · intro source token hmem
    obtain ⟨_, same⟩ := pending _ hmem
    cases same
    exact .inl rfl
  · intro x hx
    obtain ⟨token, rfl⟩ := pending x hx
    trivial
  · exact orderly.nodup_pending

/-- A node whose destruction begins tells of it under tokens that are spent. -/
theorem once_burying {id : NodeId} {n : Node α} (sound : f.Sound) (found : f.nodes[id]? = some n)
    (orderly : (burying f id n).Orderly) : Once f [.destroyed id] (burying f id n) := by
  have pending : ∀ x ∈ pending (burying f id n).tasks, ∃ r ∈ n.registrations,
      x = .told id r.token .destroyed ∧ .deliver id r .destroyed ∈ (burying f id n).tasks := by
    intro x hx
    obtain ⟨source, r, event, rfl, hmem⟩ := mem_pending hx
    obtain ⟨rfl, rfl, hr⟩ := exists_of_deliver_mem_release hmem
    exact ⟨r, hr, rfl, hmem⟩
  constructor
  · rintro parent token child ⟨m, hm, hook⟩
    obtain ⟨k, hk, kept⟩ := (f.wanes_bury id n).back hm
    exact ⟨k, hk, kept.hooks token child hook⟩
  · intro source token child event hmem
    obtain ⟨rfl, -, hr⟩ := exists_of_deliver_mem_release hmem
    exact ⟨n, found, hr⟩
  · intro source token hmem
    rcases List.mem_cons.1 hmem with wrong | hmem
    · cases wrong
    · obtain ⟨_, -, wrong, -⟩ := pending _ hmem
      cases wrong
  · intro x hx
    rcases List.mem_cons.1 hx with rfl | hx
    · exact ⟨_, Forest.getElem?_bury_self sound found, rfl⟩
    · obtain ⟨r, hr, rfl, hmem⟩ := pending x hx
      obtain ⟨m, hm, below⟩ := orderly.used hmem
      exact ⟨m, hm, below, orderly.gone hmem hm⟩
  · refine List.nodup_cons.2 ⟨fun hmem => ?_, orderly.nodup_pending⟩
    obtain ⟨_, -, wrong, -⟩ := pending _ hmem
    cases wrong

end Situation

section

variable [RandomSource G] [LawfulRandomSource G] {f g : Forest α} {command : Command α G}
  {answer : Answer G} {effect : Effect}

/-- The cascade of a command begins in a forest whose views hear their parents. -/
theorem exists_once (reached : Reached (fun _ (_ : Move α G) => True) (.quiet f))
    (begun : command.prelude f = .ok (answer, effect) g) :
    ∃ base : Forest α, base.Sound ∧ (Situation.quiet base).Rooted ∧
      (g.begin effect).Once base effect.incidents := by
  have next : Reached (fun _ (_ : Move α G) => True) (g.begin effect) :=
    reached.next trivial (.call command begun)
  have sound : f.Sound := reached.ordered.forest.sound
  obtain ⟨_, _, -, -, -, begins⟩ := Forest.begins_of_prelude sound begun
  have idle : effect = .nothing → ∃ base : Forest α, base.Sound ∧ (Situation.quiet base).Rooted ∧
      (g.begin effect).Once base effect.incidents := by
    rintro rfl
    exact ⟨g, next.ordered.forest.sound, next.rooted.2, Situation.once_quiet g⟩
  generalize command.touch = touch at begins
  cases begins with
  | read _ => exact idle rfl
  | found _ _ _ => exact idle rfl
  | branch _ _ _ _ _ => exact idle rfl
  | listen _ => exact idle rfl
  | leave _ => exact idle rfl
  | @store _ id n value cells reads found _ _ _ =>
      have read : Situation.Passages (.quiet f) (.quiet g) :=
        .of (Situation.passage_of_bare_eq reads.bare.2 rfl fun hmem => absurd hmem List.not_mem_nil)
      refine ⟨g, reads.sound sound, read.rooted reached.rooted.2, ?_⟩
      exact Situation.once_storing (Option.filter_eq_some_iff.1 found).1 next.orderly
  | @bury id n found =>
      have begins : f.begin (.bury id) = .burying f id n := by
        rw [Forest.begin, found]
      have orderly := next.orderly
      rw [begins] at orderly ⊢
      exact ⟨f, sound, reached.rooted.2,
        Situation.once_burying sound (Option.filter_eq_some_iff.1 found).1 orderly⟩

/-- All along a cascade everything happens once. -/
theorem Cascade.once {base : Forest α} {past news : List Incident} {s t : Situation α}
    (h : Cascade s news t) (reached : Reached (fun _ (_ : Move α G) => True) s)
    (rooted : (Situation.quiet base).Rooted) (once : s.Once base past) :
    t.Once base (past ++ news) := by
  induction h with
  | start =>
      rw [List.append_nil]
      exact once
  | next cascade advances ih =>
      have here := cascade.reached reached
      obtain ⟨react⟩ := advances
      rw [← List.append_assoc]
      exact ih.does rooted here.ordered here.rooted.1 here.orderly react

/-- What a command sets off comes to an end, whatever listeners do, and on the way no node is
destroyed twice or orphaned twice, and no registration is told twice of a change or of a
destruction.  No cascade can go on forever, from whatever situation; that views hear only of nodes
that are older is no restriction, since whoever is to hear of a node as a view is younger.  In
particular the call of the command comes to a result. -/
theorem cascade_ends {allowed : Situation α → Move α G → Prop} (reached : Reached allowed (.quiet f))
    (begun : command.prelude f = .ok (answer, effect) g) :
    (WellFounded fun t s : Situation α => ∃ news, s.Advances news t) ∧
      (∀ news t, Cascade (g.begin effect) news t → (effect.incidents ++ news).Nodup ∧
        ∀ source token child event, .deliver source ⟨token, .view child⟩ event ∈ t.tasks →
          source < child) ∧
      ∀ react : Reaction α, ∃ news t, Cascade (g.begin effect) news t ∧ t.tasks = [] ∧
        command.call react f = .ok answer t.finish := by
  refine ⟨wellFounded_task, fun news t cascade => ?_, fun react => ?_⟩
  · obtain ⟨base, sound, rooted, once⟩ := exists_once reached.anyhow begun
    have once := cascade.once (reached.anyhow.next trivial (.call command begun)) rooted once
    refine ⟨(List.nodup_append.1 once.nodup).1, fun source token child event hmem => ?_⟩
    obtain ⟨n, hn, hook⟩ := once.awaited hmem
    obtain ⟨-, -, v, hv, role⟩ := rooted.hooked hn hook
    exact (sound.linked hv role).1
  · have leads : (g.begin effect).Leads react (g.begin effect) := .refl
    obtain ⟨news, cascade⟩ := leads.complete.cascade
    refine ⟨news, _, cascade, rfl, ?_⟩
    rw [command.call_eq, bind_of_ok begun]
    have carried := g.carryOut_eq react effect
    unfold Situation.complete at carried
    rw [← carried]
    rfl

end

/-- What happens when the value of a node with a view of a view changes, and the first listener of
the latter destroys the view between them. -/
def destructionOnTheWay : List Incident :=
  [.told 0 0 .valueChanged, .told 1 0 .valueChanged, .told 2 0 .valueChanged, .destroyed 1,
    .told 1 0 .destroyed, .orphaned 2, .told 2 0 .destroyed, .told 2 1 .destroyed,
    .told 2 1 .valueChanged]

/-- That cascade ends, and nothing happens twice in it. -/
theorem cascade_with_destruction_ends :
    ∃ (f g : Forest Bool) (answer : Answer Generator) (effect : Effect) (t : Situation Bool),
      Reached (fun _ (_ : Move Bool Generator) => True) (.quiet f) ∧
        (Command.mutate 0 (.setSparse [1])).prelude f = .ok (answer, effect) g ∧
          Cascade (g.begin effect) destructionOnTheWay t ∧ t.tasks = [] ∧
            (effect.incidents ++ destructionOnTheWay).Nodup := by
  have reached : Reached (fun s (move : Move Bool Generator) => move.Tactful s) _ :=
    Detour.course_nodes.reached .start
  have begun : (Command.mutate 0 (.setSparse [1]) : Command Bool Generator).prelude
      ⟨#[Detour.parent, Detour.between, Detour.last], [], []⟩ =
        .ok (.done, .store 0 (.ofSparse [1]))
          ⟨#[Detour.parent, Detour.between, Detour.last], [], []⟩ := rfl
  have passed := (Cascade.start (s := Detour.changed)).next (.task Detour.react)
  have passedOn := passed.next (.task Detour.react)
  have heard : Cascade Detour.changed (destructionOnTheWay.take 3) Detour.told :=
    passedOn.next (.task Detour.react)
  have acted : Cascade Detour.changed (destructionOnTheWay.take 4) Detour.destroyed :=
    heard.next (.task Detour.react)
  have cutOff : Cascade Detour.changed (destructionOnTheWay.take 6) Detour.orphaned :=
    acted.next (.task Detour.react)
  have firstHeard := cutOff.next (.task Detour.react)
  have secondHeard := firstHeard.next (.task Detour.react)
  have released := secondHeard.next (.task Detour.react)
  have releasedToo := released.next (.task Detour.react)
  have reported := releasedToo.next (.task Detour.react)
  have changeHeard := reported.next (.task Detour.react)
  have whole : Cascade Detour.changed destructionOnTheWay _ :=
    (changeHeard.next (.task Detour.react)).next (.task Detour.react)
  exact ⟨_, _, _, _, _, reached.anyhow, begun, whole, rfl,
    ((cascade_ends reached.anyhow begun).2.1 _ _ whole).1⟩

end SparseTensor
