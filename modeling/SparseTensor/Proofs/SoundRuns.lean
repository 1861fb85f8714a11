/-
# Caches along runs

Caches are in order in every situation that a run can come to, also while listeners hear of a
change or a destruction and whatever they do (`Reached.ordered`).  What carries the induction is
that only views are registered as views: a canonical node is never told to forget its value.
-/
import SparseTensor.Proofs.Runs

namespace SparseTensor

variable {α G : Type}

/-! ## What deliveries do to a node -/

namespace Node

/-- A view that hears of a change. -/
def outdated (n : Node α) : Node α :=
  { n with cache := .stale, holders := n.holders + 1 }

/-- A view that hears of the destruction of its parent. -/
def cutOff (n : Node α) : Node α :=
  { n with
    orphaned := true
    role := n.role.unlinked
    cache := .stale
    registrations := []
    holders := n.holders + 1 }

/-- A node whose destruction has begun. -/
def buried (n : Node α) : Node α :=
  { n with available := false, role := n.role.unlinked, registrations := [] }

end Node

@[simp] theorem Role.isView_unlinked (r : Role) : r.unlinked.isView = r.isView := by
  cases r <;> rfl

@[simp] theorem Role.link?_unlinked (r : Role) : r.unlinked.link? = none := by
  cases r <;> rfl

namespace Forest

theorem ripple_fst (f : Forest α) (child : NodeId) (n : Node α) :
    (f.ripple child n).1 = f.update child Node.outdated := rfl

theorem orphan_fst (f : Forest α) (child : NodeId) (n : Node α) :
    (f.orphan child n).1 = (f.update child Node.cutOff).noteAll [.orphanedView n.shape.dims] := rfl

/-- A node that is destroyed leaves its parent if it has one that is alive. -/
theorem bury_fst (f : Forest α) (id : NodeId) (n : Node α) :
    (f.bury id n).1 = f.update id Node.buried ∧
        (∀ link, n.role = .view (some link) → f.isAlive link.parent = false) ∨
      ∃ link, n.role = .view (some link) ∧
        (f.bury id n).1 =
          (f.update id Node.buried).update link.parent fun p => p.unsubscribe link.token := by
  have alive : ∀ j, (f.update id Node.buried).isAlive j = f.isAlive j :=
    isAlive_update fun _ => rfl
  unfold bury
  rcases role : n.role with _ | _ | link
  · exact .inl ⟨rfl, fun _ linked => by cases linked⟩
  · exact .inl ⟨rfl, fun _ linked => by cases linked⟩
  · simp only [Role.link?]
    split
    · exact .inr ⟨link, rfl, rfl⟩
    · rename_i gone
      refine .inl ⟨rfl, ?_⟩
      rintro _ ⟨⟩
      rw [← alive]
      exact Bool.eq_false_iff.2 gone

/-- What holds once a node is emptied and goes on to hold when it leaves its parent holds when it is
destroyed. -/
theorem of_bury {P : Forest α → Prop} {f : Forest α} {id : NodeId} {n : Node α}
    (buried : P (f.update id Node.buried))
    (left : ∀ link : Link,
      P ((f.update id Node.buried).update link.parent fun p => p.unsubscribe link.token)) :
    P (f.bury id n).1 := by
  rcases f.bury_fst id n with ⟨same, -⟩ | ⟨link, -, same⟩
  · exact same ▸ buried
  · exact same ▸ left link

theorem size_bury (f : Forest α) (id : NodeId) (n : Node α) :
    (f.bury id n).1.nodes.size = f.nodes.size :=
  of_bury (P := fun g => g.nodes.size = f.nodes.size) (by simp) fun _ => by simp

/-- A node that is destroyed tells nobody any more, whether links lead to other nodes or not. -/
theorem exists_bury_self {f : Forest α} {id : NodeId} {n : Node α}
    (found : f.nodes[id]? = some n) :
    ∃ m, (f.bury id n).1.nodes[id]? = some m ∧ m.registrations = [] := by
  have emptied := getElem?_update_self found Node.buried
  refine of_bury (P := fun g => ∃ m, g.nodes[id]? = some m ∧ m.registrations = [])
    ⟨_, emptied, rfl⟩ fun link => ?_
  obtain ⟨m, hm, ⟨-, rfl⟩ | ⟨-, rfl⟩⟩ := exists_update emptied link.parent
    fun p => p.unsubscribe link.token
  · exact ⟨_, hm, rfl⟩
  · exact ⟨_, hm, rfl⟩

/-- A node that is destroyed leaves a parent that is older. -/
theorem getElem?_bury_self {f : Forest α} (sound : f.Sound) {id : NodeId} {n : Node α}
    (found : f.nodes[id]? = some n) : (f.bury id n).1.nodes[id]? = some n.buried := by
  have buried := getElem?_update_self found Node.buried
  rcases f.bury_fst id n with ⟨same, -⟩ | ⟨link, role, same⟩
  · rw [same, buried]
  · have older := (sound.linked found role).1
    rw [same, getElem?_update, if_neg (Nat.ne_of_lt older), buried]

/-- The destruction of a node touches no younger node. -/
theorem getElem?_bury_of_lt {f : Forest α} (sound : f.Sound) {id j : NodeId} {n : Node α}
    (found : f.nodes[id]? = some n) (younger : id < j) :
    (f.bury id n).1.nodes[j]? = f.nodes[j]? := by
  rcases f.bury_fst id n with ⟨same, -⟩ | ⟨link, role, same⟩
  · rw [same, getElem?_update, if_neg (Nat.ne_of_lt younger)]
  · have older := (sound.linked found role).1
    rw [same, getElem?_update, if_neg (Nat.ne_of_lt (older.trans younger)),
      getElem?_update, if_neg (Nat.ne_of_lt younger)]

/-! ## Views -/

/-- There is a view with this name. -/
def HasView (f : Forest α) (id : NodeId) : Prop :=
  ∃ n, f.nodes[id]? = some n ∧ n.role.isView = true

/-- Views stay views. -/
theorem HasView.update {f : Forest α} {child : NodeId} (h : f.HasView child) {id : NodeId}
    {g : Node α → Node α} (same : ∀ n, (g n).role.isView = n.role.isView) :
    (f.update id g).HasView child := by
  obtain ⟨n, found, isView⟩ := h
  obtain ⟨m, hm, ⟨-, rfl⟩ | ⟨-, rfl⟩⟩ := exists_update found id g
  · exact ⟨g n, hm, (same n).trans isView⟩
  · exact ⟨m, hm, isView⟩

/-- Views stay views when nodes are added. -/
theorem HasView.push {f g : Forest α} {child : NodeId} (h : f.HasView child) {n : Node α}
    (nodes : g.nodes = f.nodes.push n) : g.HasView child := by
  obtain ⟨m, found, isView⟩ := h
  exact ⟨m, getElem?_of_push nodes found, isView⟩

/-- Views stay views when they are read. -/
theorem Reads.hasView {f g : Forest α} (reads : f.Reads g) {child : NodeId}
    (h : f.HasView child) : g.HasView child := by
  obtain ⟨n, found, isView⟩ := h
  obtain ⟨m, hm, bare, -⟩ := reads.node found
  have role : m.role = n.role := by simpa using congrArg Node.role bare
  exact ⟨m, hm, role ▸ isView⟩

/-! ## Forests in order -/

/-- Caches are in order, and only views are registered as views. -/
structure Ordered (f : Forest α) : Prop where
  sound : f.Sound
  hooks : ∀ {id : NodeId} {n : Node α} {token : Token} {child : NodeId},
    f.nodes[id]? = some n → ⟨token, .view child⟩ ∈ n.registrations → f.HasView child

/-- Changes of a node that keep its shape, keep or drop its link, and register no view. -/
structure Tame (g : Node α → Node α) : Prop where
  shape : ∀ n, (g n).shape = n.shape
  role : ∀ n, (g n).role = n.role ∨ (g n).role = n.role.unlinked
  hooks : ∀ n token child, ⟨token, .view child⟩ ∈ (g n).registrations →
    ⟨token, .view child⟩ ∈ n.registrations

theorem Tame.isView {g : Node α → Node α} (tame : Tame g) (n : Node α) :
    (g n).role.isView = n.role.isView := by
  rcases tame.role n with same | dropped
  · rw [same]
  · rw [dropped, Role.isView_unlinked]

/-- A tame change keeps order if the cache of the node is in order again. -/
theorem Ordered.update {f : Forest α} (h : f.Ordered) {id : NodeId} {g : Node α → Node α}
    (tame : Tame g)
    (holds : ∀ n, f.nodes[id]? = some n → (g n).cache.Holds n.shape (g n).cells)
    (canonical : ∀ n, f.nodes[id]? = some n → n.role = .canonical → (g n).isFresh = true) :
    (f.update id g).Ordered where
  sound := by
    refine h.sound.update tame.shape (fun n link linked => ?_) holds fun n found isCanonical => ?_
    · rcases tame.role n with same | dropped
      · rw [← same, linked]
      · rw [dropped] at linked
        cases role : n.role <;> simp [role, Role.unlinked] at linked
    · refine canonical n found ?_
      have isView := tame.isView n
      rw [isCanonical] at isView
      cases role : n.role with
      | canonical => rfl
      | view link =>
          rw [role] at isView
          cases isView
  hooks := by
    intro j m token child found hook
    obtain ⟨n, hn, ⟨-, rfl⟩ | ⟨-, rfl⟩⟩ := update_cases found
    · exact (h.hooks hn (tame.hooks n token child hook)).update tame.isView
    · exact (h.hooks hn hook).update tame.isView

/-- A tame change that keeps the cache keeps order. -/
theorem Ordered.update_of_cache_eq {f : Forest α} (h : f.Ordered) {id : NodeId}
    {g : Node α → Node α} (tame : Tame g) (cache : ∀ n, (g n).cache = n.cache) :
    (f.update id g).Ordered := by
  refine h.update tame (fun n found => ?_) fun n found isCanonical => ?_
  · have same : (g n).cells = n.cells := by
      unfold Node.cells
      rw [cache, tame.shape]
    rw [cache, same]
    exact h.sound.holds found
  · unfold Node.isFresh
    rw [cache]
    exact h.sound.canonical found isCanonical

/-- Order is a matter of the nodes only. -/
theorem Ordered.of_nodes_eq {f g : Forest α} (h : f.Ordered) (same : g.nodes = f.nodes) :
    g.Ordered where
  sound := h.sound.of_nodes_eq same
  hooks found hook := by
    unfold HasView
    rw [same]
    exact h.hooks (same ▸ found) hook

/-- Reading keeps order. -/
theorem Reads.ordered {f g : Forest α} (reads : f.Reads g) (h : f.Ordered) : g.Ordered where
  sound := reads.sound h.sound
  hooks := by
    intro id m token child found hook
    obtain ⟨n, hn, bare⟩ := exists_of_map_eq reads.bare.2 found
    have registrations : m.registrations = n.registrations := by
      simpa using congrArg Node.registrations bare
    exact reads.hasView (h.hooks hn (registrations ▸ hook))

/-! ## Tame changes -/

theorem tame_outdated : Tame (Node.outdated : Node α → Node α) :=
  ⟨fun _ => rfl, fun _ => .inl rfl, fun _ _ _ h => h⟩

theorem tame_cutOff : Tame (Node.cutOff : Node α → Node α) :=
  ⟨fun _ => rfl, fun _ => .inr rfl, fun _ _ _ h => absurd h List.not_mem_nil⟩

theorem tame_buried : Tame (Node.buried : Node α → Node α) :=
  ⟨fun _ => rfl, fun _ => .inr rfl, fun _ _ _ h => absurd h List.not_mem_nil⟩

theorem tame_unsubscribe (token : Token) : Tame fun n : Node α => n.unsubscribe token :=
  ⟨fun _ => rfl, fun _ => .inl rfl, fun _ _ _ h => List.mem_of_mem_filter h⟩

theorem tame_subscribe (listener : α) :
    Tame fun n : Node α => n.subscribe (.listener listener) := by
  refine ⟨fun _ => rfl, fun _ => .inl rfl, fun n token child h => ?_⟩
  rcases List.mem_append.1 h with h | h
  · exact h
  · cases List.mem_singleton.1 h

theorem tame_release : Tame fun n : Node α => { n with holders := n.holders - 1 } :=
  ⟨fun _ => rfl, fun _ => .inl rfl, fun _ _ _ h => h⟩

theorem tame_store (value : Cache) :
    Tame fun n : Node α => { n with cache := value, available := false } :=
  ⟨fun _ => rfl, fun _ => .inl rfl, fun _ _ _ h => h⟩

theorem tame_finish : Tame fun n : Node α => { n with available := true } :=
  ⟨fun _ => rfl, fun _ => .inl rfl, fun _ _ _ h => h⟩

/-- A tame change of a view that makes it forget what it has read keeps order. -/
theorem Ordered.forget {f : Forest α} (h : f.Ordered) {id : NodeId} {g : Node α → Node α}
    (tame : Tame g) (view : f.HasView id) (cache : ∀ n, (g n).cache = .stale) :
    (f.update id g).Ordered := by
  refine h.update tame (fun n _ => ?_) fun n found isCanonical => ?_
  · have none : (g n).cells = [] := by
      unfold Node.cells
      rw [cache]
      rfl
    rw [cache, none]
    exact Cache.holds_stale (Sparse.isSet_nil _)
  · obtain ⟨m, hm, isView⟩ := view
    obtain rfl : n = m := Option.some.inj (found.symm.trans hm)
    rw [isCanonical] at isView
    cases isView

/-- Destroying a node keeps order. -/
theorem Ordered.bury {f : Forest α} (h : f.Ordered) (id : NodeId) (n : Node α) :
    (f.bury id n).1.Ordered := by
  have buried : (f.update id Node.buried).Ordered :=
    h.update_of_cache_eq tame_buried fun _ => rfl
  exact of_bury buried fun link =>
    buried.update_of_cache_eq (tame_unsubscribe link.token) fun _ => rfl

/-- Views stay views when a node is destroyed. -/
theorem HasView.bury {f : Forest α} {child : NodeId} (h : f.HasView child) (id : NodeId)
    (n : Node α) : (f.bury id n).1.HasView child := by
  have buried : (f.update id Node.buried).HasView child := h.update tame_buried.isView
  exact of_bury (P := fun g => g.HasView child) buried fun link =>
    buried.update (tame_unsubscribe link.token).isView

/-- Adding a node keeps order if its cache is, and if a view has a parent of its size. -/
theorem Ordered.push {f g : Forest α} (h : f.Ordered) {n : Node α}
    (nodes : g.nodes = f.nodes.push n) (holds : n.cache.Holds n.shape n.cells)
    (canonical : n.role = .canonical → n.isFresh = true)
    (linked : ∀ link, n.role = .view (some link) →
      ∃ p, f.nodes[link.parent]? = some p ∧ p.shape.size = n.shape.size)
    (registrations : n.registrations = []) : g.Ordered where
  sound := h.sound.push holds canonical linked nodes
  hooks := by
    intro j m token child found hook
    rcases push_cases nodes found with found | ⟨-, rfl⟩
    · exact (h.hooks found hook).push nodes
    · rw [registrations] at hook
      cases hook

end Forest

/-! ## Situations in order -/

/-- The forest is in order, and events that are to be passed on are passed on to views. -/
structure Situation.Ordered (s : Situation α) : Prop where
  forest : s.forest.Ordered
  awaited : ∀ {source : NodeId} {token : Token} {child : NodeId} {event : Event},
    .deliver source ⟨token, .view child⟩ event ∈ s.tasks → s.forest.HasView child

namespace Situation

/-- The forest without nodes is in order. -/
theorem ordered_start : (quiet (.empty : Forest α)).Ordered where
  forest := ⟨Forest.sound_empty, fun found => by simp [quiet, Forest.empty] at found⟩
  awaited h := absurd h List.not_mem_nil

/-- A task that is put on the agenda to deliver an event delivers it to a registration. -/
theorem exists_of_deliver_mem {source other : NodeId} {event e : Event}
    {registrations : List (Registration α)} {r : Registration α}
    (h : .deliver other r e ∈ Forest.deliveries source event registrations) :
    other = source ∧ e = event ∧ r ∈ registrations := by
  obtain ⟨_, hmem, same⟩ := List.mem_map.1 h
  cases same
  exact ⟨rfl, rfl, hmem⟩

/-- So does a task behind which the node is let go of. -/
theorem exists_of_deliver_mem_release {source other id : NodeId} {event e : Event}
    {registrations : List (Registration α)} {r : Registration α}
    (h : .deliver other r e ∈ Forest.deliveries source event registrations ++ [.release id]) :
    other = source ∧ e = event ∧ r ∈ registrations := by
  rcases List.mem_append.1 h with h | h
  · exact exists_of_deliver_mem h
  · cases List.mem_singleton.1 h

end Situation

namespace Forest

/-- Whoever a task puts on the agenda is registered. -/
theorem Does.told {f g : Forest α} {task : Task α} {new : List (Task α)}
    (does : f.Does task g new) {source : NodeId} {r : Registration α} {event : Event}
    (hmem : .deliver source r event ∈ new) :
    ∃ n, f.nodes[source]? = some n ∧ r ∈ n.registrations := by
  cases does with
  | hear actions =>
      obtain ⟨_, -, same⟩ := List.mem_map.1 hmem
      cases same
  | miss _ => cases hmem
  | ripple found _ _ =>
      obtain ⟨rfl, -, hr⟩ := Situation.exists_of_deliver_mem_release hmem
      exact ⟨_, found, hr⟩
  | orphan found _ _ =>
      obtain ⟨rfl, -, hr⟩ := Situation.exists_of_deliver_mem_release hmem
      exact ⟨_, found, hr⟩
  | look _ _ _ => cases hmem
  | subscribe _ => cases hmem
  | unsubscribe _ => cases hmem
  | destroy found =>
      have present := (Option.filter_eq_some_iff.1 found).1
      rcases List.mem_append.1 hmem with hmem | hmem
      · obtain ⟨rfl, -, hr⟩ := Situation.exists_of_deliver_mem_release hmem
        exact ⟨_, present, hr⟩
      · cases List.mem_singleton.1 hmem
  | report => cases hmem
  | release => cases hmem

/-- Views stay views whatever is done. -/
theorem Does.hasView {f g : Forest α} {task : Task α} {new : List (Task α)}
    (does : f.Does task g new) {child : NodeId} (view : f.HasView child) : g.HasView child := by
  cases does with
  | hear _ | miss _ | report => exact view
  | ripple _ _ _ => exact view.update tame_outdated.isView
  | orphan _ _ _ => exact view.update tame_cutOff.isView
  | look _ _ reads => exact reads.hasView view
  | @subscribe _ _ _ other _ _ => exact view.update (tame_subscribe other).isView
  | @unsubscribe _ _ _ token _ => exact view.update (tame_unsubscribe token).isView
  | @destroy id n _ _ => exact view.bury id n
  | release => exact view.update tame_release.isView

/-- Views stay views whatever a command does before listeners run. -/
theorem Begins.hasView {f g : Forest α} {touch : Touch α} {happening : Happening} {effect : Effect}
    (begins : f.Begins touch happening effect g) {child : NodeId} (view : f.HasView child) :
    (g.begin effect).forest.HasView child := by
  cases begins with
  | read reads => exact reads.hasView view
  | found _ _ nodes => exact view.push nodes
  | @branch _ parent _ _ _ _ _ _ nodes =>
      have heard : (f.update parent fun p => p.subscribe (.view f.nodes.size)).HasView child :=
        view.update fun _ => rfl
      exact heard.push nodes
  | @listen _ _ listener _ => exact view.update (tame_subscribe listener).isView
  | @leave _ _ token _ => exact view.update (tame_unsubscribe token).isView
  | @store _ _ _ value _ reads _ _ _ _ => exact (reads.hasView view).update (tame_store value).isView
  | @bury id n found =>
      simp only [begin, found]
      exact view.bury id n

/-- Whoever an effect begins to tell is registered. -/
theorem Begins.told {f g : Forest α} {touch : Touch α} {happening : Happening} {effect : Effect}
    (begins : f.Begins touch happening effect g) {source : NodeId} {r : Registration α}
    {event : Event} (hmem : .deliver source r event ∈ (g.begin effect).tasks) :
    ∃ n, f.nodes[source]? = some n ∧ r ∈ n.registrations := by
  cases begins with
  | read _ | found _ _ _ | branch _ _ _ _ _ | listen _ | leave _ => cases hmem
  | store reads found _ _ _ =>
      obtain ⟨rfl, -, hr⟩ := Situation.exists_of_deliver_mem hmem
      have present := (Option.filter_eq_some_iff.1 found).1
      obtain ⟨n, hn, bare⟩ := exists_of_map_eq reads.bare.2 present
      have registrations := congrArg Node.registrations bare
      rw [present] at hr
      exact ⟨n, hn, registrations ▸ hr⟩
  | bury found =>
      simp only [begin, found] at hmem
      obtain ⟨rfl, -, hr⟩ := Situation.exists_of_deliver_mem_release hmem
      exact ⟨_, (Option.filter_eq_some_iff.1 found).1, hr⟩

end Forest

namespace Situation

/-- What a task does keeps order. -/
theorem Ordered.does {f g : Forest α} {task : Task α} {new tasks : List (Task α)}
    {changing : Option NodeId} (h : Ordered ⟨f, task :: tasks, changing⟩)
    (does : f.Does task g new) : Ordered ⟨g, new ++ tasks, changing⟩ := by
  -- what is awaited is hooked before the task or was awaited already
  suffices forest : g.Ordered by
    refine ⟨forest, fun {source token child event} hmem => does.hasView ?_⟩
    rcases List.mem_append.1 hmem with hmem | hmem
    · obtain ⟨n, hn, hook⟩ := does.told hmem
      exact h.forest.hooks hn hook
    · exact h.awaited (List.mem_cons_of_mem task hmem)
  cases does with
  | hear actions => exact h.forest.of_nodes_eq rfl
  | miss _ => exact h.forest
  | @ripple source child token n found alive younger =>
      rw [Forest.ripple_fst]
      exact h.forest.forget Forest.tame_outdated (h.awaited List.mem_cons_self) fun _ => rfl
  | @orphan source child token n found alive live =>
      rw [Forest.orphan_fst]
      exact (h.forest.forget Forest.tame_cutOff (h.awaited List.mem_cons_self)
        fun _ => rfl).of_nodes_eq rfl
  | look outcome _ reads => exact (reads.ordered h.forest).of_nodes_eq rfl
  | @subscribe id n listener other action found =>
      exact (h.forest.update_of_cache_eq (Forest.tame_subscribe other) fun _ => rfl).of_nodes_eq rfl
  | @unsubscribe id n listener token found =>
      exact (h.forest.update_of_cache_eq (Forest.tame_unsubscribe token)
        fun _ => rfl).of_nodes_eq rfl
  | @destroy id n listener found => exact h.forest.bury id n
  | report => exact h.forest.of_nodes_eq rfl
  | release => exact h.forest.update_of_cache_eq Forest.tame_release fun _ => rfl

/-- Creating a view keeps order: it is registered with its parent, and stale. -/
theorem ordered_branch {f g : Forest α} (h : f.Ordered) {parent : NodeId} {p : Node α}
    {shape : Shape} (found : f.nodes[parent]? = some p) (size : shape.size = p.shape.size)
    (nodes : g.nodes = (f.update parent fun p => p.subscribe (.view f.nodes.size)).nodes.push
      (.view shape ⟨parent, p.nextToken⟩)) : g.Ordered := by
  have kept : (f.update parent fun p => p.subscribe (.view f.nodes.size)).Sound :=
    h.sound.update (fun _ => rfl) (fun _ _ same => same) (fun _ hn => h.sound.holds hn)
      fun n hn isCanonical => show n.isFresh = true from h.sound.canonical hn isCanonical
  have sound : g.Sound := by
    refine kept.push (Cache.holds_stale (Sparse.isSet_nil _)) (fun h => by cases h) ?_ nodes
    rintro link ⟨⟩
    refine ⟨p.subscribe (.view f.nodes.size), ?_, size.symm⟩
    rw [Forest.getElem?_update, if_pos rfl, found]
    rfl
  have old : ∀ child, f.HasView child → g.HasView child := by
    intro child view
    refine Forest.HasView.push ?_ nodes
    exact view.update fun _ => rfl
  have new : g.HasView f.nodes.size := by
    refine ⟨.view shape ⟨parent, p.nextToken⟩, ?_, rfl⟩
    rw [nodes, Array.getElem?_push, if_pos (Forest.size_update f parent _).symm]
  refine ⟨sound, fun {id m token child} hm hook => ?_⟩
  rcases Forest.push_cases nodes hm with hm | ⟨-, rfl⟩
  · obtain ⟨n, hn, ⟨-, rfl⟩ | ⟨-, rfl⟩⟩ := Forest.update_cases hm
    · rcases List.mem_append.1 hook with hook | hook
      · exact old child (h.hooks hn hook)
      · cases List.mem_singleton.1 hook
        exact new
    · exact old child (h.hooks hn hook)
  · cases hook

/-- Between two commands only the forest matters. -/
theorem ordered_quiet {f : Forest α} (h : f.Ordered) : (quiet f).Ordered :=
  ⟨h, fun hmem => absurd hmem List.not_mem_nil⟩

/-- What a command does before listeners run keeps order. -/
theorem ordered_begin {f g : Forest α} (h : f.Ordered) {touch : Touch α}
    {happening : Happening} {effect : Effect} (begins : f.Begins touch happening effect g) :
    (g.begin effect).Ordered := by
  cases begins with
  | read reads => exact ordered_quiet (reads.ordered h)
  | found isSet _ nodes =>
      exact ordered_quiet (h.push nodes (Cache.holds_ofSparse isSet) (fun _ => rfl)
        (fun link linked => by cases linked) rfl)
  | branch found _ size _ nodes =>
      exact ordered_quiet (ordered_branch h (Option.filter_eq_some_iff.1 found).1 size nodes)
  | @listen id n listener _ =>
      exact ordered_quiet (h.update_of_cache_eq (Forest.tame_subscribe listener) fun _ => rfl)
  | @leave id n token _ =>
      exact ordered_quiet (h.update_of_cache_eq (Forest.tame_unsubscribe token) fun _ => rfl)
  | @store _ id n value cells reads found role held holds =>
      have ordered := reads.ordered h
      have present := (Option.filter_eq_some_iff.1 found).1
      have tame := Forest.tame_store (α := α) value
      refine ⟨ordered.update tame (fun m hm => ?_) fun _ _ _ => by simp [Node.isFresh, held],
        fun {source token child event} hmem => ?_⟩
      · obtain rfl : n = m := Option.some.inj (present.symm.trans hm)
        show value.Holds n.shape (value.readSparse n.shape).value
        rwa [Cache.renders_readSparse.value holds held]
      · have hook := (exists_of_deliver_mem hmem).2.2
        rw [present] at hook
        exact (ordered.hooks present hook).update tame.isView
  | @bury id n found =>
      have present := (Option.filter_eq_some_iff.1 found).1
      simp only [Forest.begin, found]
      refine ⟨h.bury id n, fun {source token child event} hmem => ?_⟩
      exact (h.hooks present (exists_of_deliver_mem_release hmem).2.2).bury id n

/-- Ending a change keeps order. -/
theorem Ordered.finish {f : Forest α} {id : NodeId} (h : Ordered ⟨f, [], some id⟩) :
    (quiet (f.update id fun n => { n with available := true })).Ordered :=
  ordered_quiet (h.forest.update_of_cache_eq Forest.tame_finish fun _ => rfl)

/-- Every move keeps order. -/
theorem Ordered.next [RandomSource G] [LawfulRandomSource G] {s t : Situation α}
    {move : Move α G} (h : s.Ordered) (step : Next move s t) : t.Ordered := by
  cases step with
  | call command begun =>
      obtain ⟨_, _, -, -, -, begins⟩ := Forest.begins_of_prelude h.forest.sound begun
      exact ordered_begin h.forest begins
  | refuse command failed =>
      exact ordered_quiet ((Forest.reads_of_prelude_error h.forest.sound failed).2.ordered h.forest)
  | @step react f task tasks changing =>
      exact h.does (Forest.does_step h.forest.sound react task)
  | finish => exact h.finish
  | forget => exact ordered_quiet (h.forest.of_nodes_eq rfl)

/-- Views stay views, whatever happens next. -/
theorem Ordered.hasView [RandomSource G] [LawfulRandomSource G] {s t : Situation α}
    {move : Move α G} (h : s.Ordered) (step : Next move s t) {child : NodeId}
    (view : s.forest.HasView child) : t.forest.HasView child := by
  cases step with
  | call command begun =>
      obtain ⟨_, _, -, -, -, begins⟩ := Forest.begins_of_prelude h.forest.sound begun
      exact begins.hasView view
  | refuse command failed =>
      exact (Forest.reads_of_prelude_error h.forest.sound failed).2.hasView view
  | @step react f task tasks changing =>
      exact (Forest.does_step h.forest.sound react task).hasView view
  | finish => exact view.update Forest.tame_finish.isView
  | forget => exact view

end Situation

/-- Every situation that a run comes to is in order. -/
theorem Reached.ordered [RandomSource G] [LawfulRandomSource G]
    {allowed : Situation α → Move α G → Prop} {s : Situation α} (h : Reached allowed s) :
    s.Ordered := by
  induction h with
  | start => exact Situation.ordered_start
  | next _ _ step ih => exact ih.next step

end SparseTensor
