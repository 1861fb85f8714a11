/-
# Who holds on to a node

In every situation of a run a node is held by its owner, until its destruction begins, and by each
delivery that is under way in it, and by nobody else (`Situation.Held`).
-/
import SparseTensor.Proofs.SoundRuns

namespace SparseTensor

variable {α G : Type}

/-- Whether a task lets go of a node. -/
def Task.releases (id : NodeId) : Task α → Bool
  | .release other => other == id
  | _ => false

/-- Delivering lets go of nobody. -/
@[simp] theorem countP_deliveries (source : NodeId) (event : Event)
    (registrations : List (Registration α)) (id : NodeId) :
    (Forest.deliveries source event registrations).countP (Task.releases id) = 0 := by
  simp [Forest.deliveries, List.countP_eq_zero, Task.releases]

namespace Situation

/-- A node is held by its owner, unless it is destroyed, and by the deliveries in it; only a
canonical node is changed, and it is not lent out meanwhile. -/
structure Held (s : Situation α) : Prop where
  holders : ∀ {id : NodeId} {n : Node α}, s.forest.nodes[id]? = some n →
    n.holders = s.tasks.countP (Task.releases id) +
      if n.available = true ∨ s.changing = some id then 1 else 0
  changed : ∀ {id : NodeId}, s.changing = some id →
    ∃ n, s.forest.nodes[id]? = some n ∧ n.role = .canonical ∧ n.available = false

/-- A node may be changed if it stays held by those who hold it. -/
theorem Held.update {f : Forest α} {tasks new : List (Task α)} {changing : Option NodeId}
    (h : Held ⟨f, tasks, changing⟩) {id : NodeId} {g : Node α → Node α}
    (role : ∀ n, n.role = .canonical → (g n).role = .canonical)
    (available : ∀ n, (g n).available = n.available)
    (counts : ∀ j, j ≠ id → new.countP (Task.releases j) = tasks.countP (Task.releases j))
    (holders : ∀ n, f.nodes[id]? = some n →
      (g n).holders + tasks.countP (Task.releases id) =
        n.holders + new.countP (Task.releases id)) :
    Held ⟨f.update id g, new, changing⟩ where
  holders := by
    intro j m found
    obtain ⟨n, hn, ⟨rfl, rfl⟩ | ⟨other, rfl⟩⟩ := Forest.update_cases found
    · have before := h.holders hn
      have after := holders n hn
      simp only [available] at before ⊢
      omega
    · show m.holders = _
      rw [counts j (Ne.symm other)]
      exact h.holders hn
  changed := by
    intro j hj
    obtain ⟨n, hn, canonical, taken⟩ := h.changed hj
    obtain ⟨m, hm, ⟨-, rfl⟩ | ⟨-, rfl⟩⟩ := Forest.exists_update hn id g
    · exact ⟨g n, hm, role n canonical, (available n).trans taken⟩
    · exact ⟨m, hm, canonical, taken⟩

/-- Who is held is a matter of the bare nodes and of what is let go of. -/
theorem Held.of_bare_eq {f g : Forest α} {tasks new : List (Task α)} {changing : Option NodeId}
    (h : Held ⟨f, tasks, changing⟩) (same : g.nodes.map Node.bare = f.nodes.map Node.bare)
    (counts : ∀ j, new.countP (Task.releases j) = tasks.countP (Task.releases j)) :
    Held ⟨g, new, changing⟩ where
  holders := by
    intro j m found
    obtain ⟨n, hn, bare⟩ := Forest.exists_of_map_eq same found
    have holders : m.holders = n.holders := by simpa using congrArg Node.holders bare
    have available : m.available = n.available := by simpa using congrArg Node.available bare
    show m.holders = new.countP (Task.releases j) + if m.available = true ∨ _ then 1 else 0
    rw [counts, holders, available]
    exact h.holders hn
  changed := by
    intro j hj
    obtain ⟨n, hn, canonical, taken⟩ := h.changed hj
    obtain ⟨m, hm, bare⟩ := Forest.exists_of_map_eq same.symm hn
    have role : n.role = m.role := by simpa using congrArg Node.role bare
    have available : n.available = m.available := by simpa using congrArg Node.available bare
    exact ⟨m, hm, role ▸ canonical, available ▸ taken⟩

/-- Who is held is a matter of the nodes. -/
theorem Held.of_nodes_eq {f g : Forest α} {tasks : List (Task α)} {changing : Option NodeId}
    (h : Held ⟨f, tasks, changing⟩) (same : g.nodes = f.nodes) : Held ⟨g, tasks, changing⟩ :=
  h.of_bare_eq (by rw [same]) fun _ => rfl

/-- Registrations hold nobody. -/
theorem Held.register {f : Forest α} {tasks : List (Task α)} {changing : Option NodeId}
    (h : Held ⟨f, tasks, changing⟩) (id : NodeId) (g : Node α → Node α)
    (role : ∀ n, (g n).role = n.role) (available : ∀ n, (g n).available = n.available)
    (holders : ∀ n, (g n).holders = n.holders) : Held ⟨f.update id g, tasks, changing⟩ :=
  h.update (fun n canonical => (role n).trans canonical) available (fun _ _ => rfl)
    fun n _ => by rw [holders]

/-- A node that its owner has not destroyed is alive. -/
theorem Held.isAlive {f : Forest α} {tasks : List (Task α)} {changing : Option NodeId}
    (h : Held ⟨f, tasks, changing⟩) {id : NodeId} {n : Node α} (found : f.nodes[id]? = some n)
    (present : n.available = true ∨ changing = some id) : f.isAlive id = true := by
  have holders := h.holders found
  simp only [if_pos present] at holders
  simp only [Forest.isAlive, found, Option.any_some, decide_eq_true_eq]
  omega

/-- A node that is lent out is not being changed. -/
theorem Held.changing_ne {f : Forest α} {tasks : List (Task α)} {changing : Option NodeId}
    (h : Held ⟨f, tasks, changing⟩) {id : NodeId} {n : Node α} (found : f.nodes[id]? = some n)
    (lent : n.available = true) : changing ≠ some id := by
  rintro rfl
  obtain ⟨m, hm, -, taken⟩ := h.changed rfl
  obtain rfl : n = m := Option.some.inj (found.symm.trans hm)
  rw [taken] at lent
  cases lent

/-- A node that is destroyed is held until all have heard of it. -/
theorem Held.bury {f : Forest α} {tasks new : List (Task α)} {changing : Option NodeId}
    (h : Held ⟨f, tasks, changing⟩) {id : NodeId} {n : Node α} (found : f.available? id = some n)
    (counts : ∀ j, new.countP (Task.releases j) =
      tasks.countP (Task.releases j) + if j = id then 1 else 0) :
    Held ⟨(f.bury id n).1, new, changing⟩ := by
  obtain ⟨found, lent⟩ := Option.filter_eq_some_iff.1 found
  have buried : Held ⟨f.update id Node.buried, new, changing⟩ := by
    have unchanged := h.changing_ne found lent
    refine ⟨fun {j m} hm => ?_, fun {j} hj => ?_⟩
    · obtain ⟨k, hk, ⟨rfl, rfl⟩ | ⟨other, rfl⟩⟩ := Forest.update_cases hm
      · obtain rfl : n = k := Option.some.inj (found.symm.trans hk)
        have before := h.holders hk
        simp [lent] at before
        simp [counts, Node.buried, unchanged, before]
      · have before := h.holders hk
        simpa [counts, Ne.symm other] using before
    · obtain ⟨k, hk, canonical, taken⟩ := h.changed hj
      obtain ⟨m, hm, ⟨rfl, -⟩ | ⟨-, rfl⟩⟩ := Forest.exists_update hk id Node.buried
      · exact absurd hj unchanged
      · exact ⟨m, hm, canonical, taken⟩
  exact Forest.of_bury (P := fun g => Held ⟨g, new, changing⟩) buried fun _ =>
    buried.update (fun _ role => role) (fun _ => rfl) (fun _ _ => rfl) fun _ _ => rfl

/-- A new node is held by its owner. -/
theorem Held.push {f g : Forest α} (h : (quiet f).Held) {n : Node α}
    (nodes : g.nodes = f.nodes.push n) (available : n.available = true) (holders : n.holders = 1) :
    (quiet g).Held where
  holders := by
    intro j m found
    rcases Forest.push_cases nodes found with found | ⟨-, rfl⟩
    · exact h.holders found
    · simp [quiet, available, holders]
  changed := by
    intro j hj
    cases hj

/-- A node that is changed is held by its owner. -/
theorem Held.storing {f : Forest α} (h : (quiet f).Held) {id : NodeId} {n : Node α}
    (found : f.available? id = some n) (canonical : n.role = .canonical) (value : Cache) :
    (storing f id value).Held := by
  obtain ⟨found, lent⟩ := Option.filter_eq_some_iff.1 found
  refine ⟨fun {j m} hm => ?_, fun {j} hj => ?_⟩
  · simp only [Situation.storing, countP_deliveries] at hm ⊢
    obtain ⟨k, hk, ⟨rfl, rfl⟩ | ⟨other, rfl⟩⟩ := Forest.update_cases hm
    · obtain rfl : n = k := Option.some.inj (found.symm.trans hk)
      have before := h.holders hk
      simpa [lent, quiet] using before
    · have before := h.holders hk
      simpa [quiet, other] using before
  · obtain rfl := Option.some.inj hj
    exact ⟨_, Forest.getElem?_update_self found _, canonical, rfl⟩

/-- A node that was changed is held by its owner. -/
theorem Held.finish {f : Forest α} {id : NodeId} (h : Held ⟨f, [], some id⟩) :
    (quiet (f.update id fun n => { n with available := true })).Held := by
  refine ⟨fun {j m} hm => ?_, fun {j} hj => by cases hj⟩
  simp only [quiet] at hm ⊢
  obtain ⟨k, hk, ⟨rfl, rfl⟩ | ⟨other, rfl⟩⟩ := Forest.update_cases hm
  · simpa using h.holders hk
  · simpa [other] using h.holders hk

/-- What a task does leaves everybody held. -/
theorem Held.does {f g : Forest α} {task : Task α} {new tasks : List (Task α)}
    {changing : Option NodeId} (h : Held ⟨f, task :: tasks, changing⟩)
    (does : f.Does task g new) : Held ⟨g, new ++ tasks, changing⟩ := by
  cases does with
  | @hear _ _ listener _ actions =>
      have silent (j : NodeId) :
          (actions.map (Task.act listener)).countP (Task.releases j) = 0 := by
        simp [List.countP_eq_zero, Task.releases]
      exact h.of_bare_eq rfl fun j => by simp [silent, Task.releases]
  | miss _ => exact h.of_bare_eq rfl fun j => by simp [Task.releases]
  | ripple found _ _ =>
      rw [Forest.ripple_fst]
      refine h.update (fun _ role => role) (fun _ => rfl) (fun j other => ?_) fun n _ => ?_
      · simp [Forest.ripple, Task.releases, Ne.symm other]
      · simp [Forest.ripple, Task.releases, Node.outdated]
        omega
  | orphan found _ _ =>
      rw [Forest.orphan_fst]
      refine Held.of_nodes_eq (f := f.update _ Node.cutOff) (h.update (fun n role => ?_)
        (fun _ => rfl) (fun j other => ?_) fun n _ => ?_) rfl
      · show n.role.unlinked = .canonical
        rw [role]
        rfl
      · simp [Forest.orphan, Task.releases, Ne.symm other]
      · simp [Forest.orphan, Task.releases, Node.cutOff]
        omega
  | look outcome _ reads =>
      exact h.of_bare_eq reads.bare.2 fun j => by simp [Task.releases]
  | @subscribe id n listener other action found =>
      refine (h.register id (fun n => n.subscribe (.listener other)) (fun _ => rfl) (fun _ => rfl)
        fun _ => rfl).of_bare_eq rfl fun j => ?_
      simp [Task.releases]
  | @unsubscribe id n listener token found =>
      refine (h.register id (fun n => n.unsubscribe token) (fun _ => rfl) (fun _ => rfl)
        fun _ => rfl).of_bare_eq rfl fun j => ?_
      simp [Task.releases]
  | destroy found =>
      refine h.bury found fun j => ?_
      simp only [Forest.bury, List.countP_append, countP_deliveries, List.countP_cons,
        List.countP_nil, Task.releases, beq_iff_eq]
      grind
  | report => exact h.of_bare_eq rfl fun j => by simp [Task.releases]
  | release =>
      refine h.update (fun _ role => role) (fun _ => rfl) (fun j other => ?_) fun n hn => ?_
      · simp [Task.releases, Ne.symm other]
      · have before := h.holders hn
        simp [Task.releases] at before ⊢
        omega

/-- What a command does before listeners run leaves everybody held. -/
theorem held_begin {f g : Forest α} (h : (quiet f).Held) {touch : Touch α}
    {happening : Happening} {effect : Effect} (begins : f.Begins touch happening effect g) :
    (g.begin effect).Held := by
  cases begins with
  | read reads => exact h.of_bare_eq reads.bare.2 fun _ => rfl
  | found isSet _ nodes => exact h.push nodes rfl rfl
  | @branch _ parent p shape found _ size _ nodes =>
      exact (h.register parent (fun p => p.subscribe (.view f.nodes.size)) (fun _ => rfl)
        (fun _ => rfl) fun _ => rfl).push nodes rfl rfl
  | listen _ => exact h.register _ _ (fun _ => rfl) (fun _ => rfl) fun _ => rfl
  | leave _ => exact h.register _ _ (fun _ => rfl) (fun _ => rfl) fun _ => rfl
  | @store _ id n value cells reads found role held holds =>
      have kept : (quiet g).Held := h.of_bare_eq reads.bare.2 fun _ => rfl
      exact kept.storing found role value
  | @bury id n found =>
      simp only [Forest.begin, found]
      refine h.bury found fun j => ?_
      simp only [Forest.bury, List.countP_append, countP_deliveries, List.countP_cons,
        List.countP_nil, Task.releases, beq_iff_eq]
      grind

end Situation

end SparseTensor
