/-
# Deliveries

An event of a node is delivered to its registrations one after another, as they stood when the
delivery began.  A listener may act on nodes before the next one hears the event, and a view
passes the event on to its own registrations at its place among those of its parent.  All that
is still to happen stands on an agenda; `step` does what stands first and says what this puts
in front of the rest, and `run` goes on until nothing is left.

A changed value makes views forget what they have read.  A destroyed node orphans its views,
which drop their parent, their cache and all their registrations; so every registration hears
of a destruction at most once.

`decreases_step` says that a step uses up the budget of the forest or replaces what stood first
by tasks of smaller rank: views are younger than their parents, so a change that is passed on
comes closer to the youngest node.
-/
import SparseTensor.Forest.Agenda
import SparseTensor.Forest.Read

namespace SparseTensor

/-- What stands on an agenda. -/
inductive Task (α : Type)
  /-- Let a registration of the node `source` hear an event. -/
  | deliver (source : NodeId) (registration : Registration α) (event : Event)
  /-- Let a listener act. -/
  | act (listener : α) (action : Action α)
  /-- Record that the action of a listener is over. -/
  | report (listener : α) (action : Action α) (outcome : Outcome)
  /-- Let go of a node. -/
  | release (id : NodeId)

/-- How listeners react: what each does, in order, when it hears an event. -/
abbrev Reaction (α : Type) := Forest α → α → Event → List (Action α)

namespace Forest

variable {α : Type}

/-! ## Steps -/

/-- The tasks of delivering an event of a node to some registrations. -/
def deliveries (source : NodeId) (event : Event) (registrations : List (Registration α)) :
    List (Task α) :=
  registrations.map fun r => .deliver source r event

/-- A view hears that its parent has changed: it forgets what it has read and passes the event
on. -/
def ripple (f : Forest α) (child : NodeId) (n : Node α) : Forest α × List (Task α) :=
  (f.update child fun n => { n with cache := .stale, holders := n.holders + 1 },
    deliveries child .valueChanged n.registrations ++ [.release child])

/-- A view hears that its parent is destroyed: it is orphaned and passes the event on. -/
def orphan (f : Forest α) (child : NodeId) (n : Node α) : Forest α × List (Task α) :=
  ((f.update child fun n =>
      { n with
        orphaned := true
        role := n.role.unlinked
        cache := .stale
        registrations := []
        holders := n.holders + 1 }).noteAll [.orphanedView n.shape.dims],
    deliveries child .destroyed n.registrations ++ [.release child])

/-- A view hears an event of its parent, if it is still alive. -/
def passOn (f : Forest α) (source child : NodeId) (event : Event) :
    Forest α × List (Task α) :=
  match f.nodes[child]? with
  | none => (f, [])
  | some n =>
    if n.holders = 0 then (f, [])
    else
      match event with
      | .valueChanged => if source < child then f.ripple child n else (f, [])
      | .destroyed => if n.orphaned then (f, []) else f.orphan child n

/-- Start the destruction of a node: it is no longer lent out, leaves its parent if that is
still alive, and its registrations are to hear of it. -/
def bury (f : Forest α) (id : NodeId) (n : Node α) : Forest α × List (Task α) :=
  let f := f.update id fun n =>
    { n with available := false, role := n.role.unlinked, registrations := [] }
  let f :=
    match n.role.link? with
    | none => f
    | some link =>
      if f.isAlive link.parent then f.update link.parent fun p => p.unsubscribe link.token else f
  (f, deliveries id .destroyed n.registrations ++ [.release id])

/-- A listener acts on a node that is lent out. -/
def perform (f : Forest α) (listener : α) (action : Action α) (id : NodeId) (n : Node α) :
    Forest α × List (Task α) :=
  let report (f : Forest α) (outcome : Outcome) := f.record (.acted listener action outcome)
  match action.deed with
  | .read =>
    match sparse id f with
    | .ok cells f => (report f (.cells (.ok cells)), [])
    | .error fault f => (report f (.cells (.error fault)), [])
  | .askOrphaned => (report f (.flag n.orphaned), [])
  | .subscribe other =>
    (report (f.update id fun n => n.subscribe (.listener other)) (.token n.nextToken), [])
  | .unsubscribe none => (report f .absent, [])
  | .unsubscribe (some token) =>
    (report (f.update id fun n => n.unsubscribe token) (.flag (n.hasToken token)), [])
  | .destroy =>
    let (f, tasks) := f.bury id n
    (f, tasks ++ [.report listener action .destroyed])

/-- Do a task; what it puts in front of the agenda comes with it. -/
def step (react : Reaction α) (f : Forest α) : Task α → Forest α × List (Task α)
  | .deliver source ⟨token, .listener a⟩ event =>
    let f := f.record (.heard source token a event)
    (f, (react f a event).map (.act a))
  | .deliver source ⟨_, .view child⟩ event => f.passOn source child event
  | .act a action =>
    match action.node.bind fun id => (f.available? id).map (id, ·) with
    | some (id, n) => f.perform a action id n
    | none => (f.record (.acted a action .absent), [])
  | .report a action outcome => (f.record (.acted a action outcome), [])
  | .release id => (f.update id fun n => { n with holders := n.holders - 1 }, [])

/-! ## Steps come to an end -/

/-- The rank of a task in a forest of `size` nodes. -/
def rank (size : Nat) : Task α → Nat
  | .deliver source _ .valueChanged => 2 + (size - source)
  | .deliver _ _ .destroyed => 2
  | .act _ _ => 1
  | .report _ _ _ => 0
  | .release _ => 0

/-- The budget of a forest and the ranks of what stands on an agenda. -/
def agenda (f : Forest α) (tasks : List (Task α)) : Agenda :=
  ⟨f.budget, tasks.map (rank f.nodes.size)⟩

/-- A step pays from the budget, or leads to a forest that agrees and puts only tasks of smaller
rank in front of the agenda. -/
def Decreases (f : Forest α) (task : Task α) (next : Forest α × List (Task α)) : Prop :=
  next.1.budget < f.budget ∨
    f.Agrees next.1 ∧ ∀ t ∈ next.2, rank f.nodes.size t < rank f.nodes.size task

/-- A step to a forest that agrees decreases if it puts nothing on the agenda. -/
theorem decreases_of_agrees {f g : Forest α} {task : Task α} (h : f.Agrees g) :
    Decreases f task (g, []) :=
  .inr ⟨h, by simp⟩

/-- Passing on a change decreases. -/
theorem decreases_ripple {f : Forest α} {source child : Nat} {n : Node α}
    {registration : Registration α} (found : f.nodes[child]? = some n)
    (younger : source < child) :
    Decreases f (.deliver source registration .valueChanged) (f.ripple child n) := by
  refine .inr ⟨agrees_update fun _ => rfl, ?_⟩
  have inside : child < f.nodes.size := (Array.getElem?_eq_some_iff.1 found).1
  intro t ht
  rcases List.mem_append.1 ht with ht | ht
  · obtain ⟨_, _, rfl⟩ := List.mem_map.1 ht
    simp only [rank]
    omega
  · cases List.mem_singleton.1 ht
    simp only [rank]
    omega

/-- Orphaning a view pays from the budget. -/
theorem budget_orphan_lt {f : Forest α} {child : NodeId} {n : Node α}
    (found : f.nodes[child]? = some n) (parented : n.orphaned = false) :
    (f.orphan child n).1.budget < f.budget := by
  have changed := budget_update (f := f) (g := fun n : Node α =>
    { n with
      orphaned := true
      role := n.role.unlinked
      cache := .stale
      registrations := []
      holders := n.holders + 1 }) found
  simp only [Node.weight, parented] at changed
  simp only [orphan, budget, nodes_noteAll] at *
  simp at changed
  omega

/-- Starting a destruction pays from the budget. -/
theorem budget_bury_lt {f : Forest α} {id : NodeId} {n : Node α}
    (found : f.available? id = some n) : (f.bury id n).1.budget < f.budget := by
  obtain ⟨found, lent⟩ := Option.filter_eq_some_iff.1 found
  have changed := budget_update (f := f) (g := fun n : Node α =>
    { n with available := false, role := n.role.unlinked, registrations := [] }) found
  simp only [Node.weight, lent] at changed
  simp at changed
  have kept (link : Link) (g : Forest α) :
      (g.update link.parent fun p => p.unsubscribe link.token).budget = g.budget :=
    budget_update_eq fun _ => rfl
  simp only [bury]
  split
  · omega
  · split
    · rw [kept]
      omega
    · omega

/-- Acting on a node decreases. -/
theorem decreases_perform {f : Forest α} {listener : α} {action : Action α} {id : NodeId}
    {n : Node α} (found : f.available? id = some n) :
    Decreases f (.act listener action) (f.perform listener action id n) := by
  unfold perform
  split
  · split
    · rename_i found
      exact decreases_of_agrees (indifferent_agrees.read found :)
    · rename_i found
      exact decreases_of_agrees (eq_of_read_error found ▸ .refl _)
  · exact decreases_of_agrees (.refl f)
  · exact decreases_of_agrees (agrees_update fun _ => rfl)
  · exact decreases_of_agrees (.refl f)
  · exact decreases_of_agrees (agrees_update fun _ => rfl)
  · exact .inl (budget_bury_lt found)

/-- Every step decreases. -/
theorem decreases_step (react : Reaction α) (f : Forest α) (task : Task α) :
    Decreases f task (f.step react task) := by
  unfold step
  split
  · rename_i source token a event
    refine .inr ⟨.refl f, fun t ht => ?_⟩
    obtain ⟨_, _, rfl⟩ := List.mem_map.1 ht
    cases event <;> simp only [rank] <;> omega
  · rename_i source token child event
    unfold passOn
    split
    · exact decreases_of_agrees (.refl f)
    · rename_i n found
      split
      · exact decreases_of_agrees (.refl f)
      split
      · split
        · rename_i younger
          exact decreases_ripple found younger
        · exact decreases_of_agrees (.refl f)
      · split
        · exact decreases_of_agrees (.refl f)
        · rename_i parented
          exact .inl (budget_orphan_lt found (by simpa using parented))
  · split
    · rename_i found
      obtain ⟨_, _, found⟩ := Option.bind_eq_some_iff.1 found
      obtain ⟨_, found, equal⟩ := Option.map_eq_some_iff.1 found
      cases equal
      exact decreases_perform found
    · exact decreases_of_agrees (.refl f)
  · exact decreases_of_agrees (.refl f)
  · exact decreases_of_agrees (agrees_update fun _ => rfl)

/-- After a step the agenda has come closer to its end. -/
theorem follows_step (react : Reaction α) (f : Forest α) (task : Task α)
    (tasks : List (Task α)) :
    Agenda.Follows ((f.step react task).1.agenda ((f.step react task).2 ++ tasks))
      (f.agenda (task :: tasks)) := by
  rcases decreases_step react f task with h | ⟨agrees, smaller⟩
  · exact .inl h
  · refine .inr ⟨agrees.2, _, _, (f.step react task).2.map (rank f.nodes.size), rfl, ?_, ?_⟩
    · simp [agenda, agrees.1]
    · simpa using smaller

/-! ## Runs -/

/-- Do everything that stands on an agenda. -/
def run (react : Reaction α) (f : Forest α) : List (Task α) → Forest α
  | [] => f
  | task :: tasks =>
    let next := f.step react task
    have : Agenda.Follows (next.1.agenda (next.2 ++ tasks)) (f.agenda (task :: tasks)) :=
      follows_step react f task tasks
    run react next.1 (next.2 ++ tasks)
termination_by tasks => f.agenda tasks

/-- Let the registrations of a node hear that its value has changed. -/
def announce (react : Reaction α) (f : Forest α) (id : NodeId) : Forest α :=
  match f.nodes[id]? with
  | none => f
  | some n => f.run react (deliveries id .valueChanged n.registrations)

/-- Destroy a node. -/
def destroy (react : Reaction α) (id : NodeId) : Call α Unit := do
  let n ← lent id
  modify fun f =>
    let (f, tasks) := f.bury id n
    f.run react tasks

end Forest

end SparseTensor
