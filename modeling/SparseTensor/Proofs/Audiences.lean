/-
# Who hears of an event

A delivery tells an event of a node to the registrations that were in the list of the node when it
began.  Listeners may add and remove registrations meanwhile, of this node as of others: the list
changes at once, and who hears of the event does not.

A run is looked at moment by moment (`Forest.moments`).  If listeners destroy nothing, a step puts
no event of the node on the agenda again, as the views that pass it on are younger than the node
(`Listed.spares_step`), and it changes the list of the node only where a listener asks for it
(`Forest.list_step`).  So what is told is what stood on the agenda, and the list at the end is the
one in the beginning with these changes, one after another (`Listed.run`).
-/
import SparseTensor.Proofs.Severing

namespace SparseTensor

variable {α G : Type}

/-- Listeners that destroy nothing. -/
def Sparing (react : Reaction α) : Prop :=
  ∀ f listener event, ∀ action ∈ react f listener event, action.deed ≠ .destroy

/-! ## Lists in order -/

/-- A node gives out tokens in order, and the views that are registered with it are younger. -/
structure Node.Listed (id : NodeId) (n : Node α) : Prop where
  tokens : n.TokensOrdered
  younger : ∀ {token : Token} {child : NodeId}, ⟨token, .view child⟩ ∈ n.registrations → id < child

/-- The lists of all nodes are in order. -/
def Forest.Listed (f : Forest α) : Prop :=
  ∀ (id : NodeId) (n : Node α), f.nodes[id]? = some n → n.Listed id

theorem Node.Listed.of_sublist {id : NodeId} {n m : Node α} (h : n.Listed id)
    (nextToken : m.nextToken = n.nextToken) (sublist : m.registrations.Sublist n.registrations) :
    m.Listed id where
  tokens := (Node.succeeds_of_sublist nextToken sublist).tokens h.tokens
  younger hook := h.younger (sublist.subset hook)

theorem Node.Listed.subscribe {id : NodeId} {n : Node α} (h : n.Listed id) (listener : α) :
    (n.subscribe (.listener listener)).Listed id where
  tokens := h.tokens.subscribe _
  younger hook := h.younger (by simpa [Node.subscribe] using hook)

/-- In every situation that a run comes to, lists are in order. -/
theorem Reached.listed [RandomSource G] [LawfulRandomSource G]
    {allowed : Situation α → Move α G → Prop} {s : Situation α} (h : Reached allowed s) :
    s.forest.Listed := by
  refine fun id n found => ⟨h.orderly.tokens found, fun hook => ?_⟩
  obtain ⟨-, -, v, hv, role⟩ := h.rooted.2.hooked found hook
  exact (h.ordered.forest.sound.linked hv role).1

/-! ## Changes of a list -/

/-- What can happen to a list of registrations. -/
inductive ListChange (α : Type)
  | add (r : Registration α)
  | remove (token : Token)

namespace ListChange

/-- A list after a change. -/
def apply (list : List (Registration α)) : ListChange α → List (Registration α)
  | add r => list ++ [r]
  | remove token => list.filter (·.token ≠ token)

/-- A list after some changes, one after another. -/
def applyAll (list : List (Registration α)) (changes : List (ListChange α)) :
    List (Registration α) :=
  changes.foldl apply list

variable {list : List (Registration α)} {changes : List (ListChange α)} {r : Registration α}

/-- What is in a list after some changes was there or has been added, and has not been removed
since. -/
theorem mem_applyAll : r ∈ applyAll list changes ↔ r ∈ list ∧ .remove r.token ∉ changes ∨
    ∃ before after, changes = before ++ .add r :: after ∧ .remove r.token ∉ after := by
  induction changes generalizing list with
  | nil => simp [applyAll]
  | cons change changes ih =>
      -- it has been added by the first change, or by one of the others
      have added : (∃ before after, change :: changes = before ++ .add r :: after ∧
          .remove r.token ∉ after) ↔ change = .add r ∧ .remove r.token ∉ changes ∨
            ∃ before after, changes = before ++ .add r :: after ∧ .remove r.token ∉ after := by
        constructor
        · rintro ⟨_ | ⟨_, before⟩, after, split, kept⟩ <;> cases split
          · exact .inl ⟨rfl, kept⟩
          · exact .inr ⟨before, after, rfl, kept⟩
        · rintro (⟨rfl, kept⟩ | ⟨before, after, rfl, kept⟩)
          · exact ⟨[], changes, rfl, kept⟩
          · exact ⟨change :: before, after, rfl, kept⟩
      rw [added, show applyAll list (change :: changes) = applyAll (change.apply list) changes from
        rfl, ih, ← or_assoc]
      refine or_congr_left ?_
      cases change with
      | add s => simp [apply, or_and_right, eq_comm (a := r)]
      | remove token => simp [apply, and_assoc]

end ListChange

/-! ## Tasks and deeds -/

/-- What a deed asks for of the list of the node to which it is done. -/
def Deed.listChange? (deed : Deed α) (n : Node α) : Option (ListChange α) :=
  match deed with
  | .subscribe listener => some (.add ⟨n.nextToken, .listener listener⟩)
  | .unsubscribe (some token) => some (.remove token)
  | _ => none

/-- A task that destroys nothing, and lets a view hear an event only if it is younger than a
node. -/
def Task.Spares (id : NodeId) : Task α → Prop
  | .deliver _ r _ => ∀ child, r.target = .view child → id < child
  | .act _ action => action.deed ≠ .destroy
  | .report _ _ _ | .release _ => True

/-- Who hears an event of a node by a task, and which one. -/
def Task.told? (id : NodeId) : Task α → Option (Registration α × Event)
  | .deliver source r event => if source = id then some (r, event) else none
  | _ => none

/-- What the beginning of a delivery leaves of a list: all of it, or nothing if the node is
destroyed. -/
def Event.leaves (list : List (Registration α)) : Event → List (Registration α)
  | .valueChanged => list
  | .destroyed => []

namespace Forest

/-! ## Moments of a run -/

/-- The tasks that are done in a run, each with the forest in which it is done. -/
def moments (react : Reaction α) (f : Forest α) : List (Task α) → List (Forest α × Task α)
  | [] => []
  | task :: tasks =>
    let next := f.step react task
    have : Agenda.Follows (next.1.agenda (next.2 ++ tasks)) (f.agenda (task :: tasks)) :=
      follows_step react f task tasks
    (f, task) :: moments react next.1 (next.2 ++ tasks)
termination_by tasks => f.agenda tasks

variable {react : Reaction α} {f g : Forest α} {id : NodeId} {n m : Node α} {task : Task α}
  {tasks : List (Task α)} {event : Event}

/-- A run does the tasks of its moments. -/
theorem foldl_moments (react : Reaction α) (f : Forest α) (tasks : List (Task α)) :
    (f.moments react tasks).foldl (fun g p => (g.step react p.2).1) f = f.run react tasks := by
  induction f, tasks using Forest.run.induct react with
  | case1 f =>
      rw [moments, run]
      rfl
  | case2 f task tasks next _ ih =>
      rw [moments, run]
      exact ih

/-- What stands behind other tasks is done after them. -/
theorem run_append (react : Reaction α) (f : Forest α) (front rest : List (Task α)) :
    f.run react (front ++ rest) = (f.run react front).run react rest ∧
      f.moments react (front ++ rest) =
        f.moments react front ++ (f.run react front).moments react rest := by
  induction f, front using Forest.run.induct react with
  | case1 f =>
      rw [moments, run]
      exact ⟨rfl, rfl⟩
  | case2 f task tasks next _ ih =>
      rw [moments, run, List.cons_append, moments, run, ← List.append_assoc]
      exact ⟨ih.1, congrArg _ ih.2⟩

/-! ## What a step does to lists -/

/-- What a task asks for of the list of a node: a listener that acts on a node that is lent out can
add a registration or remove a token. -/
def listChange? (f : Forest α) (id : NodeId) : Task α → Option (ListChange α)
  | .act _ action =>
    if action.node = some id then (f.available? id).bind action.deed.listChange? else none
  | _ => none

/-- What a task does to the list of a node. -/
inductive Lists (f : Forest α) (task : Task α) (id : NodeId) (n m : Node α) : Prop
  | keep : f.listChange? id task = none → m.registrations = n.registrations →
    m.nextToken = n.nextToken → Lists f task id n m
  /-- A view is orphaned. -/
  | clear {source : NodeId} {token : Token} {event : Event} :
    task = .deliver source ⟨token, .view id⟩ event → m.registrations = [] →
      m.nextToken = n.nextToken → Lists f task id n m
  | add {listener : α} :
    f.listChange? id task = some (.add ⟨n.nextToken, .listener listener⟩) →
      m = n.subscribe (.listener listener) → Lists f task id n m
  | remove {token : Token} : f.listChange? id task = some (.remove token) →
    m = n.unsubscribe token → Lists f task id n m

/-- A task that changes no list leaves them as they are. -/
theorem lists_of_bare_eq (same : g.nodes.map Node.bare = f.nodes.map Node.bare)
    (unchanged : ∀ j, f.listChange? j task = none) (j : NodeId) :
    Option.Rel (f.Lists task j) f.nodes[j]? g.nodes[j]? := by
  have bare := congrArg (·[j]?) same
  simp only [Array.getElem?_map] at bare
  cases found : f.nodes[j]? with
  | none =>
      rw [found, Option.map_none, Option.map_eq_none_iff] at bare
      rw [bare]
      exact .none
  | some n =>
      rw [found] at bare
      obtain ⟨m, hm, bare⟩ := Option.map_eq_some_iff.1 bare
      rw [hm]
      exact .some (.keep (unchanged j) (congrArg Node.registrations bare :)
        (congrArg Node.nextToken bare :))

/-- A task that changes one node changes no list but this one. -/
theorem lists_update {k : Node α → Node α}
    (here : ∀ n, f.nodes[id]? = some n → f.Lists task id n (k n))
    (elsewhere : ∀ j, j ≠ id → f.listChange? j task = none) (j : NodeId) :
    Option.Rel (f.Lists task j) f.nodes[j]? (f.update id k).nodes[j]? := by
  rw [getElem?_update]
  cases found : f.nodes[j]? with
  | none =>
      rw [Option.map_none, ite_self]
      exact .none
  | some m =>
      split
      · rename_i same
        subst same
        exact .some (here m found)
      · rename_i other
        exact .some (.keep (elsewhere j (Ne.symm other)) rfl rfl)

/-! ### Reads -/

/-- Whatever state a forest is in, reading changes caches and nothing else. -/
theorem indifferent_bare :
    Indifferent fun f g : Forest α => g.nodes.map Node.bare = f.nodes.map Node.bare where
  refl _ := rfl
  trans first second := second.trans first
  cache := bare_update_cache
  notes _ _ := rfl

/-! ### Steps -/

/-- A listener that acts on a node and does not destroy it. -/
theorem lists_perform {listener : α} {action : Action α} (node : action.node = some id)
    (found : f.available? id = some n) (spares : action.deed ≠ .destroy) (j : NodeId) :
    Option.Rel (f.Lists (.act listener action) j) f.nodes[j]?
      (f.perform listener action id n).1.nodes[j]? := by
  obtain ⟨present, -⟩ := Option.filter_eq_some_iff.1 found
  obtain ⟨_, deed⟩ := action
  cases node
  have here : f.listChange? id (.act listener ⟨some id, deed⟩) = deed.listChange? n := by
    rw [listChange?, if_pos rfl, found, Option.bind_some]
  have elsewhere : ∀ k, k ≠ id → f.listChange? k (.act listener ⟨some id, deed⟩) = none := by
    intro k other
    rw [listChange?, if_neg fun same => other (Option.some.inj same).symm]
  have unasked : (∀ n, deed.listChange? n = none) →
      ∀ k, f.listChange? k (.act listener ⟨some id, deed⟩) = none := by
    intro none k
    by_cases same : k = id
    · rw [same, here, none]
    · exact elsewhere k same
  cases deed with
  | read =>
      unfold perform
      dsimp only
      split
      · rename_i read
        exact lists_of_bare_eq (indifferent_bare.read read) (unasked fun _ => rfl) j
      · rename_i failed
        obtain rfl := eq_of_read_error failed
        exact lists_of_bare_eq rfl (unasked fun _ => rfl) j
  | askOrphaned => exact lists_of_bare_eq rfl (unasked fun _ => rfl) j
  | subscribe other =>
      refine lists_update (fun k hk => ?_) elsewhere j
      obtain rfl := Option.some.inj (present.symm.trans hk)
      exact .add here rfl
  | unsubscribe token =>
      cases token with
      | none => exact lists_of_bare_eq rfl (unasked fun _ => rfl) j
      | some token =>
          refine lists_update (fun k hk => ?_) elsewhere j
          obtain rfl := Option.some.inj (present.symm.trans hk)
          exact .remove here rfl
  | destroy => exact absurd rfl spares

/-- What becomes of the list of each node in a step. -/
theorem lists_step (react : Reaction α) (spares : task.Spares id) (j : NodeId) :
    Option.Rel (f.Lists task j) f.nodes[j]? (f.step react task).1.nodes[j]? := by
  cases task with
  | deliver source r event =>
      obtain ⟨token, target⟩ := r
      cases target with
      | listener listener => exact lists_of_bare_eq rfl (fun _ => rfl) j
      | view child =>
          have kept : Option.Rel (f.Lists (.deliver source ⟨token, .view child⟩ event) j)
              f.nodes[j]? f.nodes[j]? := lists_of_bare_eq rfl (fun _ => rfl) j
          have rippled : Option.Rel (f.Lists (.deliver source ⟨token, .view child⟩ event) j)
              f.nodes[j]? (f.update child Node.outdated).nodes[j]? :=
            lists_update (k := Node.outdated) (fun _ _ => .keep rfl rfl rfl) (fun _ _ => rfl) j
          have orphaned : Option.Rel (f.Lists (.deliver source ⟨token, .view child⟩ event) j)
              f.nodes[j]? (f.update child Node.cutOff).nodes[j]? :=
            lists_update (k := Node.cutOff) (fun _ _ => .clear rfl rfl rfl) (fun _ _ => rfl) j
          -- a view takes notice of an event only while it is alive, and of a destruction only once
          show Option.Rel _ _ (f.passOn source child event).1.nodes[j]?
          unfold passOn
          split
          · exact kept
          · split
            · exact kept
            split
            · split
              · exact rippled
              · exact kept
            · split
              · exact kept
              · exact orphaned
  | act listener action =>
      cases there : action.node.bind fun id => (f.available? id).map (id, ·) with
      | none =>
          have absent : f.step react (.act listener action) =
              (f.record (.acted listener action .absent), []) := by
            simp only [step, there]
          rw [absent]
          refine lists_of_bare_eq rfl (fun k => ?_) j
          rw [listChange?]
          split
          · rename_i node
            rw [node, Option.bind_some, Option.map_eq_none_iff] at there
            rw [there]
            rfl
          · rfl
      | some found =>
          obtain ⟨i, node, here⟩ := Option.bind_eq_some_iff.1 there
          obtain ⟨k, available, rfl⟩ := Option.map_eq_some_iff.1 here
          have acts : f.step react (.act listener action) = f.perform listener action i k := by
            simp only [step, there]
          rw [acts]
          exact lists_perform node available spares j
  | report listener action outcome => exact lists_of_bare_eq rfl (fun _ => rfl) j
  | release i =>
      refine lists_update (fun n _ => ?_) (fun _ _ => rfl) j
      exact .keep rfl rfl rfl

/-- Lists stay in order. -/
theorem Listed.step (listed : f.Listed) (react : Reaction α) (spares : task.Spares id) :
    (f.step react task).1.Listed := by
  intro j m hm
  have lists := lists_step (f := f) react spares j
  rw [hm] at lists
  generalize found : f.nodes[j]? = o at lists
  cases lists with
  | @some n _ h =>
      have before := listed j n found
      cases h with
      | keep _ registrations nextToken =>
          exact before.of_sublist nextToken (registrations ▸ .refl _)
      | clear _ registrations nextToken =>
          exact before.of_sublist nextToken (registrations ▸ List.nil_sublist _)
      | add _ subscribed => exact subscribed ▸ before.subscribe _
      | remove _ unsubscribed =>
          exact unsubscribed ▸ before.of_sublist rfl List.filter_sublist

/-- Lists of which something is taken away stay in order. -/
theorem Listed.update (listed : f.Listed) (id : NodeId) {k : Node α → Node α}
    (nextToken : ∀ n, (k n).nextToken = n.nextToken)
    (sublist : ∀ n, (k n).registrations.Sublist n.registrations) : (f.update id k).Listed := by
  intro j m hm
  obtain ⟨n, hn, ⟨-, rfl⟩ | ⟨-, rfl⟩⟩ := update_cases hm
  · exact (listed j n hn).of_sublist (nextToken n) (sublist n)
  · exact listed j m hn

/-- An event of a node that is told to its list is told to views that are younger than the node. -/
theorem Listed.spares_deliveries (listed : f.Listed) {j : NodeId} (found : f.nodes[j]? = some n)
    (le : id ≤ j) (event : Event) : ∀ t ∈ deliveries j event n.registrations, t.Spares id := by
  rintro t ht
  obtain ⟨⟨token, target⟩, hr, rfl⟩ := List.mem_map.1 ht
  rintro child rfl
  exact Nat.lt_of_le_of_lt le ((listed j n found).younger hr)

/-- What a step puts on the agenda tells no event of the node. -/
theorem Listed.spares_step (listed : f.Listed) (sparing : Sparing react) (spares : task.Spares id) :
    ∀ t ∈ (f.step react task).2, t.Spares id ∧ t.told? id = none := by
  -- a view passes an event on to its own list, and it is younger than the node
  have passed : ∀ {child : NodeId} {v : Node α} (event : Event), f.nodes[child]? = some v →
      id < child → ∀ t ∈ deliveries child event v.registrations ++ [.release child],
        t.Spares id ∧ t.told? id = none := by
    intro child v event found younger t ht
    rcases List.mem_append.1 ht with ht | ht
    · refine ⟨listed.spares_deliveries found younger.le event t ht, ?_⟩
      obtain ⟨r, -, rfl⟩ := List.mem_map.1 ht
      exact if_neg (Nat.ne_of_gt younger)
    · obtain rfl := List.mem_singleton.1 ht
      exact ⟨trivial, rfl⟩
  cases task with
  | deliver source r event =>
      obtain ⟨token, target⟩ := r
      cases target with
      | listener listener =>
          intro t ht
          obtain ⟨action, among, rfl⟩ := List.mem_map.1 ht
          exact ⟨sparing _ _ _ action among, rfl⟩
      | view child =>
          have younger : id < child := spares child rfl
          show ∀ t ∈ (f.passOn source child event).2, _
          unfold passOn
          split
          · exact List.forall_mem_nil _
          · rename_i v found
            split
            · exact List.forall_mem_nil _
            split
            · split
              · exact passed .valueChanged found younger
              · exact List.forall_mem_nil _
            · split
              · exact List.forall_mem_nil _
              · exact passed .destroyed found younger
  | act listener action =>
      cases there : action.node.bind fun id => (f.available? id).map (id, ·) with
      | none =>
          simp only [Forest.step, there]
          exact List.forall_mem_nil _
      | some found =>
          simp only [Forest.step, there]
          unfold perform
          split
          · split <;> exact List.forall_mem_nil _
          · exact List.forall_mem_nil _
          · exact List.forall_mem_nil _
          · exact List.forall_mem_nil _
          · exact List.forall_mem_nil _
          · rename_i destroys
            exact absurd destroys spares
  | report listener action outcome => exact List.forall_mem_nil _
  | release i => exact List.forall_mem_nil _

/-! ## What a run does to lists -/

/-- Who hears events of a node in a run, and which ones. -/
def audience (id : NodeId) (moments : List (Forest α × Task α)) : List (Registration α × Event) :=
  moments.filterMap fun p => p.2.told? id

/-- The changes of the list of a node in a run. -/
def listChanges (id : NodeId) (moments : List (Forest α × Task α)) : List (ListChange α) :=
  moments.filterMap fun p => p.1.listChange? id p.2

/-- The list of a node changes in a step where a listener asks for it, if the node is older than the
views that hear of events. -/
theorem list_step (react : Reaction α) (spares : task.Spares id) (found : f.nodes[id]? = some n) :
    ∃ m, (f.step react task).1.nodes[id]? = some m ∧
      m.registrations = ListChange.applyAll n.registrations (f.listChange? id task).toList := by
  have lists := lists_step (f := f) react spares id
  rw [found] at lists
  generalize (f.step react task).1.nodes[id]? = o at lists ⊢
  cases lists with
  | @some _ m h =>
      refine ⟨m, rfl, ?_⟩
      cases h with
      | keep asked registrations nextToken =>
          rw [asked, registrations]
          rfl
      | @clear source token event hears registrations nextToken =>
          rw [hears] at spares
          exact absurd (spares id rfl) (Nat.lt_irrefl id)
      | add asked subscribed =>
          rw [asked, subscribed]
          rfl
      | remove asked unsubscribed =>
          rw [asked, unsubscribed]
          rfl

/-- In a run those hear events of a node to whom they were to be told in the beginning, and the list
of the node changes as listeners ask for it: by induction on the run, as every step puts only tasks
on the agenda that spare the node. -/
theorem Listed.run (listed : f.Listed) (sparing : Sparing react)
    (spares : ∀ t ∈ tasks, t.Spares id) (found : f.nodes[id]? = some n) :
    audience id (f.moments react tasks) = tasks.filterMap (Task.told? id) ∧
      (∃ m, (f.run react tasks).nodes[id]? = some m ∧ m.registrations =
        ListChange.applyAll n.registrations (listChanges id (f.moments react tasks))) ∧
      (f.run react tasks).Listed ∧ ∀ p ∈ f.moments react tasks, p.1.Listed := by
  induction f, tasks using Forest.run.induct react generalizing n with
  | case1 f =>
      rw [moments, Forest.run]
      exact ⟨rfl, ⟨n, found, rfl⟩, listed, List.forall_mem_nil _⟩
  | case2 f task tasks next _ =>
      rename_i ih
      obtain ⟨first, others⟩ := List.forall_mem_cons.1 spares
      have new := listed.spares_step sparing first
      obtain ⟨k, hk, list⟩ := list_step react first found
      obtain ⟨told, ⟨m, hm, changed⟩, inOrder, always⟩ := ih (listed.step react first)
        (List.forall_mem_append.2 ⟨fun t ht => (new t ht).1, others⟩) hk
      have silent : next.2.filterMap (Task.told? id) = [] :=
        List.filterMap_eq_nil_iff.2 fun t ht => (new t ht).2
      rw [moments, Forest.run]
      refine ⟨?_, ⟨m, hm, ?_⟩, inOrder, List.forall_mem_cons.2 ⟨listed, always⟩⟩
      · -- who is told by this task is told first, and the others as before
        rw [List.filterMap_append, silent, List.nil_append] at told
        rw [audience, List.filterMap_cons, List.filterMap_cons, ← told]
        rfl
      · rw [changed, list, listChanges, listChanges, List.filterMap_cons]
        cases f.listChange? id task <;> rfl

/-! ## Deliveries -/

/-- Where the delivery of an event of a node begins: the forest then, and what is put on the
agenda. -/
inductive Delivers (f : Forest α) (id : NodeId) (n : Node α) :
    Event → Forest α → List (Task α) → Prop
  /-- The value of the node has changed. -/
  | change : Delivers f id n .valueChanged f (deliveries id .valueChanged n.registrations)
  /-- The node is a view that hears that its parent has changed. -/
  | ripple : Delivers f id n .valueChanged (f.ripple id n).1 (f.ripple id n).2
  /-- The node is destroyed. -/
  | bury : Delivers f id n .destroyed (f.bury id n).1 (f.bury id n).2
  /-- The node is a view that hears that its parent is destroyed. -/
  | orphan : Delivers f id n .destroyed (f.orphan id n).1 (f.orphan id n).2

/-- A delivery begins with tasks that tell the event to the list of the node. -/
theorem Delivers.start (delivers : f.Delivers id n event g tasks) (listed : f.Listed)
    (found : f.nodes[id]? = some n) :
    g.Listed ∧ (∀ t ∈ tasks, t.Spares id) ∧
      tasks.filterMap (Task.told? id) = n.registrations.map (·, event) ∧
      ∃ k, g.nodes[id]? = some k ∧ k.registrations = event.leaves n.registrations := by
  have spared := listed.spares_deliveries found (Nat.le_refl id) event
  have told : (deliveries id event n.registrations).filterMap (Task.told? id) =
      n.registrations.map (·, event) := by
    rw [deliveries, List.filterMap_map, ← List.filterMap_eq_map]
    exact List.filterMap_congr fun r _ => if_pos rfl
  have told' : (deliveries id event n.registrations ++ [Task.release id]).filterMap
      (Task.told? id) = n.registrations.map (·, event) := by
    rw [List.filterMap_append, told]
    exact List.append_nil _
  have spared' : ∀ t ∈ deliveries id event n.registrations ++ [.release id], t.Spares id :=
    List.forall_mem_append.2 ⟨spared, List.forall_mem_singleton.2 trivial⟩
  cases delivers with
  | change => exact ⟨listed, spared, told, n, found, rfl⟩
  | ripple =>
      rw [ripple_fst]
      have outdated : (f.update id Node.outdated).Listed :=
        listed.update id (fun _ => rfl) fun _ => .refl _
      exact ⟨outdated, spared', told', _, getElem?_update_self found Node.outdated, rfl⟩
  | bury =>
      have buried : (f.update id Node.buried).Listed :=
        listed.update id (fun _ => rfl) fun _ => List.nil_sublist _
      -- a parent that is alive loses the registration of the node, and nothing else happens to it
      have left : (f.bury id n).1.Listed := of_bury buried fun link =>
        buried.update _ (fun _ => rfl) fun _ => List.filter_sublist
      exact ⟨left, spared', told', exists_bury_self found⟩
  | orphan =>
      rw [orphan_fst]
      have orphaned : (f.update id Node.cutOff).Listed :=
        listed.update id (fun _ => rfl) fun _ => List.nil_sublist _
      exact ⟨orphaned, spared', told', _, getElem?_update_self found Node.cutOff, rfl⟩

/-! ## Removing a token -/

/-- What is answered to whoever removes a token from the list of a node, and what becomes of the
forest: nothing if the list does not have the token, and otherwise the one registration that has it
is gone. -/
inductive Removes (f : Forest α) (id : NodeId) (n : Node α) (token : Token) :
    Bool → Forest α → Prop
  | nothing : (∀ r ∈ n.registrations, r.token ≠ token) → Removes f id n token false f
  | one {before after : List (Registration α)} {r : Registration α} : r.token = token →
    n.registrations = before ++ r :: after →
      Removes f id n token true
        (f.update id fun n => { n with registrations := before ++ after })

theorem removes_unsubscribe (found : f.nodes[id]? = some n) (ordered : n.TokensOrdered)
    (token : Token) :
    f.Removes id n token (n.hasToken token) (f.update id fun n => n.unsubscribe token) := by
  rcases Node.unsubscribe_cases ordered token with
    ⟨has, nobody, same⟩ | ⟨has, before, r, after, given, split, same⟩
  · rw [has, update_eq_self found same]
    exact .nothing nobody
  · rw [has, update_eq_update found
      (l := fun n => { n with registrations := before ++ after }) same]
    exact .one given split

/-! ## Everybody of the list in the beginning -/

/-- A delivery uses the list as of its start.  Lists are in order, as they are in every situation
(`Reached.listed`), and listeners may react in any way but by destroying nodes: they add and remove
registrations, their own and those of others, of the node and of other nodes.  Those who hear events
of the node until the delivery is over are the registrations that were in its list when the delivery
began, each of them once and in their order.  The list at the end is the one in the beginning, or
the empty one if the node was destroyed, with the changes that were made meanwhile, one after
another; so after a destruction it holds what was added and not removed again.  Whatever stands
behind the delivery on the agenda is done after it.  And whoever removes a token from a list, by a
call or while hearing an event, is told whether the list has the token, and removes this one
registration. -/
theorem deliveries_use_list_of_start (sparing : Sparing react) (listed : f.Listed)
    (found : f.nodes[id]? = some n) (delivers : f.Delivers id n event g tasks) :
    (g.moments react tasks).foldl (fun h p => (h.step react p.2).1) g = g.run react tasks ∧
    audience id (g.moments react tasks) = n.registrations.map (·, event) ∧
    (n.registrations.map Registration.token).Nodup ∧
    (∃ m, (g.run react tasks).nodes[id]? = some m ∧
      m.registrations = ListChange.applyAll (event.leaves n.registrations)
        (listChanges id (g.moments react tasks)) ∧
      (event = .destroyed → ∀ r, r ∈ m.registrations ↔ ∃ before after,
        listChanges id (g.moments react tasks) = before ++ .add r :: after ∧
          .remove r.token ∉ after)) ∧
    (∀ rest, g.run react (tasks ++ rest) = (g.run react tasks).run react rest ∧
      g.moments react (tasks ++ rest) =
        g.moments react tasks ++ (g.run react tasks).moments react rest) ∧
    (g.run react tasks).Listed ∧ (∀ p ∈ g.moments react tasks, p.1.Listed) ∧
    ∀ h : Forest α, h.Listed → ∀ j k token, h.available? j = some k →
      ∃ answer left, h.Removes j k token answer left ∧
        Forest.unsubscribe j token h = .ok answer left ∧
        ∀ listener, h.step react (.act listener ⟨some j, .unsubscribe (some token)⟩) =
          (left.record (.acted listener ⟨some j, .unsubscribe (some token)⟩ (.flag answer)),
            []) := by
  obtain ⟨inOrder, spares, told, k, hk, leaves⟩ := delivers.start listed found
  obtain ⟨heard, ⟨m, hm, changed⟩, after, always⟩ := inOrder.run sparing spares hk
  rw [leaves] at changed
  refine ⟨foldl_moments react g tasks, heard.trans told, ?_, ⟨m, hm, changed, ?_⟩,
    run_append react g tasks, after, always, ?_⟩
  · exact List.pairwise_map.2 ((listed id n found).tokens.1.imp Nat.ne_of_lt)
  · rintro rfl r
    rw [changed, ListChange.mem_applyAll]
    simp [Event.leaves]
  · intro h ordered j k token available
    obtain ⟨present, -⟩ := Option.filter_eq_some_iff.1 available
    refine ⟨_, _, removes_unsubscribe present (ordered j k present).tokens token,
      bind_of_ok (lent_of_some available), fun listener => ?_⟩
    simp only [Forest.step, Option.bind_some, available, Option.map_some]
    rfl

/-- A view with three listeners. -/
def crowd : Node Nat :=
  let row : Shape := ⟨[3], by decide, by simp, by decide⟩
  { (Node.view row ⟨0, 0⟩ : Node Nat) with
    nextToken := 3
    registrations := [⟨0, .listener 0⟩, ⟨1, .listener 1⟩, ⟨2, .listener 2⟩] }

/-- The first listener removes itself and the second one, and adds a fourth. -/
def rearranging : Reaction Nat := fun _ listener _ =>
  if listener = 0 then
    [⟨some 1, .unsubscribe (some 0)⟩, ⟨some 1, .unsubscribe (some 1)⟩, ⟨some 1, .subscribe 3⟩]
  else []

/-- All three hear that the parent has changed, or that it is destroyed, and the list is another one
then: without the first two and with the fourth, or with the fourth alone. -/
theorem rearranged_list_is_not_used :
    let parent : Node Nat :=
      { (Node.canonical crowd.shape : Node Nat) with
        nextToken := 1, registrations := [⟨0, .view 1⟩] }
    let f : Forest Nat := ⟨#[parent, crowd], [], []⟩
    let changed := f.ripple 1 crowd
    let orphaned := f.orphan 1 crowd
    (audience 1 (changed.1.moments rearranging changed.2) =
        crowd.registrations.map (·, .valueChanged) ∧
      ∃ m, (changed.1.run rearranging changed.2).nodes[1]? = some m ∧
        m.registrations = [⟨2, .listener 2⟩, ⟨3, .listener 3⟩]) ∧
    audience 1 (orphaned.1.moments rearranging orphaned.2) =
        crowd.registrations.map (·, .destroyed) ∧
      ∃ m, (orphaned.1.run rearranging orphaned.2).nodes[1]? = some m ∧
        m.registrations = [⟨3, .listener 3⟩] := by
  intro parent f changed orphaned
  have sparing : Sparing rearranging := by
    intro f listener event action among
    unfold rearranging at among
    split at among
    · simp only [List.mem_cons, List.not_mem_nil, or_false] at among
      rcases among with rfl | rfl | rfl <;> exact nofun
    · cases among
  have listed : f.Listed := by
    intro id n found
    match id, found with
    | 0, found =>
        obtain rfl : parent = n := Option.some.inj found
        refine ⟨⟨by simp [parent], by simp [parent]⟩, fun {token child} hook => ?_⟩
        have only : token = 0 ∧ child = 1 := by simpa [parent] using hook
        exact only.2 ▸ Nat.zero_lt_one
    | 1, found =>
        obtain rfl : crowd = n := Option.some.inj found
        exact ⟨⟨by simp [crowd], by simp [crowd]⟩, fun hook => by simp [crowd] at hook⟩
    | id + 2, found => simp [f] at found
  have found : f.nodes[1]? = some crowd := rfl
  have changes : listChanges 1 (changed.1.moments rearranging changed.2) =
      [.remove 0, .remove 1, .add ⟨3, .listener 3⟩] := by
    simp [changed, f, ripple, crowd, moments, deliveries, rearranging, Forest.step, perform,
      listChanges, listChange?, Deed.listChange?, available?, update, record, Node.view,
      Node.canonical, Node.subscribe, Node.unsubscribe, Option.filter_some]
  have changes' : listChanges 1 (orphaned.1.moments rearranging orphaned.2) =
      [.remove 0, .remove 1, .add ⟨3, .listener 3⟩] := by
    simp [orphaned, f, orphan, crowd, moments, deliveries, rearranging, Forest.step, perform,
      listChanges, listChange?, Deed.listChange?, available?, update, record, noteAll, Node.view,
      Node.canonical, Node.subscribe, Node.unsubscribe, Option.filter_some]
  obtain ⟨-, heard, -, ⟨m, hm, list, -⟩, -⟩ :=
    deliveries_use_list_of_start sparing listed found .ripple
  obtain ⟨-, heard', -, ⟨m', hm', list', -⟩, -⟩ :=
    deliveries_use_list_of_start sparing listed found .orphan
  rw [changes] at list
  rw [changes'] at list'
  exact ⟨⟨heard, m, hm, list⟩, heard', m', hm', list'⟩

end Forest

end SparseTensor
