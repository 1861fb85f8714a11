/-
# What encodings do not matter for

A veiled forest shows no encodings, no notes, and not what listeners have read while they heard
of an event.  Forests that are the same when veiled stay so whatever is done to them, as long as
listeners are blind: what they do may depend on all the rest, on every node and on everything
that has happened, but not on what is under the veil.
-/
import SparseTensor.Proofs.Coherence

namespace SparseTensor

variable {α G : Type}

/-! ## Veils -/

/-- What comes of an action, without cells. -/
def Outcome.veiled : Outcome → Outcome
  | .cells _ => .absent
  | outcome => outcome

/-- What happens to a listener, without the cells that it reads. -/
def Occurrence.veiled : Occurrence α → Occurrence α
  | .heard source token listener event => .heard source token listener event
  | .acted listener action outcome => .acted listener action outcome.veiled

namespace Forest

/-- A forest without encodings, notes, and cells that listeners have read. -/
def veiled (f : Forest α) : Forest α where
  nodes := f.nodes.map Node.bare
  trace := f.trace.map Occurrence.veiled
  log := []

variable {f g : Forest α}

/-- Veiled forests have the same nodes but for encodings. -/
theorem bare_of_veiled_eq (same : f.veiled = g.veiled) :
    f.nodes.map Node.bare = g.nodes.map Node.bare :=
  congrArg Forest.nodes same

/-- Forests are the same when veiled if their nodes and traces are. -/
theorem veiled_eq_of (nodes : f.nodes.map Node.bare = g.nodes.map Node.bare)
    (trace : f.trace.map Occurrence.veiled = g.trace.map Occurrence.veiled) :
    f.veiled = g.veiled := by
  unfold veiled
  rw [nodes, trace]

/-- A node is in both forests, the same but for its encodings, or in none. -/
theorem cases_of_veiled_eq (same : f.veiled = g.veiled) (id : NodeId) :
    f.nodes[id]? = none ∧ g.nodes[id]? = none ∨
      ∃ n m, f.nodes[id]? = some n ∧ g.nodes[id]? = some m ∧ n.bare = m.bare := by
  have there := congrArg (·[id]?) (bare_of_veiled_eq same)
  simp only [Array.getElem?_map] at there
  cases hn : f.nodes[id]? with
  | none =>
      rw [hn] at there
      exact .inl ⟨rfl, Option.map_eq_none_iff.1 there.symm⟩
  | some n =>
      rw [hn] at there
      obtain ⟨m, hm, bare⟩ := Option.map_eq_some_iff.1 there.symm
      exact .inr ⟨n, m, rfl, hm, bare.symm⟩

/-- As many nodes are in both forests. -/
theorem size_of_veiled_eq (same : f.veiled = g.veiled) : f.nodes.size = g.nodes.size := by
  simpa using congrArg Array.size (bare_of_veiled_eq same)

/-- A node is lent out in both forests, the same but for its encodings, or in none. -/
theorem available_of_veiled_eq (same : f.veiled = g.veiled) (id : NodeId) :
    f.available? id = none ∧ g.available? id = none ∨
      ∃ n m, f.available? id = some n ∧ g.available? id = some m ∧ n.bare = m.bare := by
  rcases cases_of_veiled_eq same id with ⟨hn, hm⟩ | ⟨n, m, hn, hm, bare⟩
  · exact .inl ⟨by simp [available?, hn], by simp [available?, hm]⟩
  · have available : n.available = m.available := (congrArg Node.available bare :)
    cases lent : m.available with
    | true =>
        exact .inr ⟨n, m, by simp [available?, hn, available, lent],
          by simp [available?, hm, lent], bare⟩
    | false =>
        exact .inl ⟨by simp [available?, hn, available, lent], by simp [available?, hm, lent]⟩

/-- A node is alive in both forests or in none. -/
theorem isAlive_of_veiled_eq (same : f.veiled = g.veiled) (id : NodeId) :
    f.isAlive id = g.isAlive id := by
  unfold isAlive
  rcases cases_of_veiled_eq same id with ⟨hn, hm⟩ | ⟨n, m, hn, hm, bare⟩
  · rw [hn, hm]
  · have holders : n.holders = m.holders := (congrArg Node.holders bare :)
    rw [hn, hm, Option.any_some, Option.any_some, holders]

/-! ## What is the same under the veil -/

/-- Nodes may be changed under the veil as long as the change does not depend on encodings. -/
theorem veiled_update (same : f.veiled = g.veiled) (id : NodeId) {h k : Node α → Node α}
    (alike : ∀ n m : Node α, n.bare = m.bare → (h n).bare = (k m).bare) :
    (f.update id h).veiled = (g.update id k).veiled := by
  refine veiled_eq_of (Array.ext_getElem? fun j => ?_) (congrArg Forest.trace same)
  rw [Array.getElem?_map, Array.getElem?_map, getElem?_update, getElem?_update]
  rcases cases_of_veiled_eq same j with ⟨hn, hm⟩ | ⟨n, m, hn, hm, bare⟩
  · rw [hn, hm]
    rfl
  · rw [hn, hm]
    split
    · exact congrArg some (alike n m bare)
    · exact congrArg some bare

/-- What happens to a listener may differ in the cells that it reads. -/
theorem veiled_record (same : f.veiled = g.veiled) {o p : Occurrence α}
    (alike : o.veiled = p.veiled) : (f.record o).veiled = (g.record p).veiled := by
  refine veiled_eq_of (bare_of_veiled_eq (f := f) (g := g) same) ?_
  have trace : f.trace.map Occurrence.veiled = g.trace.map Occurrence.veiled :=
    congrArg Forest.trace same
  simp only [record, List.map_append, trace, List.map_cons, alike, List.map_nil]

/-- Nodes may be added under the veil. -/
theorem veiled_push {h k : Forest α} (same : f.veiled = g.veiled) {n m : Node α}
    (alike : n.bare = m.bare) (nodes : h.nodes = f.nodes.push n) (trace : h.trace = f.trace)
    (nodes' : k.nodes = g.nodes.push m) (trace' : k.trace = g.trace) : h.veiled = k.veiled := by
  refine veiled_eq_of ?_ ?_
  · rw [nodes, nodes', Array.map_push, Array.map_push, bare_of_veiled_eq same, alike]
  · rw [trace, trace']
    exact congrArg Forest.trace same

/-- Reading takes place under the veil. -/
theorem Reads.veiled (reads : f.Reads g) : g.veiled = f.veiled :=
  veiled_eq_of reads.bare.2 (by rw [reads.bare.1])

/-- Destructions begin under the veil as they do without. -/
theorem veiled_bury (same : f.veiled = g.veiled) (id : NodeId) {n m : Node α}
    (bare : n.bare = m.bare) :
    (f.bury id n).1.veiled = (g.bury id m).1.veiled ∧ (f.bury id n).2 = (g.bury id m).2 := by
  have role : n.role = m.role := (congrArg Node.role bare :)
  have registrations : n.registrations = m.registrations := (congrArg Node.registrations bare :)
  have buried : (f.update id Node.buried).veiled = (g.update id Node.buried).veiled :=
    veiled_update same id fun n m bare => (congrArg Node.buried bare :)
  refine ⟨?_, by simp only [bury, registrations]⟩
  unfold bury
  rw [role]
  split
  · exact buried
  · rename_i link _
    have alive := isAlive_of_veiled_eq buried link.parent
    unfold Node.buried at alive
    simp only [alive]
    split
    · exact veiled_update buried link.parent fun n m bare =>
        (congrArg (Node.unsubscribe · link.token) bare :)
    · exact buried

end Forest

/-! ## Blind listeners -/

/-- Listeners that do not look under the veil. -/
def Blind (react : Reaction α) : Prop :=
  ∀ f g : Forest α, f.veiled = g.veiled → react f = react g

namespace Forest

variable {f g : Forest α}

/-- Listeners act under the veil as they do without. -/
theorem veiled_perform (soundF : f.Sound) (soundG : g.Sound) (same : f.veiled = g.veiled)
    (listener : α) {id : NodeId} {n m : Node α} (hn : f.available? id = some n)
    (hm : g.available? id = some m) (bare : n.bare = m.bare) (deed : Deed α) :
    (f.perform listener ⟨some id, deed⟩ id n).1.veiled =
        (g.perform listener ⟨some id, deed⟩ id m).1.veiled ∧
      (f.perform listener ⟨some id, deed⟩ id n).2 =
        (g.perform listener ⟨some id, deed⟩ id m).2 := by
  cases deed with
  | read =>
      -- Whatever the reads come to, they take place under the veil.
      have reading : ∀ {h : Forest α}, h.Sound → (h.available? id).isSome →
          ∃ result k, h.Reads k ∧ ∀ node, h.perform listener ⟨some id, .read⟩ id node =
            (k.record (.acted listener ⟨some id, .read⟩ (.cells result)), []) := by
        intro h sound lent
        obtain ⟨node, found⟩ := Option.isSome_iff_exists.1 lent
        have spec := read_eq sound found Cache.renders_readSparse
        cases shown : h.shown id with
        | ok cells =>
            rw [shown] at spec
            obtain ⟨k, answered, reads⟩ := spec
            exact ⟨.ok cells, k, reads, fun node => by simp only [perform, sparse, answered]⟩
        | error fault =>
            rw [shown] at spec
            exact ⟨.error fault, h, .refl, fun node => by simp only [perform, sparse, spec]⟩
      obtain ⟨_, _, readsF, performedF⟩ := reading soundF (by rw [hn]; rfl)
      obtain ⟨_, _, readsG, performedG⟩ := reading soundG (by rw [hm]; rfl)
      rw [performedF, performedG]
      exact ⟨veiled_record (readsF.veiled.trans (same.trans readsG.veiled.symm)) rfl, rfl⟩
  | askOrphaned =>
      have orphaned : n.orphaned = m.orphaned := (congrArg Node.orphaned bare :)
      exact ⟨veiled_record same (by rw [orphaned]), rfl⟩
  | subscribe other =>
      have nextToken : n.nextToken = m.nextToken := (congrArg Node.nextToken bare :)
      refine ⟨veiled_record (veiled_update same id fun n m bare => ?_) (by rw [nextToken]), rfl⟩
      exact (congrArg (Node.subscribe · (.listener other)) bare :)
  | unsubscribe token =>
      cases token with
      | none => exact ⟨veiled_record same rfl, rfl⟩
      | some token =>
          have flag : n.hasToken token = m.hasToken token :=
            (congrArg (Node.hasToken · token) bare :)
          refine ⟨veiled_record (veiled_update same id fun n m bare => ?_) (by rw [flag]), rfl⟩
          exact (congrArg (Node.unsubscribe · token) bare :)
  | destroy =>
      obtain ⟨forest, tasks⟩ := veiled_bury same id bare
      exact ⟨forest, congrArg (· ++ _) tasks⟩

/-- Views pass events on under the veil as they do without. -/
theorem veiled_passOn (same : f.veiled = g.veiled) (source child : NodeId) (event : Event) :
    (f.passOn source child event).1.veiled = (g.passOn source child event).1.veiled ∧
      (f.passOn source child event).2 = (g.passOn source child event).2 := by
  unfold passOn
  rcases cases_of_veiled_eq same child with ⟨hn, hm⟩ | ⟨n, m, hn, hm, bare⟩
  · rw [hn, hm]
    exact ⟨same, rfl⟩
  · have holders : n.holders = m.holders := (congrArg Node.holders bare :)
    have orphaned : n.orphaned = m.orphaned := (congrArg Node.orphaned bare :)
    have registrations : n.registrations = m.registrations :=
      (congrArg Node.registrations bare :)
    simp only [hn, hm, holders, orphaned]
    by_cases held : m.holders = 0
    · rw [if_pos held, if_pos held]
      exact ⟨same, rfl⟩
    rw [if_neg held, if_neg held]
    cases event with
    | valueChanged =>
        show (if source < child then _ else _ : Forest α × List (Task α)).1.veiled = _ ∧ _
        by_cases younger : source < child
        · simp only [if_pos younger]
          refine ⟨veiled_update same child fun n m bare => ?_, by simp only [ripple, registrations]⟩
          exact (congrArg Node.outdated bare :)
        · simp only [if_neg younger]
          exact ⟨same, trivial⟩
    | destroyed =>
        show (if m.orphaned = true then _ else _ : Forest α × List (Task α)).1.veiled = _ ∧ _
        by_cases gone : m.orphaned = true
        · simp only [if_pos gone]
          exact ⟨same, trivial⟩
        · simp only [if_neg gone]
          refine ⟨?_, by simp only [orphan, registrations]⟩
          exact veiled_update same child (h := Node.cutOff) (k := Node.cutOff) fun n m bare =>
            (congrArg Node.cutOff bare :)

/-- A step is the same under the veil if listeners are blind. -/
theorem veiled_step {react : Reaction α} (blind : Blind react) (soundF : f.Sound)
    (soundG : g.Sound) (same : f.veiled = g.veiled) (task : Task α) :
    (f.step react task).1.veiled = (g.step react task).1.veiled ∧
      (f.step react task).2 = (g.step react task).2 := by
  cases task with
  | deliver source registration event =>
      obtain ⟨token, target⟩ := registration
      cases target with
      | listener listener =>
          have heard := veiled_record same (o := .heard source token listener event) rfl
          exact ⟨heard, by simp only [step, blind _ _ heard]⟩
      | view child => exact veiled_passOn same source child event
  | act listener action =>
      obtain ⟨node, deed⟩ := action
      cases node with
      | none => exact ⟨veiled_record same rfl, rfl⟩
      | some id =>
          rcases available_of_veiled_eq same id with ⟨hn, hm⟩ | ⟨n, m, hn, hm, bare⟩
          · simp only [step, Option.bind_some, hn, hm, Option.map_none]
            exact ⟨veiled_record same rfl, trivial⟩
          · simp only [step, Option.bind_some, hn, hm, Option.map_some]
            exact veiled_perform soundF soundG same listener hn hm bare deed
  | report listener action outcome => exact ⟨veiled_record same rfl, rfl⟩
  | release id =>
      refine ⟨veiled_update same id fun n m bare => ?_, rfl⟩
      exact (congrArg (fun n : Node α => { n with holders := n.holders - 1 }) bare :)

end Forest

/-! ## Situations -/

namespace Situation

/-- Situations that are the same under the veil. -/
structure Alike (s t : Situation α) : Prop where
  forest : s.forest.veiled = t.forest.veiled
  tasks : s.tasks = t.tasks
  changing : s.changing = t.changing

/-- Storing is the same under the veil, whatever the values are. -/
theorem alike_storing {f g : Forest α} (same : f.veiled = g.veiled) (id : NodeId)
    (value other : Cache) : (storing f id value).Alike (storing g id other) where
  forest := by
    refine Forest.veiled_update same id fun n m bare => ?_
    exact (congrArg (fun n : Node α => { n with available := false }) bare :)
  tasks := by
    unfold storing
    rcases Forest.cases_of_veiled_eq same id with ⟨hn, hm⟩ | ⟨n, m, hn, hm, bare⟩
    · rw [hn, hm]
    · have registrations : n.registrations = m.registrations :=
        (congrArg Node.registrations bare :)
      rw [hn, hm, Option.map_some, Option.map_some, registrations]
  changing := rfl

/-- Commands begin under the veil as they do without. -/
theorem alike_begin {f g f' g' : Forest α} (same : f.veiled = f'.veiled) {touch : Touch α}
    {happening : Happening} {effect effect' : Effect}
    (begins : f.Begins touch happening effect g)
    (begins' : f'.Begins touch happening effect' g') :
    (g.begin effect).Alike (g'.begin effect') := by
  -- both begin by the same rule, since they touch the same and the same happens
  cases begins with
  | read reads =>
      cases begins' with
      | read reads' => exact ⟨reads.veiled.trans (same.trans reads'.veiled.symm), rfl, rfl⟩
  | found _ trace nodes =>
      cases begins' with
      | found _ trace' nodes' =>
          exact ⟨Forest.veiled_push same rfl nodes trace nodes' trace', rfl, rfl⟩
  | @branch _ parent p shape found _ _ trace nodes =>
      cases begins' with
      | @branch _ _ p' _ found' _ _ trace' nodes' =>
          have size := Forest.size_of_veiled_eq same
          have bare : p.bare = p'.bare := by
            rcases Forest.available_of_veiled_eq same parent with ⟨none, -⟩ | ⟨n, m, hn, hm, bare⟩
            · cases found.symm.trans none
            · obtain rfl := Option.some.inj (found.symm.trans hn)
              obtain rfl := Option.some.inj (found'.symm.trans hm)
              exact bare
          have nextToken : p.nextToken = p'.nextToken := (congrArg Node.nextToken bare :)
          rw [size, nextToken] at nodes
          have registered := Forest.veiled_update same parent
            (h := fun p => p.subscribe (.view f'.nodes.size))
            (k := fun p => p.subscribe (.view f'.nodes.size)) fun n m bare =>
              (congrArg (Node.subscribe · (.view f'.nodes.size)) bare :)
          exact ⟨Forest.veiled_push registered rfl nodes trace nodes' trace', rfl, rfl⟩
  | listen _ =>
      cases begins' with
      | listen _ =>
          refine ⟨Forest.veiled_update same _ fun n m bare => ?_, rfl, rfl⟩
          exact (congrArg (Node.subscribe · (.listener _)) bare :)
  | leave _ =>
      cases begins' with
      | leave _ =>
          refine ⟨Forest.veiled_update same _ fun n m bare => ?_, rfl, rfl⟩
          exact (congrArg (Node.unsubscribe · _) bare :)
  | store reads _ _ _ _ =>
      cases begins' with
      | store reads' _ _ _ _ =>
          exact alike_storing (reads.veiled.trans (same.trans reads'.veiled.symm)) _ _ _
  | @bury id n found =>
      cases begins' with
      | @bury _ m found' =>
          simp only [Forest.begin, found, found']
          rcases Forest.available_of_veiled_eq same id with ⟨none, -⟩ | ⟨k, l, hk, hl, bare⟩
          · cases found.symm.trans none
          · obtain rfl := Option.some.inj (found.symm.trans hk)
            obtain rfl := Option.some.inj (found'.symm.trans hl)
            obtain ⟨forest, tasks⟩ := Forest.veiled_bury same id bare
            exact ⟨forest, tasks, rfl⟩

end Situation

end SparseTensor
