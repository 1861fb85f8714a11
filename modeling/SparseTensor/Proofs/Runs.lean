/-
# Runs

A situation is a forest at some point of a run: between two commands, or while listeners hear of
a change or a destruction.  `Next` lists the moves from one situation to the next, and the
situations that a run can come to are `Reached`.  At every move listeners may react in any way.

`Does` lists what one task does to a forest, as `Begins` lists what a command does before
listeners run.  Everything that is preserved along runs is preserved by each of these.
-/
import SparseTensor.Proofs.Openings

namespace SparseTensor

variable {α G : Type}

/-! ## Situations -/

/-- A forest, the agenda of a delivery, and the node that is being changed, if there is one. -/
structure Situation (α : Type) where
  forest : Forest α
  tasks : List (Task α)
  changing : Option NodeId

namespace Situation

/-- A situation between two commands. -/
def quiet (f : Forest α) : Situation α := ⟨f, [], none⟩

/-- Storing a value, before anybody hears of it. -/
def storing (f : Forest α) (id : NodeId) (value : Cache) : Situation α where
  forest := f.update id fun n => { n with cache := value, available := false }
  tasks := Forest.deliveries id .valueChanged ((f.nodes[id]?.map Node.registrations).getD [])
  changing := some id

/-- Destroying a node, before anybody hears of it. -/
def burying (f : Forest α) (id : NodeId) (n : Node α) : Situation α where
  forest := (f.bury id n).1
  tasks := (f.bury id n).2
  changing := none

/-- The forest once nobody is left to hear of a change. -/
def finish (s : Situation α) : Forest α :=
  match s.changing with
  | none => s.forest
  | some id => s.forest.update id fun n => { n with available := true }

/-- The forest after everything on the agenda has been done. -/
def complete (react : Reaction α) (s : Situation α) : Forest α :=
  finish ⟨s.forest.run react s.tasks, [], s.changing⟩

end Situation

/-- The situation in which an effect begins. -/
def Forest.begin (f : Forest α) : Effect → Situation α
  | .nothing => .quiet f
  | .store id value => .storing f id value
  | .bury id =>
    match f.available? id with
    | none => .quiet f
    | some n => .burying f id n

/-- Having an effect is going through all its situations. -/
theorem Forest.carryOut_eq (react : Reaction α) (f : Forest α) (effect : Effect) :
    f.carryOut react effect = (f.begin effect).complete react := by
  cases effect with
  | nothing =>
      show f = f.run react []
      rw [Forest.run]
  | store id value =>
      unfold Forest.carryOut Forest.begin Forest.store Situation.storing Situation.complete
        Situation.finish Forest.announce
      simp only [Forest.getElem?_update, if_pos]
      cases f.nodes[id]? with
      | none =>
          show _ = (Forest.run react _ []).update id _
          rw [Forest.run]
          rfl
      | some n => rfl
  | bury id =>
      simp only [Forest.carryOut, Forest.begin]
      cases f.available? id with
      | none =>
          show f = f.run react []
          rw [Forest.run]
      | some n => rfl

/-! ## Moves -/

/-- What can happen next. -/
inductive Move (α G : Type)
  | call (command : Command α G)
  | step (react : Reaction α)
  | finish
  /-- What has happened to listeners and what was noted is forgotten. -/
  | forget

/-- The moves from a situation to the next. -/
inductive Next [RandomSource G] : Move α G → Situation α → Situation α → Prop
  | call (command : Command α G) {f g : Forest α} {answer : Answer G} {effect : Effect} :
    command.prelude f = .ok (answer, effect) g →
      Next (.call command) (.quiet f) (g.begin effect)
  | refuse (command : Command α G) {f g : Forest α} {fault : Fault} :
    command.prelude f = .error fault g → Next (.call command) (.quiet f) (.quiet g)
  | step (react : Reaction α) {f : Forest α} {task : Task α} {tasks : List (Task α)}
      {changing : Option NodeId} :
    Next (.step react) ⟨f, task :: tasks, changing⟩
      ⟨(f.step react task).1, (f.step react task).2 ++ tasks, changing⟩
  | finish {f : Forest α} {id : NodeId} :
    Next .finish ⟨f, [], some id⟩ (.quiet (f.update id fun n => { n with available := true }))
  | forget {f : Forest α} :
    Next .forget (.quiet f) (.quiet { f with trace := [], log := [] })

/-- The situations that runs can come to by moves that are allowed. -/
inductive Reached [RandomSource G] (allowed : Situation α → Move α G → Prop) :
    Situation α → Prop
  | start : Reached allowed (.quiet .empty)
  | next {s t : Situation α} {move : Move α G} :
    Reached allowed s → allowed s move → Next move s t → Reached allowed t

namespace Forest

/-! ## What a task does -/

/-- Why a view does not hear an event: it is not there any more or nobody holds on to it, it is
older than its parent, or it is an orphan already. -/
def Deaf (f : Forest α) (source child : NodeId) (event : Event) : Prop :=
  ∀ n, f.nodes[child]? = some n →
    n.holders = 0 ∨ event = .valueChanged ∧ ¬ source < child ∨
      event = .destroyed ∧ n.orphaned = true

/-- All that a task can do to a forest, and what it puts on the agenda. -/
inductive Does (f : Forest α) : Task α → Forest α → List (Task α) → Prop
  | hear {source : NodeId} {token : Token} {listener : α} {event : Event}
      (actions : List (Action α)) :
    Does f (.deliver source ⟨token, .listener listener⟩ event)
      (f.record (.heard source token listener event)) (actions.map (.act listener))
  | miss {source child : NodeId} {token : Token} {event : Event} :
    f.Deaf source child event → Does f (.deliver source ⟨token, .view child⟩ event) f []
  | ripple {source child : NodeId} {token : Token} {n : Node α} :
    f.nodes[child]? = some n → n.holders ≠ 0 → source < child →
      Does f (.deliver source ⟨token, .view child⟩ .valueChanged) (f.ripple child n).1
        (f.ripple child n).2
  | orphan {source child : NodeId} {token : Token} {n : Node α} :
    f.nodes[child]? = some n → n.holders ≠ 0 → n.orphaned = false →
      Does f (.deliver source ⟨token, .view child⟩ .destroyed) (f.orphan child n).1
        (f.orphan child n).2
  /-- An action that changes nothing, or only what is read. -/
  | look {g : Forest α} {listener : α} {action : Action α} (outcome : Outcome) :
    outcome ≠ .destroyed → f.Reads g →
      Does f (.act listener action) (g.record (.acted listener action outcome)) []
  | subscribe {id : NodeId} {n : Node α} {listener other : α} {action : Action α} :
    f.available? id = some n →
      Does f (.act listener action)
        ((f.update id fun n => n.subscribe (.listener other)).record
          (.acted listener action (.token n.nextToken))) []
  | unsubscribe {id : NodeId} {n : Node α} {listener : α} {token : Token} :
    f.available? id = some n →
      Does f (.act listener ⟨some id, .unsubscribe (some token)⟩)
        ((f.update id fun n => n.unsubscribe token).record
          (.acted listener ⟨some id, .unsubscribe (some token)⟩ (.flag (n.hasToken token)))) []
  | destroy {id : NodeId} {n : Node α} {listener : α} :
    f.available? id = some n →
      Does f (.act listener ⟨some id, .destroy⟩) (f.bury id n).1
        ((f.bury id n).2 ++ [.report listener ⟨some id, .destroy⟩ .destroyed])
  | report {listener : α} {action : Action α} {outcome : Outcome} :
    Does f (.report listener action outcome) (f.record (.acted listener action outcome)) []
  | release {id : NodeId} :
    Does f (.release id) (f.update id fun n => { n with holders := n.holders - 1 }) []

/-- An action does what its deed says. -/
theorem does_perform {f : Forest α} (sound : f.Sound) {id : NodeId} {n : Node α}
    (found : f.available? id = some n) (listener : α) (deed : Deed α) :
    f.Does (.act listener ⟨some id, deed⟩) (f.perform listener ⟨some id, deed⟩ id n).1
      (f.perform listener ⟨some id, deed⟩ id n).2 := by
  cases deed with
  | read =>
      have reading := says_sparse (α := α) (outlook_of_some found) f sound rfl
      unfold perform
      cases shown : (f.sight id n).cells with
      | ok cells =>
          rw [shown] at reading
          obtain ⟨_, g, answered, reads, rfl⟩ := reading
          simp only [answered]
          exact .look (.cells (.ok _)) (by simp) reads
      | error fault =>
          rw [shown] at reading
          obtain ⟨g, failed, reads⟩ := reading
          simp only [failed]
          exact .look (.cells (.error fault)) (by simp) reads
  | askOrphaned => exact .look (.flag n.orphaned) (by simp) .refl
  | subscribe other => exact .subscribe found
  | unsubscribe token =>
      cases token with
      | none => exact .look .absent (by simp) .refl
      | some token => exact .unsubscribe found
  | destroy => exact .destroy found

/-- A view hears an event of its parent, or is deaf to it. -/
theorem does_passOn (f : Forest α) (source child : NodeId) (token : Token) (event : Event) :
    f.Does (.deliver source ⟨token, .view child⟩ event) (f.passOn source child event).1
      (f.passOn source child event).2 := by
  unfold passOn
  cases found : f.nodes[child]? with
  | none =>
      refine .miss fun n h => ?_
      rw [found] at h
      cases h
  | some n =>
      have only : ∀ {m : Node α}, f.nodes[child]? = some m → n = m := fun h =>
        Option.some.inj (found.symm.trans h)
      by_cases held : n.holders = 0
      · simp only [held, if_pos]
        exact .miss fun m h => .inl (only h ▸ held)
      · simp only [held, if_neg, not_false_iff]
        cases event with
        | valueChanged =>
            by_cases younger : source < child
            · simp only [younger, if_pos]
              exact .ripple found held younger
            · simp only [younger, if_neg, not_false_iff]
              exact .miss fun m h => .inr (.inl ⟨rfl, younger⟩)
        | destroyed =>
            cases orphaned : n.orphaned with
            | true => exact .miss fun m h => .inr (.inr ⟨rfl, only h ▸ orphaned⟩)
            | false => exact .orphan found held orphaned

/-- A step does what its task says. -/
theorem does_step {f : Forest α} (sound : f.Sound) (react : Reaction α) (task : Task α) :
    f.Does task (f.step react task).1 (f.step react task).2 := by
  cases task with
  | deliver source registration event =>
      obtain ⟨token, target⟩ := registration
      cases target with
      | listener listener => exact .hear _
      | view child => exact does_passOn f source child token event
  | act listener action =>
      obtain ⟨node, deed⟩ := action
      cases node with
      | none => exact .look .absent (by simp) .refl
      | some id =>
          cases found : f.available? id with
          | none =>
              have absent : f.step react (.act listener ⟨some id, deed⟩) =
                  (f.record (.acted listener ⟨some id, deed⟩ .absent), []) := by
                simp [step, found]
              rw [absent]
              exact .look .absent (by simp) .refl
          | some n =>
              have acted : f.step react (.act listener ⟨some id, deed⟩) =
                  f.perform listener ⟨some id, deed⟩ id n := by
                simp [step, found]
              rw [acted]
              exact does_perform sound found listener deed
  | report listener action outcome => exact .report
  | release id => exact .release

end Forest

end SparseTensor
