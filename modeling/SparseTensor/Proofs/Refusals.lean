/-
# Calls that are refused

A call that is refused leaves everything as it was, whatever it was called with: the nodes with
their dimensions, cells, registrations and next tokens, what goes by a name, and the generators.
Nobody hears of it.  All that can have changed is which encodings the nodes hold.

Views are never changed: every mutation of a view is refused before its arguments are looked at.

`refused_calls_change_nothing` says so of all calls that a session offers, wherever a run has come
to; the forests of sessions are those of runs (`Session.Run.reached`).
-/
import SparseTensor.Proofs.NestedRuns
import SparseTensor.Proofs.SessionCalls

namespace SparseTensor

/-! ## Mutations of views -/

section

variable {α G : Type}

/-- The operation that a mutation is refused as; making every cell inactive is setting cells. -/
def Mutation.mutator : Mutation G → Mutator
  | setDense _ => .setDense
  | setSparse _ => .setSparse
  | setCoordinates _ => .setCoordinates
  | zero => .setSparse
  | copyFrom _ => .setSdr
  | randomize _ _ => .randomize
  | addNoise _ _ => .addNoise
  | intersection _ => .intersection
  | union _ => .setUnion
  | concatenate _ _ => .concatenate

/-- A view is not found to be one that can be changed. -/
theorem Forest.mutable_of_isView {f : Forest α} {id : NodeId} {n : Node α}
    (found : f.available? id = some n) (isView : n.role.isView = true) (mutator : Mutator) :
    mutable id mutator f = .error (.readOnlyView mutator) f := by
  rw [mutable, bind_of_ok (lent_of_some found), if_pos isView]
  rfl

/-- A mutation of a view is refused, whatever its arguments. -/
theorem Mutation.call_of_isView [RandomSource G] {f : Forest α} {id : NodeId} {n : Node α}
    (found : f.available? id = some n) (isView : n.role.isView = true) (mutation : Mutation G)
    (react : Reaction α) :
    mutation.call react id f = .error (.readOnlyView mutation.mutator) f := by
  have refused := Forest.mutable_of_isView found isView
  rw [mutation.call_eq]
  apply bind_of_error
  cases mutation <;>
    simp only [value, Forest.denseValue, Forest.sparseValue, Forest.coordinatesValue,
      Forest.copiedValue, Forest.withSource_randomValue, Forest.withSource_noisyValue,
      Forest.combinedValue, Forest.joinedValue, bind_assoc] <;>
    exact bind_of_error (refused _)

end

namespace Session

/-! ## Steps -/

/-- A session with nothing in its trace and its log. -/
def fresh (s : Session) : Session :=
  { s with forest := { s.forest with trace := [], log := [] } }

/-- Where a step leads, given where its call leads. -/
def settled (t : Session) : Session :=
  { t with tokens := t.tokens.afterTrace t.forest.trace }

variable {β : Type}

theorem step_eq (c : Call β) (s : Session) : s.step c =
    match c s.fresh with
    | .ok b t => (⟨.ok b, t.forest.trace, t.forest.log⟩, t.settled)
    | .error refusal t => (⟨.error refusal, t.forest.trace, t.forest.log⟩, t.settled) := by
  show (match c s.fresh with | .ok _ _ => _ | .error _ _ => _) = _
  cases c s.fresh <;> rfl

/-- The sessions that can be come to by calls that are offered. -/
inductive Run : Session → Prop
  | start : Run empty
  | step {s : Session} {β : Type} {c : Call β} : Run s → Offered c → Run (s.step c).2

/-- The nodes of a session are those that a run of a forest has come to. -/
theorem Run.reached {s : Session} (h : Run s) :
    Reached (fun _ (_ : Move Listener Generator) => True) (.quiet s.fresh.forest) := by
  induction h with
  | start => exact .start
  | @step s _ c _ offered ih =>
      obtain ⟨t, after, led⟩ : ∃ t : Session, (s.step c).2 = t.settled ∧
          (s.fresh.forest.Led t.forest ∨ t.forest.nodes = s.fresh.forest.nodes) := by
        rw [step_eq]
        rcases offered.careful with careful | careful <;> have led := careful s.fresh <;>
          cases result : c s.fresh <;> rw [result] at led
        · exact ⟨_, rfl, .inl led⟩
        · exact ⟨_, rfl, .inl led.2⟩
        · exact ⟨_, rfl, .inr led⟩
        · exact ⟨_, rfl, .inr led.2⟩
      rw [after]
      rcases led with led | level
      · exact (led ih).next trivial .forget
      · have same : t.settled.fresh.forest = s.fresh.forest := by
          unfold fresh settled
          simp only [level]
          rfl
        rw [same]
        exact ih

/-! ## Refusals -/

/-- Sessions that are the same but for the encodings that their nodes hold, and for buffers. -/
structure Unchanged (s t : Session) : Prop where
  /-- Nodes have the same shapes, links, registrations and next tokens, and the same are orphans. -/
  bare : t.forest.nodes.map Node.bare = s.forest.nodes.map Node.bare
  /-- The same is read of every node. -/
  shown : ∀ id, t.forest.shown id = s.forest.shown id
  nodes : t.nodes = s.nodes
  tokens : t.tokens = s.tokens
  /-- Generators have the same seeds and are at the same positions. -/
  generators : ∀ name, t.generators.get? name = s.generators.get? name

/-- A call that is refused changes nothing. -/
theorem Offered.refused {c : Call β} (offered : Offered c) {s : Session} (sound : s.forest.Sound)
    {refusal : Refusal} (refused : (s.step c).1.answer = .error refusal) :
    (s.step c).1.trace = [] ∧ s.Unchanged (s.step c).2 := by
  rw [step_eq] at refused ⊢
  cases result : c s.fresh with
  | ok b t =>
      rw [result] at refused
      cases refused
  | error _ t =>
      have kept : s.fresh.Kept t := by
        rcases offered.careful with careful | careful <;> have led := careful s.fresh <;>
          rw [result] at led <;> exact led.1
      have same : s.fresh.forest.nodes = s.forest.nodes := rfl
      have sound' : s.fresh.forest.Sound := sound.of_nodes_eq same
      have reads := kept.reads sound'
      obtain ⟨silent, bare⟩ := reads.bare
      refine ⟨silent, bare, fun id => ?_, kept.nodes, ?_, kept.generators⟩
      · exact (reads.shown sound' id).trans (Forest.shown_congr same id)
      · show t.tokens.afterTrace t.forest.trace = s.tokens
        rw [silent]
        exact kept.tokens

end Session

section

variable {G : Type} [RandomSource G] [LawfulRandomSource G]

/-- Wherever a run has come to, also while listeners hear of something and give commands, a call
that is refused changes nothing of a session with these nodes, and nobody hears of it.  Every
mutation of a view is refused, whatever its arguments, and one that draws has drawn nothing from its
source if it is refused. -/
theorem refused_calls_change_nothing {s : Nesting Listener} (h : Nested G s) {t : Session}
    (same : t.forest.nodes = s.now.forest.nodes) :
    (∀ {β : Type} (c : Session.Call β), Session.Offered c → ∀ refusal,
      (t.step c).1.answer = .error refusal →
        (t.step c).1.trace = [] ∧ t.Unchanged (t.step c).2) ∧
    (∀ id n, t.forest.available? id = some n → n.role.isView = true →
      ∀ (mutation : Mutation G) (react : Reaction Listener),
        mutation.call react id t.forest =
          .error (.readOnlyView mutation.mutator) t.forest) ∧
    ∀ (react : Reaction Listener) (id : NodeId) (fraction : Float) (g g' : G) (fault : Fault)
      (f : Forest Listener),
      Forest.randomize react id fraction (t.forest, g) = .error fault (f, g') ∨
          Forest.addNoise react id fraction (t.forest, g) = .error fault (f, g') → g' = g := by
  have sound : t.forest.Sound := h.ordered.now.forest.sound.of_nodes_eq same
  refine ⟨fun c offered refusal refused => offered.refused sound refused, ?_, ?_⟩
  · exact fun id n found isView mutation react => mutation.call_of_isView found isView react
  · rintro react id fraction g g' fault f (refused | refused)
    · exact Forest.frugal_randomize react id fraction _ _ _ _ _ refused
    · exact Forest.frugal_addNoise react id fraction _ _ _ _ _ refused

end

/-- Noise is not added to a view, and the generator that it would have come from has not moved. -/
theorem refused_noise_of_view :
    ∃ t : Session, t.Run ∧ (∃ n, t.forest.available? 1 = some n ∧ n.role.isView = true) ∧
      let noise := Session.changeAtRandom "v" "r" fun react id => Forest.addNoise react id 0.5
      (t.step noise).1.answer = .error (.failed (.readOnlyView .addNoise)) ∧
      (t.step noise).1.trace = [] ∧ t.Unchanged (t.step noise).2 ∧
      (t.step noise).2.generators.get? "r" = some (Generator.ofSeed 7) ∧
      (∀ (mutation : Mutation Generator) (react : Reaction Listener),
        mutation.call react 1 t.forest = .error (.readOnlyView mutation.mutator) t.forest) ∧
      ∀ (react : Reaction Listener) (g' : Generator) (fault : Fault) (f : Forest Listener),
        Forest.addNoise react 1 0.5 (t.forest, Generator.ofSeed 7) = .error fault (f, g') →
          g' = Generator.ofSeed 7 := by
  let four : Shape := ⟨[4], by decide, by simp, by decide⟩
  let t : Session :=
    ⟨⟨#[{ (Node.canonical four : Node Listener) with
          nextToken := 1, registrations := [⟨0, .view 1⟩] }, .view four ⟨0, 0⟩], [], []⟩,
      ⟨[("v", 1), ("p", 0)]⟩, .empty, ⟨[("r", Generator.ofSeed 7)]⟩, .empty⟩
  have run : t.Run := ((Session.Run.start.step (.create "p" [4])).step (.view "v" "p")).step
    (.keep "r" (Generator.ofSeed 7))
  have found : t.forest.available? 1 = some (Node.view four ⟨0, 0⟩) := rfl
  have refused : (t.step (Session.changeAtRandom "v" "r" fun react id =>
      Forest.addNoise react id 0.5)).1.answer = .error (.failed (.readOnlyView .addNoise)) := rfl
  obtain ⟨unchanged, readOnly, frugal⟩ :=
    refused_calls_change_nothing (t := t) run.reached.nested rfl
  obtain ⟨silent, same⟩ := unchanged _ (.addNoise "v" "r" 0.5) _ refused
  exact ⟨t, run, ⟨_, found, rfl⟩, refused, silent, same, same.generators "r", readOnly 1 _ found rfl,
    fun react g' fault f failed => frugal react 1 0.5 _ g' fault f (.inr failed)⟩

end SparseTensor
