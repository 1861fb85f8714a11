/-
# Commands

Everything that can be asked of a forest from outside, as data: questions, changes of a value,
and the life of nodes and registrations.  `Command.call` carries a command out.

A command first works out its answer and its effect, reading what it needs, and then has the
effect: a value is stored and announced, or a node is destroyed (`Command.call_eq`).  Listeners
run only in the second part.
-/
import SparseTensor.Forest.Change
import SparseTensor.Forest.Describe
import SparseTensor.Forest.Persistence

namespace SparseTensor

/-! ## Data -/

/-- What can be asked about nodes. -/
inductive Question
  | facts (id : NodeId)
  | dense (id : NodeId)
  | sparse (id : NodeId)
  | coordinates (id : NodeId)
  | sum (id : NodeId)
  | sparsity (id : NodeId)
  | isActive (id : NodeId) (coords : List UInt32)
  | overlap (id other : NodeId)
  | equal (id other : NodeId)
  | display (id : NodeId)
  | archive (id : NodeId)
  | save (id : NodeId) (format : Format) (settings : Settings) (sink : Sink)

/-- How the value of a node is changed; `G` is the source of random values. -/
inductive Mutation (G : Type)
  | setDense (bytes : List UInt8)
  | setSparse (cells : List Cell)
  | setCoordinates (coords : Coordinates)
  | zero
  | copyFrom (other : NodeId)
  | randomize (sparsity : Float) (g : G)
  | addNoise (fraction : Float) (g : G)
  | intersection (inputs : List NodeId)
  | union (inputs : List NodeId)
  | concatenate (inputs : List NodeId) (axis : Nat)

/-- What can be demanded of a forest; `α` is what is known about a listener. -/
inductive Command (α G : Type)
  | ask (question : Question)
  | create (dims : List UInt32)
  | reshape (parent : NodeId) (dims : List UInt32)
  | view (parent : NodeId)
  | adopt (a : Archive)
  | load (format : Format) (settings : Settings) (source : Source)
  | subscribe (id : NodeId) (listener : α)
  | unsubscribe (id : NodeId) (token : Token)
  | destroy (id : NodeId)
  | mutate (id : NodeId) (mutation : Mutation G)

/-- What a command is answered with. -/
inductive Answer (G : Type)
  | done
  | facts (shape : Shape) (isView orphaned : Bool)
  | bits (d : Dense)
  | cells (cells : Sparse)
  | coordinates (coords : Coordinates)
  | number (n : Nat)
  | fraction (x : Float)
  | flag (b : Bool)
  | text (t : String)
  | archive (a : Archive)
  | record (bytes : List UInt8)
  | node (id : NodeId)
  | loaded (id : NodeId) (rest : Source)
  | token (token : Token)
  | removed (b : Bool)
  | source (g : G)

/-! ## Carrying commands out -/

namespace Forest

variable {α β γ G : Type}

/-- A call that draws nothing answers as it does without a source. -/
theorem still_of_ok {c : Call α β} {b : β} {f left : Forest α} (h : c f = .ok b left) (g : G) :
    (still c : Drawing α G β) (f, g) = .ok b (left, g) := by
  rw [still, h]

/-- A call that draws nothing fails as it does without a source. -/
theorem still_of_error {c : Call α β} {fault : Fault} {f left : Forest α}
    (h : c f = .error fault left) (g : G) :
    (still c : Drawing α G β) (f, g) = .error fault (left, g) := by
  rw [still, h]

/-- Let a call draw from a source that is given to it; the answer tells where it has left this. -/
def withSource (g : G) (c : Drawing α G β) : Call α (β × G) := fun f =>
  match c (f, g) with
  | .ok b (f, g) => .ok (b, g) f
  | .error fault (f, _) => .error fault f

/-- Calls one after another draw from one source. -/
theorem withSource_bind (g : G) (c : Drawing α G β) (k : β → Drawing α G γ) :
    withSource g (c >>= k) = withSource g c >>= fun drawn => withSource drawn.2 (k drawn.1) := by
  funext f
  cases first : c (f, g) with
  | ok b left =>
      have drawn : withSource g c f = .ok (b, left.2) left.1 := by rw [withSource, first]
      rw [bind_of_ok drawn, withSource, withSource, bind_of_ok first]
  | error fault left =>
      have failed : withSource g c f = .error fault left.1 := by rw [withSource, first]
      rw [bind_of_error failed, withSource, bind_of_error first]

/-- A call that draws nothing leaves the source where it was. -/
theorem withSource_still (g : G) (c : Call α β) :
    withSource g (still c) = do return (← c, g) := by
  funext f
  cases result : c f with
  | ok b left =>
      rw [bind_of_ok result, withSource, still_of_ok result]
      rfl
  | error fault left => rw [bind_of_error result, withSource, still_of_error result]

theorem withSource_draw (g : G) (d : G → β × G) :
    withSource g (draw d : Drawing α G β) = pure (d g) := rfl

theorem withSource_pure (g : G) (b : β) :
    withSource g (pure b : Drawing α G β) = pure (b, g) := rfl

variable [RandomSource G]

/-- A random value is drawn after everything has been checked. -/
theorem withSource_randomValue (id : NodeId) (sparsity : Float) (g : G) :
    withSource g (randomValue id sparsity : Drawing α G Cache) = do
      let n ← mutable id .randomize
      checked (Fraction.check "sparsity" sparsity)
      let chosen :=
        choose (CellSet.all n.shape.size).toArray (Fraction.count sparsity n.shape.size) g
      return (.ofSparse (chosen.1.mergeSort (· ≤ ·)), chosen.2) := by
  simp only [randomValue, withSource_bind, withSource_still, withSource_draw, withSource_pure,
    bind_assoc, pure_bind]

/-- Cells are moved after everything has been checked and they have been read. -/
theorem withSource_noisyValue (id : NodeId) (fraction : Float) (g : G) :
    withSource g (noisyValue id fraction : Drawing α G Cache) = do
      let n ← mutable id .addNoise
      checked (Fraction.check "noise fraction" fraction)
      let cells ← sparse id
      let count := min (Fraction.count fraction cells.length) (n.shape.size - cells.length)
      let moved := displaced n.shape.size cells count g
      return (.ofSparse moved.1, moved.2) := by
  simp only [noisyValue, withSource_bind, withSource_still, withSource_draw, withSource_pure,
    bind_assoc, pure_bind]

end Forest

section

variable {α G : Type}

/-- Answer a question. -/
def Question.call : Question → Forest.Call α (Answer G)
  | facts id => do
    let n ← Forest.lent id
    return .facts n.shape n.role.isView n.orphaned
  | dense id => return .bits (← Forest.dense id)
  | sparse id => return .cells (← Forest.sparse id)
  | coordinates id => return .coordinates (← Forest.coordinates id)
  | sum id => return .number (← Forest.sum id)
  | sparsity id => return .fraction (← Forest.sparsity id)
  | isActive id coords => return .flag (← Forest.isActive id coords)
  | overlap id other => return .number (← Forest.overlap id other)
  | equal id other => return .flag (← Forest.equal id other)
  | display id => return .text (← Forest.display id)
  | archive id => return .archive (← Forest.snapshot id).toArchive
  | save id format settings sink => return .record (← Forest.save id format settings sink)

variable [RandomSource G]

/-- Change the value of a node. -/
def Mutation.call (react : Reaction α) (id : NodeId) : Mutation G → Forest.Call α (Answer G)
  | setDense bytes => do
    Forest.setDense react id bytes
    return .done
  | setSparse cells => do
    Forest.setSparse react id cells
    return .done
  | setCoordinates coords => do
    Forest.setCoordinates react id coords
    return .done
  | zero => do
    Forest.zero react id
    return .done
  | copyFrom other => do
    Forest.copyFrom react id other
    return .done
  | randomize sparsity g => do
    let drawn ← Forest.withSource g (Forest.randomize react id sparsity)
    return .source drawn.2
  | addNoise fraction g => do
    let drawn ← Forest.withSource g (Forest.addNoise react id fraction)
    return .source drawn.2
  | intersection inputs => do
    Forest.intersection react id inputs
    return .done
  | union inputs => do
    Forest.union react id inputs
    return .done
  | concatenate inputs axis => do
    Forest.concatenate react id inputs axis
    return .done

/-- Carry a command out; listeners react as `react` says. -/
def Command.call (react : Reaction α) : Command α G → Forest.Call α (Answer G)
  | ask question => question.call
  | create dims => return .node (← Forest.create dims)
  | reshape parent dims => return .node (← Forest.reshape parent dims)
  | view parent => return .node (← Forest.view parent)
  | adopt a => return .node (← Forest.adopt a)
  | load format settings source => do
    let (id, rest) ← Forest.load format settings source
    return .loaded id rest
  | subscribe id listener => return .token (← Forest.subscribe id listener)
  | unsubscribe id token => return .removed (← Forest.unsubscribe id token)
  | destroy id => do
    Forest.destroy react id
    return .done
  | mutate id mutation => mutation.call react id

end

/-! ## Nodes that are lent out -/

namespace Forest

variable {α : Type}

/-- A node that its owner lends out is found. -/
theorem lent_of_some {f : Forest α} {id : NodeId} {n : Node α} (h : f.available? id = some n) :
    lent id f = .ok n f := by
  have opened : (get : Call α (Forest α)) f = .ok f f := rfl
  rw [lent, bind_of_ok opened]
  simp only [h]
  rfl

/-- Any other node is unknown. -/
theorem lent_of_none {f : Forest α} {id : NodeId} (h : f.available? id = none) :
    lent id f = .error .unknownNode f := by
  have opened : (get : Call α (Forest α)) f = .ok f f := rfl
  rw [lent, bind_of_ok opened]
  simp only [h]
  rfl

end Forest

/-! ## Preludes and effects -/

/-- What is left to do once the answer to a command is known. -/
inductive Effect
  | nothing
  | store (id : NodeId) (value : Cache)
  | bury (id : NodeId)

namespace Forest

variable {α G : Type}

/-- Have an effect. -/
def carryOut (react : Reaction α) (f : Forest α) : Effect → Forest α
  | .nothing => f
  | .store id value => f.store react id value
  | .bury id =>
    match f.available? id with
    | none => f
    | some n => (f.bury id n).1.run react (f.bury id n).2

end Forest

section

variable {α G : Type} [RandomSource G]

/-- The value that a change comes to, and the answer to it. -/
def Mutation.value (id : NodeId) : Mutation G → Forest.Call α (Cache × Answer G)
  | setDense bytes => return (← Forest.denseValue id bytes, .done)
  | setSparse cells => return (← Forest.sparseValue id cells, .done)
  | setCoordinates coords => return (← Forest.coordinatesValue id coords, .done)
  | zero => return (← Forest.sparseValue id [], .done)
  | copyFrom other => return (← Forest.copiedValue id other, .done)
  | randomize sparsity g => do
    let (value, g) ← Forest.withSource g (Forest.randomValue id sparsity)
    return (value, .source g)
  | addNoise fraction g => do
    let (value, g) ← Forest.withSource g (Forest.noisyValue id fraction)
    return (value, .source g)
  | intersection inputs =>
    return (← Forest.combinedValue id .intersection CellSet.intersect inputs, .done)
  | union inputs => return (← Forest.combinedValue id .setUnion CellSet.unite inputs, .done)
  | concatenate inputs axis => return (← Forest.joinedValue id inputs axis, .done)

/-- The answer to a command and its effect. -/
def Command.prelude : Command α G → Forest.Call α (Answer G × Effect)
  | ask question => return (← question.call, .nothing)
  | create dims => return (.node (← Forest.create dims), .nothing)
  | reshape parent dims => return (.node (← Forest.reshape parent dims), .nothing)
  | view parent => return (.node (← Forest.view parent), .nothing)
  | adopt a => return (.node (← Forest.adopt a), .nothing)
  | load format settings source => do
    let (id, rest) ← Forest.load format settings source
    return (.loaded id rest, .nothing)
  | subscribe id listener => return (.token (← Forest.subscribe id listener), .nothing)
  | unsubscribe id token => return (.removed (← Forest.unsubscribe id token), .nothing)
  | destroy id => do
    let _ ← Forest.lent id
    return (.done, .bury id)
  | mutate id mutation => do
    let (value, answer) ← mutation.value id
    return (answer, .store id value)

/-- Changing a value is working it out and storing it. -/
theorem Mutation.call_eq (react : Reaction α) (id : NodeId) (mutation : Mutation G) :
    (mutation.call react id : Forest.Call α (Answer G)) = do
      let (value, answer) ← mutation.value id
      modify (Forest.store react id value)
      return answer := by
  cases mutation <;>
    simp only [call, value, Forest.setDense, Forest.setSparse, Forest.setCoordinates,
      Forest.zero, Forest.copyFrom, Forest.randomize, Forest.addNoise, Forest.intersection,
      Forest.union, Forest.concatenate, Forest.replace, Forest.withSource_bind,
      Forest.withSource_still, bind_assoc, pure_bind]

/-- A command works out its answer and its effect, and has the effect. -/
theorem Command.call_eq (react : Reaction α) (command : Command α G) :
    (command.call react : Forest.Call α (Answer G)) = do
      let (answer, effect) ← command.prelude
      modify fun f => f.carryOut react effect
      return answer := by
  have idle : (modify fun f => f.carryOut react .nothing : Forest.Call α PUnit) = pure ⟨⟩ := rfl
  cases command with
  | destroy id =>
      funext f
      simp only [call, prelude, Forest.destroy, bind_assoc, pure_bind]
      cases found : f.available? id with
      | none => rw [bind_of_error (Forest.lent_of_none found),
          bind_of_error (Forest.lent_of_none found)]
      | some n =>
          rw [bind_of_ok (Forest.lent_of_some found),
            bind_of_ok (Forest.lent_of_some found)]
          have carried : f.carryOut react (.bury id) =
              (f.bury id n).1.run react (f.bury id n).2 := by
            simp only [Forest.carryOut, found]
          show EStateM.Result.ok Answer.done ((f.bury id n).1.run react (f.bury id n).2) =
            .ok .done (f.carryOut react (.bury id))
          rw [carried]
  | mutate id mutation =>
      simp only [call, prelude, mutation.call_eq, bind_assoc, pure_bind]
      rfl
  | _ => simp only [call, prelude, bind_assoc, pure_bind, bind_pure, idle]

end

end SparseTensor
