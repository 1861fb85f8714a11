/-
# The beginning of a command

Before its effect a command reads, creates a node, or adds or removes a registration.  `Begins`
lists all that this can do to a forest together with what can be seen of it, and
`opens_prelude` says that every command begins, or fails, as `Command.said` tells by the
outlook: command by command, each either creates or registers what is said, or fails and only
reads.
-/
import SparseTensor.Proofs.Asking

namespace SparseTensor

variable {α G : Type}

/-! ## Registrations -/

/-- What a command does to registrations. -/
inductive Touch (α : Type)
  | nothing
  | listen (id : NodeId) (listener : α)
  | leave (id : NodeId) (token : Token)

/-- What a command does to registrations, if it is carried out. -/
def Command.touch : Command α G → Touch α
  | subscribe id listener => .listen id listener
  | unsubscribe id token => .leave id token
  | _ => .nothing

/-- The answer to a command with what it tells about registrations. -/
def Touch.told (f : Forest α) (answer : Answer G) : Touch α → Answer G
  | nothing => answer
  | listen id _ => (f.nodes[id]?.map fun n => Answer.token n.nextToken).getD answer
  | leave id token => (f.nodes[id]?.map fun n => Answer.removed (n.hasToken token)).getD answer

/-! ## The beginning -/

namespace Forest

/-- All that a command can do to a forest before its effect, what it does to registrations, and
what can be seen of it. -/
inductive Begins (f : Forest α) : Touch α → Happening → Effect → Forest α → Prop
  | read {g : Forest α} : f.Reads g → Begins f .nothing .nothing .nothing g
  | found {g : Forest α} {shape : Shape} {cells : Sparse} :
    Sparse.IsSet shape.size cells → g.trace = f.trace →
      g.nodes = f.nodes.push { Node.canonical shape with cache := .ofSparse cells } →
        Begins f .nothing (.found shape cells) .nothing g
  | branch {g : Forest α} {parent : NodeId} {p : Node α} {shape : Shape} :
    f.available? parent = some p → p.orphaned = false → shape.size = p.shape.size →
      g.trace = f.trace →
        g.nodes = (f.update parent fun p => p.subscribe (.view f.nodes.size)).nodes.push
          (.view shape ⟨parent, p.nextToken⟩) →
            Begins f .nothing (.branch parent shape) .nothing g
  | listen {id : NodeId} {n : Node α} {listener : α} :
    f.available? id = some n → Begins f (.listen id listener) .nothing .nothing
      (f.update id fun n => n.subscribe (.listener listener))
  | leave {id : NodeId} {n : Node α} {token : Token} :
    f.available? id = some n → Begins f (.leave id token) .nothing .nothing
      (f.update id fun n => n.unsubscribe token)
  | store {g : Forest α} {id : NodeId} {n : Node α} {value : Cache} {cells : Sparse} :
    f.Reads g → g.available? id = some n → n.role = .canonical → value.isStale = false →
      value.Holds n.shape cells → Begins f .nothing (.stored id cells) (.store id value) g
  | bury {id : NodeId} {n : Node α} :
    f.available? id = some n → Begins f .nothing (.gone id) (.bury id) f

end Forest

/-- The shape of a view has as many cells as that of its parent. -/
theorem Shape.size_of_reshape {s t : Shape} {dims : List UInt32} (h : s.reshape dims = .ok t) :
    t.size = s.size := by
  unfold Shape.reshape at h
  split at h
  · cases h
  split at h
  · cases h
  split at h
  · cases h
    rename_i n total same
    show product dims = s.size
    rw [← same, eq_of_checkedProduct total, Nat.one_mul]
  · cases h

/-- A snapshot that is read from an archive holds a set. -/
theorem Snapshot.isSet_of_ofArchive {a : Archive} {s : Snapshot}
    (h : Snapshot.ofArchive a = .ok s) : Sparse.IsSet s.shape.size s.cells := by
  unfold Snapshot.ofArchive at h
  obtain ⟨_, -, h⟩ := exists_of_bind_eq_ok h
  obtain ⟨_, -, h⟩ := exists_of_bind_eq_ok h
  obtain ⟨dims, -, h⟩ := exists_of_bind_eq_ok h
  obtain ⟨_, -, h⟩ := exists_of_bind_eq_ok h
  obtain ⟨cells, -, h⟩ := exists_of_bind_eq_ok h
  split at h
  · cases h
  · rename_i shape _
    split at h
    · cases h
    · rename_i admitted
      cases h
      exact Sparse.check_eq_ok_iff.1 admitted

namespace Forest

/-- What is said of the beginning of a command. -/
def Opens (f : Forest α) (touch : Touch α) (c : Call α (Answer G × Effect)) :
    Except Fault (Answer G × Happening) → Prop
  | .ok (answer, happening) => ∃ effect g, c f = .ok (touch.told f answer, effect) g ∧
      (touch.told f answer).plain = answer.plain ∧ f.Begins touch happening effect g
  | .error fault => ∃ g, c f = .error fault g ∧ f.Reads g

/-- What creating a view of a node comes to. -/
theorem reshape_eq {f : Forest α} {parent : NodeId} {p : Node α}
    (found : f.available? parent = some p) (dims : List UInt32) :
    match (f.sight parent p).reshape dims with
    | .ok shape => p.orphaned = false ∧ shape.size = p.shape.size ∧
        ∃ g, reshape parent dims f = .ok f.nodes.size g ∧ g.trace = f.trace ∧
          g.nodes = (f.update parent fun p => p.subscribe (.view f.nodes.size)).nodes.push
            (.view shape ⟨parent, p.nextToken⟩)
    | .error fault => reshape parent dims f = .error fault f := by
  unfold reshape Sight.reshape sight
  rw [bind_of_ok (lent_of_some found)]
  cases orphaned : p.orphaned with
  | true => rfl
  | false =>
      cases reshaped : p.shape.reshape dims with
      | error fault => rfl
      | ok shape => exact ⟨rfl, Shape.size_of_reshape reshaped, _, rfl, rfl, rfl⟩

/-- A view is created where it is said to be. -/
theorem opens_reshape_of_some {f : Forest α} {parent : NodeId} {p : Node α}
    (found : f.available? parent = some p) (dims : List UInt32) :
    f.Opens .nothing (do return ((.node (← reshape parent dims) : Answer G), .nothing)) do
      return (.node f.nodes.size, .branch parent (← (f.sight parent p).reshape dims)) := by
  have created := reshape_eq found dims
  cases reshaped : (f.sight parent p).reshape dims with
  | error fault =>
      rw [reshaped] at created
      exact ⟨f, bind_of_error created, .refl⟩
  | ok shape =>
      rw [reshaped] at created
      obtain ⟨live, size, g, created, trace, nodes⟩ := created
      exact ⟨_, g, bind_of_ok created, rfl, .branch found live size trace nodes⟩

/-- A node is created where an archive describes one. -/
theorem adopt_eq (f : Forest α) (a : Archive) :
    match Snapshot.ofArchive a with
    | .ok s => adopt a f = .ok f.nodes.size
        (f.push { Node.canonical s.shape with cache := .ofSparse s.cells })
    | .error fault => adopt a f = .error fault f := by
  unfold adopt
  cases Snapshot.ofArchive a with
  | ok s => rfl
  | error fault => rfl

/-- A command begins as is said of it. -/
def OpensAsSaid [RandomSource G] (f : Forest α) (command : Command α G) : Prop :=
  f.Opens command.touch command.prelude (command.said f.outlook f.nodes.size)

/-- A question begins, and ends, as is said of it. -/
theorem opens_ask [RandomSource G] [LawfulRandomSource G] {f : Forest α}
    (sound : f.Sound) (question : Question) : f.OpensAsSaid (.ask question : Command α G) := by
  have asked := says_question (G := G) question f sound rfl
  unfold OpensAsSaid
  simp only [Command.prelude, Command.said]
  cases said : (question.said f.outlook : Except Fault (Answer G)) with
  | error fault =>
      rw [said] at asked
      obtain ⟨g, failed, reads⟩ := asked
      exact ⟨g, bind_of_error failed, reads⟩
  | ok answer =>
      rw [said] at asked
      obtain ⟨_, g, answered, reads, rfl⟩ := asked
      exact ⟨_, g, bind_of_ok answered, rfl, .read reads⟩

/-- A node is created if its dimensions describe a shape. -/
theorem opens_create [RandomSource G] (f : Forest α) (dims : List UInt32) :
    f.OpensAsSaid (.create dims : Command α G) := by
  unfold OpensAsSaid
  simp only [Command.prelude, Command.said]
  cases checked : Shape.ofDims dims with
  | error fault =>
      have failed : create dims f = .error (.argument fault) f := by
        unfold create
        rw [checked]
      exact ⟨f, bind_of_error failed, .refl⟩
  | ok shape =>
      have created : create dims f = .ok f.nodes.size (f.push (.canonical shape)) := by
        unfold create
        rw [checked]
      exact ⟨_, _, bind_of_ok created, rfl, .found (Sparse.isSet_nil _) rfl rfl⟩

/-- A view is created with dimensions that its parent can be seen in. -/
theorem opens_reshape [RandomSource G] (f : Forest α) (parent : NodeId) (dims : List UInt32) :
    f.OpensAsSaid (.reshape parent dims : Command α G) := by
  unfold OpensAsSaid
  simp only [Command.prelude, Command.said]
  cases found : f.available? parent with
  | none =>
      rw [outlook_of_none found]
      exact ⟨f, bind_of_error (bind_of_error (lent_of_none found)), .refl⟩
  | some p =>
      rw [outlook_of_some found]
      exact opens_reshape_of_some found dims

/-- A view is created as one of the same dimensions. -/
theorem opens_view [RandomSource G] (f : Forest α) (parent : NodeId) :
    f.OpensAsSaid (.view parent : Command α G) := by
  unfold OpensAsSaid
  simp only [Command.prelude, Command.said]
  cases found : f.available? parent with
  | none =>
      rw [outlook_of_none found]
      exact ⟨f, bind_of_error (bind_of_error (lent_of_none found)), .refl⟩
  | some p =>
      rw [outlook_of_some found]
      have same : (view parent >>= fun id =>
          pure ((.node id, .nothing) : Answer G × Effect) : Call α _) f =
            (reshape parent p.shape.dims >>= fun id => pure (.node id, .nothing)) f := by
        unfold view
        rw [bind_assoc, bind_of_ok (lent_of_some found)]
      have opens := opens_reshape_of_some (G := G) found p.shape.dims
      unfold Opens at opens ⊢
      rw [← same] at opens
      exact opens

/-- A node is created where an archive describes one. -/
theorem opens_adopt [RandomSource G] (f : Forest α) (a : Archive) :
    f.OpensAsSaid (.adopt a : Command α G) := by
  unfold OpensAsSaid
  simp only [Command.prelude, Command.said]
  have adopted := adopt_eq f a
  cases read : Snapshot.ofArchive a with
  | error fault =>
      rw [read] at adopted
      exact ⟨f, bind_of_error adopted, .refl⟩
  | ok s =>
      rw [read] at adopted
      exact ⟨_, _, bind_of_ok adopted, rfl,
        .found (Snapshot.isSet_of_ofArchive read) rfl rfl⟩

/-- A node is created where a record holds an archive that describes one. -/
theorem opens_load [RandomSource G] (f : Forest α) (format : Format) (settings : Settings)
    (source : Source) : f.OpensAsSaid (.load format settings source : Command α G) := by
  unfold OpensAsSaid
  simp only [Command.prelude, Command.said]
  cases read : Record.read format settings source with
  | error fault =>
      have failed : loadArchive format settings source f = .error fault f := by
        unfold loadArchive
        rw [read]
        rfl
      exact ⟨f, bind_of_error (bind_of_error failed), .refl⟩
  | ok pair =>
      obtain ⟨a, rest⟩ := pair
      let notes : List Note := [.loadedRecord a.kind a.fields.length format]
      have noted : loadArchive format settings source f = .ok (a, rest) (f.noteAll notes) := by
        unfold loadArchive
        rw [read]
        rfl
      have adopted := adopt_eq (f.noteAll notes) a
      show f.Opens .nothing _ (do
        let s ← Snapshot.ofArchive a
        return (.loaded f.nodes.size rest, .found s.shape s.cells))
      cases described : Snapshot.ofArchive a with
      | error fault =>
          rw [described] at adopted
          refine ⟨f.noteAll notes, bind_of_error ?_, .note notes .refl⟩
          exact (bind_of_ok noted).trans (bind_of_error adopted)
      | ok s =>
          rw [described] at adopted
          have loaded : load format settings source f = .ok (f.nodes.size, rest) _ :=
            (bind_of_ok noted).trans (bind_of_ok adopted)
          refine ⟨_, _, bind_of_ok loaded, rfl, ?_⟩
          exact .found (Snapshot.isSet_of_ofArchive described) rfl rfl

/-- A listener is registered with a node that is there. -/
theorem opens_subscribe [RandomSource G] (f : Forest α) (id : NodeId) (listener : α) :
    f.OpensAsSaid (.subscribe id listener : Command α G) := by
  unfold OpensAsSaid
  simp only [Command.prelude, Command.said]
  cases found : f.available? id with
  | none =>
      rw [outlook_of_none found]
      exact ⟨f, bind_of_error (bind_of_error (lent_of_none found)), .refl⟩
  | some n =>
      rw [outlook_of_some found]
      have present := (Option.filter_eq_some_iff.1 found).1
      have told : (Command.subscribe id listener : Command α G).touch.told f
          (.done : Answer G) = .token n.nextToken := by
        simp [Touch.told, Command.touch, present]
      have subscribed : subscribe id listener f = .ok n.nextToken _ :=
        bind_of_ok (lent_of_some found)
      refine ⟨_, _, ?_, by rw [told]; rfl, .listen found⟩
      rw [told]
      exact bind_of_ok subscribed

/-- A registration is removed from a node that is there. -/
theorem opens_unsubscribe [RandomSource G] (f : Forest α) (id : NodeId) (token : Token) :
    f.OpensAsSaid (.unsubscribe id token : Command α G) := by
  unfold OpensAsSaid
  simp only [Command.prelude, Command.said]
  cases found : f.available? id with
  | none =>
      rw [outlook_of_none found]
      exact ⟨f, bind_of_error (bind_of_error (lent_of_none found)), .refl⟩
  | some n =>
      rw [outlook_of_some found]
      have present := (Option.filter_eq_some_iff.1 found).1
      have told : (Command.unsubscribe id token : Command α G).touch.told f (.done : Answer G) =
          .removed (n.hasToken token) := by
        simp [Touch.told, Command.touch, present]
      have left : unsubscribe id token f = .ok (n.hasToken token) _ :=
        bind_of_ok (lent_of_some found)
      refine ⟨_, _, ?_, by rw [told]; rfl, .leave found⟩
      rw [told]
      exact bind_of_ok left

/-- A node that is there is destroyed. -/
theorem opens_destroy [RandomSource G] (f : Forest α) (id : NodeId) :
    f.OpensAsSaid (.destroy id : Command α G) := by
  unfold OpensAsSaid
  simp only [Command.prelude, Command.said]
  cases found : f.available? id with
  | none =>
      rw [outlook_of_none found]
      exact ⟨f, bind_of_error (lent_of_none found), .refl⟩
  | some n =>
      rw [outlook_of_some found]
      exact ⟨_, f, bind_of_ok (lent_of_some found), rfl, .bury found⟩

/-- A value is stored in a canonical node as is said. -/
theorem opens_mutate [RandomSource G] [LawfulRandomSource G] {f : Forest α}
    (sound : f.Sound) (id : NodeId) (mutation : Mutation G) : f.OpensAsSaid (.mutate id mutation : Command α G) := by
  have changed := says_value id mutation f sound rfl
  unfold OpensAsSaid
  simp only [Command.prelude, Command.said]
  cases said : mutation.said f.outlook id with
  | error fault =>
      rw [said] at changed
      obtain ⟨g, failed, reads⟩ := changed
      exact ⟨g, bind_of_error failed, reads⟩
  | ok pair =>
      rw [said] at changed
      obtain ⟨⟨value, answer⟩, g, answered, reads, stores, same⟩ := changed
      obtain ⟨held, x, seen, isView, holds⟩ := stores
      subst same
      refine ⟨_, g, bind_of_ok answered, rfl, ?_⟩
      cases found : g.available? id with
      | none =>
          rw [← reads.outlook sound, outlook_of_none found] at seen
          cases seen
      | some n =>
          rw [← reads.outlook sound, outlook_of_some found] at seen
          cases seen
          refine .store reads found ?_ held holds
          cases role : n.role with
          | canonical => rfl
          | view link =>
              simp only [sight, role] at isView
              cases isView

/-- Every command begins as is said of it. -/
theorem opens_prelude [RandomSource G] [LawfulRandomSource G] {f : Forest α} (sound : f.Sound)
    (command : Command α G) : f.OpensAsSaid command := by
  cases command with
  | ask question => exact opens_ask sound question
  | create dims => exact opens_create f dims
  | reshape parent dims => exact opens_reshape f parent dims
  | view parent => exact opens_view f parent
  | adopt a => exact opens_adopt f a
  | load format settings source => exact opens_load f format settings source
  | subscribe id listener => exact opens_subscribe f id listener
  | unsubscribe id token => exact opens_unsubscribe f id token
  | destroy id => exact opens_destroy f id
  | mutate id mutation => exact opens_mutate sound id mutation

/-- What is said of a command that begins. -/
theorem begins_of_prelude [RandomSource G] [LawfulRandomSource G] {f g : Forest α}
    (sound : f.Sound) {command : Command α G} {full : Answer G} {effect : Effect}
    (h : command.prelude f = .ok (full, effect) g) :
    ∃ answer happening, command.said f.outlook f.nodes.size = .ok (answer, happening) ∧
      full = command.touch.told f answer ∧ full.plain = answer.plain ∧
        f.Begins command.touch happening effect g := by
  have opens := opens_prelude sound command
  unfold OpensAsSaid at opens
  cases said : command.said f.outlook f.nodes.size with
  | error fault =>
      rw [said] at opens
      obtain ⟨_, failed, -⟩ := opens
      cases h.symm.trans failed
  | ok pair =>
      rw [said] at opens
      obtain ⟨_, _, begun, plain, begins⟩ := opens
      cases h.symm.trans begun
      exact ⟨_, _, rfl, rfl, plain, begins⟩

/-- What is said of a command that is refused. -/
theorem reads_of_prelude_error [RandomSource G] [LawfulRandomSource G] {f g : Forest α}
    (sound : f.Sound) {command : Command α G} {fault : Fault}
    (h : command.prelude f = .error fault g) :
    command.said f.outlook f.nodes.size = .error fault ∧ f.Reads g := by
  have opens := opens_prelude sound command
  unfold OpensAsSaid at opens
  cases said : command.said f.outlook f.nodes.size with
  | error fault =>
      rw [said] at opens
      obtain ⟨_, failed, reads⟩ := opens
      cases h.symm.trans failed
      exact ⟨rfl, reads⟩
  | ok pair =>
      rw [said] at opens
      obtain ⟨_, _, begun, -⟩ := opens
      cases h.symm.trans begun

end Forest

end SparseTensor
