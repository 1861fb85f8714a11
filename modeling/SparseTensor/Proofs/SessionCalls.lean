/-
# The calls of a session

`Offered` lists the calls that a session offers.  Each of them looks names up, has the forest
carry out one command at most, and then keeps what has come of it: names, generators, buffers.
Only the first two of these can be refused, and what is kept is kept last.  A generator that is drawn
from goes on from where a call has left it, also if the call is refused: such a call has drawn nothing
(`Forest.Frugal`).

`Obeys` says of a call what relates the session before it to the one after it, if it answers and if
it is refused.  It composes along sequences of calls, and `Offered.careful` goes through what is
offered call by call: a call that is refused has read the forest and has changed nothing else.
-/
import SparseTensor.Proofs.Orphans
import SparseTensor.Session.Records

namespace SparseTensor

/-! ## Calls on a forest that are commands -/

namespace Forest

variable {α β : Type}

/-- A call that does what a command does, and is answered by what the answer is made of. -/
def Backed (c : Call α β) : Prop :=
  ∃ (command : Command α Generator) (react : Reaction α) (k : β → Answer Generator),
    command.call react = (do return k (← c) : Call α (Answer Generator))

/-- Runs that come to `f` come to `g`. -/
def Led (f g : Forest α) : Prop :=
  Reached (fun _ (_ : Move α Generator) => True) (.quiet f) →
    Reached (fun _ (_ : Move α Generator) => True) (.quiet g)

/-- Runs go on from the forest that a request leads to. -/
theorem led_turn (f : Forest α) (r : Request α Generator) : f.Led (f.turn r).2 := by
  intro h
  cases began : r.command.prelude f with
  | error fault g =>
      rw [turn_of_error began]
      exact h.next trivial (.refuse r.command began)
  | ok pair g =>
      obtain ⟨answer, effect⟩ := pair
      obtain ⟨t, leads, turned⟩ := turn_of_ok began
      rw [turned]
      have ended := (h.next trivial (.call r.command began)).leads leads
      cases changing : (g.begin effect).changing with
      | none =>
          rw [changing] at ended
          exact ended
      | some id =>
          rw [changing] at ended
          exact ended.next trivial .finish

/-- What a call does that does what a command does: runs go on from where it leads, and if it is
refused it has only read. -/
theorem Backed.obeys {c : Call α β} (h : Backed c) (f : Forest α) :
    match c f with
    | .ok _ g => f.Led g
    | .error _ g => f.Led g ∧ (f.Sound → f.Reads g) := by
  obtain ⟨command, react, k, same⟩ := h
  have led := f.led_turn ⟨command, react⟩
  unfold turn at led
  cases result : c f with
  | ok b g =>
      have answered : command.call react f = .ok (k b) g := by
        rw [same]
        exact bind_of_ok result
      simpa only [answered] using led
  | error fault g =>
      have refused : command.call react f = .error fault g := by
        rw [same]
        exact bind_of_error result
      refine ⟨by simpa only [refused] using led, fun sound => ?_⟩
      -- a command is refused in its first part or not at all
      rw [command.call_eq] at refused
      cases began : command.prelude f with
      | error fault' g' =>
          obtain ⟨rfl, rfl⟩ : fault' = fault ∧ g' = g := by
            simpa using (bind_of_error began).symm.trans refused
          exact (reads_of_prelude_error sound began).2
      | ok pair g' => cases (bind_of_ok began).symm.trans refused

/-! ## Calls that draw -/

section

variable {γ G : Type}

/-- A call that has drawn nothing if it fails. -/
def Frugal (c : Drawing α G β) : Prop :=
  ∀ f g fault f' g', c (f, g) = .error fault (f', g') → g' = g

/-- A call that draws nothing may go before one that has drawn nothing if it fails. -/
theorem Frugal.after (c : Call α β) {k : β → Drawing α G γ} (h : ∀ b, Frugal (k b)) :
    Frugal (still c >>= k) := by
  intro f g fault f' g' failed
  cases result : c f with
  | ok b left =>
      rw [bind_of_ok (still_of_ok result g)] at failed
      exact h b left g fault f' g' failed
  | error fault left =>
      cases (bind_of_error (still_of_error result g)).symm.trans failed
      rfl

/-- After a draw nothing fails any more. -/
theorem frugal_draw (d : G → β × G) (h : β → Forest α → Forest α) :
    Frugal (draw d >>= fun b => still (modify (h b)) : Drawing α G Unit) := by
  rintro f g fault f' g' ⟨⟩

variable [RandomSource G]

theorem frugal_randomize (react : Reaction α) (id : NodeId) (sparsity : Float) :
    Frugal (randomize react id sparsity : Drawing α G Unit) := by
  simp only [randomize, randomValue, bind_assoc, pure_bind]
  exact .after _ fun n => .after _ fun _ => frugal_draw _ _

theorem frugal_addNoise (react : Reaction α) (id : NodeId) (fraction : Float) :
    Frugal (addNoise react id fraction : Drawing α G Unit) := by
  simp only [addNoise, noisyValue, bind_assoc, pure_bind]
  exact .after _ fun n => .after _ fun _ => .after _ fun cells => frugal_draw _ _

end

end Forest

/-- A sample that is refused has drawn nothing. -/
theorem Generator.eq_of_sample_error {population : Array UInt32} {count : Nat} {g g' : Generator}
    {fault : Fault} (h : sample population count g = .error fault g') : g' = g := by
  unfold sample at h
  split at h <;> cases h
  rfl

namespace Session

variable {β γ : Type}

/-! ## What is offered -/

/-- The calls that a session offers. -/
inductive Offered : {β : Type} → Call β → Prop
  | create (name : String) (dims : List UInt32) : Offered (createNode name dims)
  | reshape (name parent : String) (dims : List UInt32) : Offered (reshape name parent dims)
  | view (name parent : String) : Offered (view name parent)
  | destroy (name : String) : Offered (destroy name)
  | subscribe (name : String) (listener : Listener) : Offered (subscribe name listener)
  | unsubscribe (name token : String) : Offered (unsubscribe name token)
  | facts (name : String) : Offered (facts name)
  | summary (name : String) : Offered (summary name)
  | dense (name : String) : Offered (ask name Forest.dense)
  | sparse (name : String) : Offered (ask name Forest.sparse)
  | coordinates (name : String) : Offered (ask name Forest.coordinates)
  | sum (name : String) : Offered (ask name Forest.sum)
  | sparsity (name : String) : Offered (ask name Forest.sparsity)
  | isActive (name : String) (coords : List UInt32) :
    Offered (ask name fun id => Forest.isActive id coords)
  | overlap (name other : String) : Offered (askBoth name other Forest.overlap)
  | equal (name other : String) : Offered (askBoth name other Forest.equal)
  | display (name : String) : Offered (ask name Forest.display)
  | setDense (name : String) (bytes : List UInt8) :
    Offered (change name fun react id => Forest.setDense react id bytes)
  | setSparse (name : String) (cells : List Cell) :
    Offered (change name fun react id => Forest.setSparse react id cells)
  | setCoordinates (name : String) (coords : Coordinates) :
    Offered (change name fun react id => Forest.setCoordinates react id coords)
  | zero (name : String) : Offered (change name Forest.zero)
  | copyFrom (name other : String) : Offered (copyFrom name other)
  | randomize (name source : String) (sparsity : Float) :
    Offered (changeAtRandom name source fun react id => Forest.randomize react id sparsity)
  | addNoise (name source : String) (fraction : Float) :
    Offered (changeAtRandom name source fun react id => Forest.addNoise react id fraction)
  | intersection (name : String) (inputs : List String) :
    Offered (changeFrom name inputs Forest.intersection)
  | union (name : String) (inputs : List String) : Offered (changeFrom name inputs Forest.union)
  | concatenate (name : String) (inputs : List String) (axis : Nat) :
    Offered (changeFrom name inputs fun react id inputs => Forest.concatenate react id inputs axis)
  | keep (name : String) (g : Generator) : Offered (keep name g)
  | generator (name : String) : Offered (generator name)
  | draw {β : Type} (name : String) (d : Generator → β × Generator) : Offered (draw name d)
  | sample (name : String) (population : Array UInt32) (count : Nat) :
    Offered (sample name population count)
  | saveNode (name : String) (manner : Manner) (sink : Sink) (buffer : Option String) :
    Offered (saveNode name manner sink buffer)
  | saveGenerator (name : String) (manner : Manner) (sink : Sink) (buffer : Option String) :
    Offered (saveGenerator name manner sink buffer)
  | loadNode (buffer name : String) (manner : Manner) : Offered (take buffer (loadNode name manner))
  | loadGenerator (buffer name : String) (manner : Manner) :
    Offered (take buffer (loadGenerator name manner))
  | loadFile (name : String) (manner : Manner) (file : Option (List UInt8)) :
    Offered (loadFile name manner file)

/-! ## What calls do -/

/-- A call goes from a session to another as `R` says if it answers, and as `S` says if it is
refused. -/
def Obeys (R S : Session → Session → Prop) (c : Call β) : Prop :=
  ∀ s, match c s with
    | .ok _ t => R s t
    | .error _ t => S s t

/-- What calls one after another do. -/
theorem Obeys.bind {c : Call β} {k : β → Call γ} {R S R' S' T U : Session → Session → Prop}
    (first : Obeys R S c) (next : ∀ b, Obeys R' S' (k b))
    (answered : ∀ {s t u}, R s t → R' t u → T s u) (refused : ∀ {s t}, S s t → U s t)
    (later : ∀ {s t u}, R s t → S' t u → U s u) : Obeys T U (c >>= k) := by
  intro s
  have first := first s
  show match EStateM.bind c k s with | .ok _ u => T s u | .error _ u => U s u
  unfold EStateM.bind
  cases result : c s with
  | error refusal t =>
      rw [result] at first
      exact refused first
  | ok b t =>
      rw [result] at first
      have next := next b t
      simp only
      cases result' : k b t with
      | ok _ u =>
          rw [result'] at next
          exact answered first next
      | error _ u =>
          rw [result'] at next
          exact later first next

/-- All that has changed of a session is what is read of its forest and what is in its buffers. -/
structure Kept (s t : Session) : Prop where
  reads : s.forest.Sound → s.forest.Reads t.forest
  nodes : t.nodes = s.nodes
  tokens : t.tokens = s.tokens
  generators : ∀ name, t.generators.get? name = s.generators.get? name

theorem Kept.refl (s : Session) : s.Kept s := ⟨fun _ => .refl, rfl, rfl, fun _ => rfl⟩

theorem Kept.trans {s t u : Session} (h : s.Kept t) (more : t.Kept u) : s.Kept u where
  reads sound := (h.reads sound).trans (more.reads ((h.reads sound).sound sound))
  nodes := more.nodes.trans h.nodes
  tokens := more.tokens.trans h.tokens
  generators name := (more.generators name).trans (h.generators name)

section

/-! `R` is what is asked of the forest along a call, whether it answers or not. -/

variable {R : Forest Listener → Forest Listener → Prop}

/-- A call that changes nothing, whether it answers or not. -/
def Gentle (R : Forest Listener → Forest Listener → Prop) (c : Call β) : Prop :=
  Obeys (fun s t => s.Kept t ∧ R s.forest t.forest) (fun s t => s.Kept t ∧ R s.forest t.forest) c

/-- A call that changes nothing if it is refused. -/
def Careful (R : Forest Listener → Forest Listener → Prop) (c : Call β) : Prop :=
  Obeys (fun s t => R s.forest t.forest) (fun s t => s.Kept t ∧ R s.forest t.forest) c

/-- A call that is never refused. -/
def Sure (R : Forest Listener → Forest Listener → Prop) (c : Call β) : Prop :=
  Obeys (fun s t => R s.forest t.forest) (fun _ _ => False) c

/-- What is asked of forests can be asked along calls. -/
structure Steady (R : Forest Listener → Forest Listener → Prop) : Prop where
  refl : ∀ f, R f f
  trans : ∀ {f g h}, R f g → R g h → R f h

theorem steady_led : Steady Forest.Led :=
  ⟨fun _ => id, fun first next => next ∘ first⟩

theorem steady_level : Steady fun f g => g.nodes = f.nodes :=
  ⟨fun _ => rfl, fun first next => next.trans first⟩

/-! ### One call after another -/

theorem Gentle.bind {c : Call β} {k : β → Call γ} (steady : Steady R) (first : Gentle R c)
    (next : ∀ b, Gentle R (k b)) : Gentle R (c >>= k) :=
  Obeys.bind first next
    (fun ⟨kept, led⟩ ⟨kept', led'⟩ => ⟨kept.trans kept', steady.trans led led'⟩) id
    (fun ⟨kept, led⟩ ⟨kept', led'⟩ => ⟨kept.trans kept', steady.trans led led'⟩)

/-- A call that may change something comes after those that do not. -/
theorem Gentle.then {c : Call β} {k : β → Call γ} (steady : Steady R) (first : Gentle R c)
    (next : ∀ b, Careful R (k b)) : Careful R (c >>= k) :=
  Obeys.bind first next (fun first next => steady.trans first.2 next) id
    (fun ⟨kept, led⟩ ⟨kept', led'⟩ => ⟨kept.trans kept', steady.trans led led'⟩)

/-- After a call that may have changed something nothing is refused any more. -/
theorem Careful.then {c : Call β} {k : β → Call γ} (steady : Steady R) (first : Careful R c)
    (next : ∀ b, Sure R (k b)) : Careful R (c >>= k) :=
  Obeys.bind first next (fun led led' => steady.trans led led') id
    (fun _ impossible => absurd impossible id)

theorem Sure.bind {c : Call β} {k : β → Call γ} (steady : Steady R) (first : Sure R c)
    (next : ∀ b, Sure R (k b)) : Sure R (c >>= k) :=
  Obeys.bind first next (fun led led' => steady.trans led led') id
    (fun _ impossible => absurd impossible id)

theorem Gentle.careful {c : Call β} (h : Gentle R c) : Careful R c := by
  intro s
  have := h s
  cases result : c s <;> rw [result] at this
  · exact this.2
  · exact this

theorem Sure.careful {c : Call β} (h : Sure R c) : Careful R c := by
  intro s
  have := h s
  cases result : c s <;> rw [result] at this
  · exact this
  · exact this.elim

/-! ### Looking up and keeping -/

variable (steady : Steady R)

include steady

/-- A call that leaves the session alone. -/
theorem gentle_of_same {c : Call β}
    (same : ∀ s, (∃ b, c s = .ok b s) ∨ ∃ refusal, c s = .error refusal s) : Gentle R c := by
  intro s
  rcases same s with ⟨b, h⟩ | ⟨refusal, h⟩ <;> rw [h] <;> exact ⟨.refl s, steady.refl _⟩

theorem gentle_get : Gentle R (get : Call Session) :=
  gentle_of_same steady fun s => .inl ⟨s, rfl⟩

theorem gentle_resolve (name : String) (b? : Option β) : Gentle R (resolve name b?) := by
  refine gentle_of_same steady fun s => ?_
  cases b? with
  | none => exact .inr ⟨_, rfl⟩
  | some b => exact .inl ⟨b, rfl⟩

theorem gentle_settle (e : Except Fault β) : Gentle R (settle e) := by
  refine gentle_of_same steady fun s => ?_
  cases e with
  | error fault => exact .inr ⟨_, rfl⟩
  | ok b => exact .inl ⟨b, rfl⟩

theorem gentle_node (name : String) : Gentle R (node name) :=
  (gentle_get steady).bind steady fun _ => gentle_resolve steady _ _

theorem gentle_generator (name : String) : Gentle R (generator name) :=
  (gentle_get steady).bind steady fun _ => gentle_resolve steady _ _

theorem gentle_nodes (names : List String) : Gentle R (names.mapM node) := by
  induction names with
  | nil => exact gentle_of_same steady fun s => .inl ⟨[], rfl⟩
  | cons name names ih =>
      rw [List.mapM_cons]
      refine (gentle_node steady name).bind steady fun id => ih.bind steady fun ids => ?_
      exact gentle_of_same steady fun s => .inl ⟨id :: ids, rfl⟩

/-- Keeping something that is not in the forest. -/
theorem sure_modify {f : Session → Session} (same : ∀ s, (f s).forest = s.forest) :
    Sure R (modify f : Call PUnit) := by
  intro s
  show R s.forest (f s).forest
  rw [same]
  exact steady.refl _

theorem sure_pure (b : β) : Sure R (pure b : Call β) := fun s => steady.refl s.forest

theorem sure_append (buffer : Option String) (bytes : List UInt8) :
    Sure R (append buffer bytes) := by
  cases buffer with
  | none => exact sure_pure steady _
  | some name => exact sure_modify steady fun _ => rfl

theorem sure_keep (name : String) (g : Generator) : Sure R (keep name g) :=
  (sure_modify steady fun _ => rfl).bind steady fun _ => sure_pure steady _

/-- What a call does with a generator that is there. -/
theorem careful_generator {name : String} {k : Generator → Call β}
    (h : ∀ (s : Session) (g : Generator), s.generators.get? name = some g →
      match k g s with
      | .ok _ t => R s.forest t.forest
      | .error _ t => s.Kept t ∧ R s.forest t.forest) :
    Careful R (generator name >>= k) := by
  intro s
  cases known : s.generators.get? name with
  | none =>
      have refused : generator name s = .error (.unknown name) s := by
        rw [generator, get_bind, known]
        rfl
      rw [bind_of_error refused]
      exact ⟨.refl s, steady.refl _⟩
  | some g =>
      have found : generator name s = .ok g s := by
        rw [generator, get_bind, known]
        rfl
      rw [bind_of_ok found]
      exact h s g known

/-- Loading from a buffer is as careful as the load is. -/
theorem Careful.take (buffer : String) {load : Source → Call (β × Source)}
    (h : ∀ source, Careful R (load source)) : Careful R (take buffer load) := by
  have emptied : Gentle R
      (modify fun s => { s with buffers := s.buffers.erase buffer } : Call PUnit) :=
    fun s => ⟨⟨fun _ => .refl, rfl, rfl, fun _ => rfl⟩, steady.refl _⟩
  refine (gentle_get steady).then steady fun s => emptied.then steady fun _ => ?_
  refine (h _).then steady fun pair => ?_
  exact (sure_append steady (some buffer) pair.2.bytes).bind steady fun _ => sure_pure steady _

end

/-! ### Commands -/

/-- A call on the forest that does what a command does. -/
theorem careful_onForest {c : Forest.Call Listener β} (h : Forest.Backed c) :
    Careful Forest.Led (onForest c) := by
  intro s
  have obeys := h.obeys s.forest
  unfold onForest
  cases result : c s.forest with
  | ok b f =>
      rw [result] at obeys
      exact obeys
  | error fault f =>
      rw [result] at obeys
      exact ⟨⟨obeys.2, rfl, rfl, fun _ => rfl⟩, obeys.1⟩

/-- Asking about a node. -/
theorem careful_ask {name : String} {question : NodeId → Forest.Call Listener β}
    (h : ∀ id, Forest.Backed (question id)) : Careful Forest.Led (ask name question) :=
  (gentle_node steady_led name).then steady_led fun id => careful_onForest (h id)

/-- Asking about two nodes. -/
theorem careful_askBoth {name other : String}
    {question : NodeId → NodeId → Forest.Call Listener β}
    (h : ∀ id other, Forest.Backed (question id other)) :
    Careful Forest.Led (askBoth name other question) :=
  (gentle_node steady_led name).then steady_led fun id =>
    (gentle_node steady_led other).then steady_led fun other => careful_onForest (h id other)

/-- Changing a node. -/
theorem careful_change {name : String} {c : Reaction Listener → NodeId → Forest.Call Listener β}
    (h : ∀ react id, Forest.Backed (c react id)) : Careful Forest.Led (change name c) :=
  (gentle_node steady_led name).then steady_led fun id =>
    (gentle_get steady_led).then steady_led fun s => careful_onForest (h s.reaction id)

/-- Changing a node by means of others. -/
theorem careful_changeFrom {name : String} {inputs : List String}
    {c : Reaction Listener → NodeId → List NodeId → Forest.Call Listener β}
    (h : ∀ react id inputs, Forest.Backed (c react id inputs)) :
    Careful Forest.Led (changeFrom name inputs c) :=
  (gentle_nodes steady_led inputs).then steady_led fun inputs =>
    careful_change fun react id => h react id inputs

/-- Changing a node and drawing from a generator, if nothing is drawn by a call that fails. -/
theorem careful_changeAtRandom {name source : String}
    {c : Reaction Listener → NodeId → Forest.Drawing Listener Generator β}
    (backed : ∀ react id g, Forest.Backed (Forest.withSource g (c react id)))
    (frugal : ∀ react id, Forest.Frugal (c react id)) :
    Careful Forest.Led (changeAtRandom name source c) := by
  refine (gentle_node steady_led name).then steady_led fun id => ?_
  refine careful_generator steady_led fun s g known => ?_
  have obeys := (backed s.reaction id g).obeys s.forest
  unfold Forest.withSource at obeys
  cases result : c s.reaction id (s.forest, g) with
  | ok b left =>
      rw [result] at obeys
      exact obeys
  | error fault left =>
      rw [result] at obeys
      -- the generator is kept where it was, which it stands for already
      obtain rfl := frugal s.reaction id s.forest g fault left.1 left.2 result
      exact ⟨⟨obeys.2, rfl, rfl, Names.get?_set_self known⟩, obeys.1⟩

theorem backed_destroy {α : Type} (react : Reaction α) (id : NodeId) :
    Forest.Backed (Forest.destroy react id) :=
  ⟨.destroy id, react, fun _ => .done, rfl⟩

/-- A node that is lent out can be destroyed. -/
theorem onForest_destroy {s : Session} {id : NodeId} (lent : (s.forest.available? id).isSome)
    (react : Reaction Listener) :
    ∃ f, onForest (Forest.destroy react id) s = .ok ⟨⟩ { s with forest := f } ∧
      s.forest.Led f := by
  obtain ⟨n, found⟩ := Option.isSome_iff_exists.1 lent
  have destroyed := Forest.destroy_eq found react
  have led := (backed_destroy react id).obeys s.forest
  rw [destroyed] at led
  refine ⟨_, ?_, led⟩
  unfold onForest
  rw [destroyed]

/-- A name is given to a node in any case; the node that had it is destroyed if it is there. -/
theorem sure_assign (name : String) (id : NodeId) : Sure Forest.Led (assign name id) := by
  intro s
  have same : s.forest.Led s.forest := fun reached => reached
  rw [assign, get_bind, modify_bind]
  cases s.nodes.get? name with
  | none => exact same
  | some former =>
      -- the former node is destroyed after the name is given, in a forest that is the same
      by_cases lent : (s.forest.available? former).isSome = true
      · simp only [if_pos lent, get_bind]
        obtain ⟨f, destroyed, led⟩ :=
          onForest_destroy (s := { s with nodes := s.nodes.set name id }) lent _
        rw [destroyed]
        exact led
      · simp only [if_neg lent]
        exact same

/-- Creating a node. -/
theorem careful_create {name : String} {c : Forest.Call Listener NodeId} (h : Forest.Backed c) :
    Careful Forest.Led (create name c) :=
  (careful_onForest h).then steady_led fun id => sure_assign name id

/-! ### Records -/

/-- Writing a record of something else than a node notes it, or does nothing. -/
theorem gentle_saveArchive (format : Format) (settings : Settings) (sink : Sink) (a : Archive) :
    Gentle (fun f g => g.nodes = f.nodes)
      (onForest (Forest.saveArchive format settings sink a)) := by
  intro s
  unfold onForest Forest.saveArchive
  obtain ⟨accepted, result⟩ := Record.write format settings sink a
  cases result with
  | error fault => exact ⟨.refl s, rfl⟩
  | ok _ => exact ⟨⟨fun _ => Forest.Reads.refl.note _, rfl, rfl, fun _ => rfl⟩, rfl⟩

/-- Reading a record notes it, or does nothing. -/
theorem gentle_loadArchive (format : Format) (settings : Settings) (source : Source) :
    Gentle (fun f g => g.nodes = f.nodes)
      (onForest (Forest.loadArchive format settings source)) := by
  intro s
  unfold onForest Forest.loadArchive
  cases Record.read format settings source with
  | error fault => exact ⟨.refl s, rfl⟩
  | ok pair => exact ⟨⟨fun _ => Forest.Reads.refl.note _, rfl, rfl, fun _ => rfl⟩, rfl⟩

/-- Saving a node. -/
theorem careful_saveNode (name : String) (manner : Manner) (sink : Sink)
    (buffer : Option String) : Careful Forest.Led (saveNode name manner sink buffer) := by
  refine (gentle_node steady_led name).then steady_led fun id => ?_
  refine (gentle_settle steady_led _).then steady_led fun format => ?_
  have saved : Forest.Backed (α := Listener) (Forest.save id format manner.settings sink) :=
    ⟨.ask (.save id format manner.settings sink), fun _ _ _ => [], .record, rfl⟩
  refine (careful_onForest saved).then steady_led fun bytes => ?_
  exact (sure_append steady_led buffer bytes).bind steady_led fun _ => sure_pure steady_led _

/-- Saving a generator. -/
theorem careful_saveGenerator (name : String) (manner : Manner) (sink : Sink)
    (buffer : Option String) :
    Careful (fun f g => g.nodes = f.nodes) (saveGenerator name manner sink buffer) := by
  refine (gentle_generator steady_level name).then steady_level fun g => ?_
  refine (gentle_settle steady_level _).then steady_level fun format => ?_
  refine (gentle_saveArchive format manner.settings sink g.toArchive).then steady_level fun _ => ?_
  refine Sure.careful ((sure_append steady_level buffer _).bind steady_level fun _ => ?_)
  exact sure_pure steady_level _

/-- Loading a node. -/
theorem careful_loadNode (name : String) (manner : Manner) (source : Source) :
    Careful Forest.Led (loadNode name manner source) := by
  refine (gentle_settle steady_led _).then steady_led fun format => ?_
  have loaded : Forest.Backed (α := Listener) (Forest.load format manner.settings source) :=
    ⟨.load format manner.settings source, fun _ _ _ => [], fun pair => .loaded pair.1 pair.2, rfl⟩
  refine (careful_onForest loaded).then steady_led fun pair => ?_
  exact (sure_assign name pair.1).bind steady_led fun _ => sure_pure steady_led _

/-- Loading a generator. -/
theorem careful_loadGenerator (name : String) (manner : Manner) (source : Source) :
    Careful (fun f g => g.nodes = f.nodes) (loadGenerator name manner source) := by
  refine (gentle_settle steady_level _).then steady_level fun format => ?_
  refine (gentle_loadArchive format manner.settings source).then steady_level fun pair => ?_
  -- what was read may still be no generator, so nothing is kept before that is known
  refine (gentle_settle steady_level _).then steady_level fun g => ?_
  refine Sure.careful ((sure_keep steady_level name g).bind steady_level fun _ => ?_)
  exact sure_pure steady_level _

/-- Loading a node from a file. -/
theorem careful_loadFile (name : String) (manner : Manner) (file : Option (List UInt8)) :
    Careful Forest.Led (loadFile name manner file) := by
  refine (gentle_settle steady_led _).then steady_led fun _ => ?_
  cases file with
  | none => exact (gentle_of_same steady_led fun s => .inr ⟨_, rfl⟩).careful
  | some bytes =>
      exact (careful_loadNode name manner _).then steady_led fun _ => sure_pure steady_led _

/-! ### Generators -/

/-- A call on a generator, if it leaves the generator where it was when it fails. -/
theorem careful_onGenerator {R : Forest Listener → Forest Listener → Prop} (steady : Steady R)
    (name : String) {c : EStateM Fault Generator β}
    (frugal : ∀ g fault g', c g = .error fault g' → g' = g) : Careful R (onGenerator name c) := by
  refine careful_generator steady fun s g known => ?_
  cases result : c g with
  | ok b left => exact steady.refl _
  | error fault left =>
      obtain rfl := frugal g fault left result
      exact ⟨⟨fun _ => .refl, rfl, rfl, Names.get?_set_self known⟩, steady.refl _⟩

/-! ### All that is offered -/

/-- Looking at a node. -/
theorem careful_facts (name : String) : Careful Forest.Led (facts name) :=
  careful_ask fun id => ⟨.ask (.facts id), fun _ _ _ => [], _, rfl⟩

/-- A call that is offered changes nothing if it is refused.  Runs of the forest go on after it,
or its nodes are as they were. -/
theorem Offered.careful {c : Call β} (offered : Offered c) :
    Careful Forest.Led c ∨ Careful (fun f g => g.nodes = f.nodes) c := by
  have idle : Reaction Listener := fun _ _ _ => []
  cases offered with
  | create name dims => exact .inl (careful_create ⟨.create dims, idle, .node, rfl⟩)
  | reshape name parent dims =>
      exact .inl ((gentle_node steady_led parent).then steady_led fun id =>
        careful_create ⟨.reshape id dims, idle, .node, rfl⟩)
  | view name parent =>
      exact .inl ((gentle_node steady_led parent).then steady_led fun id =>
        careful_create ⟨.view id, idle, .node, rfl⟩)
  | destroy name => exact .inl (careful_change backed_destroy)
  | subscribe name listener =>
      refine .inl ((careful_ask fun id => ⟨.subscribe id listener, idle, .token, rfl⟩).then
        steady_led fun token => ?_)
      exact (sure_modify steady_led fun _ => rfl).bind steady_led fun _ => sure_pure steady_led _
  | unsubscribe name token =>
      refine .inl ((gentle_get steady_led).then steady_led fun s => ?_)
      refine (gentle_resolve steady_led _ _).then steady_led fun number => ?_
      exact careful_ask fun id => ⟨.unsubscribe id number, idle, .removed, rfl⟩
  | facts name => exact .inl (careful_facts name)
  | summary name =>
      exact .inl ((careful_facts name).then steady_led fun _ => sure_pure steady_led _)
  | dense name => exact .inl (careful_ask fun id => ⟨.ask (.dense id), idle, .bits, rfl⟩)
  | sparse name => exact .inl (careful_ask fun id => ⟨.ask (.sparse id), idle, .cells, rfl⟩)
  | coordinates name =>
      exact .inl (careful_ask fun id => ⟨.ask (.coordinates id), idle, .coordinates, rfl⟩)
  | sum name => exact .inl (careful_ask fun id => ⟨.ask (.sum id), idle, .number, rfl⟩)
  | sparsity name =>
      exact .inl (careful_ask fun id => ⟨.ask (.sparsity id), idle, .fraction, rfl⟩)
  | isActive name coords =>
      exact .inl (careful_ask fun id => ⟨.ask (.isActive id coords), idle, .flag, rfl⟩)
  | overlap name other =>
      exact .inl (careful_askBoth fun id other => ⟨.ask (.overlap id other), idle, .number, rfl⟩)
  | equal name other =>
      exact .inl (careful_askBoth fun id other => ⟨.ask (.equal id other), idle, .flag, rfl⟩)
  | display name => exact .inl (careful_ask fun id => ⟨.ask (.display id), idle, .text, rfl⟩)
  | setDense name bytes =>
      exact .inl (careful_change fun react id =>
        ⟨.mutate id (.setDense bytes), react, fun _ => .done, rfl⟩)
  | setSparse name cells =>
      exact .inl (careful_change fun react id =>
        ⟨.mutate id (.setSparse cells), react, fun _ => .done, rfl⟩)
  | setCoordinates name coords =>
      exact .inl (careful_change fun react id =>
        ⟨.mutate id (.setCoordinates coords), react, fun _ => .done, rfl⟩)
  | zero name =>
      exact .inl (careful_change fun react id =>
        ⟨.mutate id .zero, react, fun _ => .done, rfl⟩)
  | copyFrom name other =>
      refine .inl ((gentle_node steady_led other).then steady_led fun source => ?_)
      exact careful_change fun react id =>
        ⟨.mutate id (.copyFrom source), react, fun _ => .done, rfl⟩
  | randomize name source sparsity =>
      exact .inl (careful_changeAtRandom (fun react id g =>
        ⟨.mutate id (.randomize sparsity g), react, fun drawn => .source drawn.2, rfl⟩)
        fun react id => Forest.frugal_randomize react id sparsity)
  | addNoise name source fraction =>
      exact .inl (careful_changeAtRandom (fun react id g =>
        ⟨.mutate id (.addNoise fraction g), react, fun drawn => .source drawn.2, rfl⟩)
        fun react id => Forest.frugal_addNoise react id fraction)
  | intersection name inputs =>
      exact .inl (careful_changeFrom fun react id inputs =>
        ⟨.mutate id (.intersection inputs), react, fun _ => .done, rfl⟩)
  | union name inputs =>
      exact .inl (careful_changeFrom fun react id inputs =>
        ⟨.mutate id (.union inputs), react, fun _ => .done, rfl⟩)
  | concatenate name inputs axis =>
      exact .inl (careful_changeFrom fun react id inputs =>
        ⟨.mutate id (.concatenate inputs axis), react, fun _ => .done, rfl⟩)
  | keep name g => exact .inl (sure_keep steady_led name g).careful
  | generator name => exact .inl (gentle_generator steady_led name).careful
  | draw name d => exact .inl (careful_onGenerator steady_led name (by rintro _ _ _ ⟨⟩))
  | sample name population count =>
      exact .inl (careful_onGenerator steady_led name fun _ _ _ => Generator.eq_of_sample_error)
  | saveNode name manner sink buffer => exact .inl (careful_saveNode name manner sink buffer)
  | saveGenerator name manner sink buffer =>
      exact .inr (careful_saveGenerator name manner sink buffer)
  | loadNode buffer name manner =>
      exact .inl (Careful.take steady_led buffer fun source => careful_loadNode name manner source)
  | loadGenerator buffer name manner =>
      exact .inr (Careful.take steady_level buffer fun source =>
        careful_loadGenerator name manner source)
  | loadFile name manner file => exact .inl (careful_loadFile name manner file)

end Session

end SparseTensor
