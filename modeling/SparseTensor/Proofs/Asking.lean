/-
# Calls by the outlook alone

`Says o c s R` relates a call to what is said of it by the outlook: in every forest in order with
the outlook `o` the call fails as `s` does, or answers something that `R` relates to what `s`
says, and all it does to the forest is reading.  The relation composes along sequences of calls
(`Says.bind`), so `says_question` and `says_value` go through questions and changes call by call.
-/
import SparseTensor.Proofs.Draws
import SparseTensor.Proofs.Extending
import SparseTensor.Proofs.Joining
import SparseTensor.Proofs.Outlooks

namespace SparseTensor.Forest

variable {α β γ : Type}

/-! ## Reading keeps the outlook -/

/-- A node that is lent out is so after reading. -/
theorem Reads.available? {f g : Forest α} (h : f.Reads g) (id : NodeId) :
    (g.available? id).map Node.bare = (f.available? id).map Node.bare := by
  have same := congrArg (·[id]?) h.bare.2
  simp only [Array.getElem?_map] at same
  unfold Forest.available?
  cases found : f.nodes[id]? with
  | none =>
      rw [found] at same
      rw [Option.map_eq_none_iff.1 same]
  | some n =>
      rw [found] at same
      obtain ⟨m, hm, bare⟩ := Option.map_eq_some_iff.1 same
      have lent : m.available = n.available := by simpa using congrArg Node.available bare
      rw [hm, Option.filter_some, Option.filter_some, lent]
      split
      · exact congrArg some bare
      · rfl

/-- Reading keeps the outlook. -/
theorem Reads.outlook {f g : Forest α} (h : f.Reads g) (sound : f.Sound) :
    g.outlook = f.outlook := by
  funext id
  have same := h.available? id
  unfold Forest.outlook sight
  rw [h.shown sound]
  cases found : f.available? id with
  | none =>
      rw [found] at same
      rw [Option.map_eq_none_iff.1 same]
  | some n =>
      rw [found] at same
      obtain ⟨m, hm, bare⟩ := Option.map_eq_some_iff.1 same
      have shape : m.shape = n.shape := by simpa using congrArg Node.shape bare
      have role : m.role = n.role := by simpa using congrArg Node.role bare
      have orphaned : m.orphaned = n.orphaned := by simpa using congrArg Node.orphaned bare
      simp only [hm, shape, role, orphaned]

/-! ## The relation -/

/-- In forests in order with the outlook `o` a call does what is said of it, by reading. -/
def Says (o : Outlook) (c : Call α β) (s : Except Fault γ) (R : β → γ → Prop) : Prop :=
  ∀ f : Forest α, f.Sound → f.outlook = o →
    match s with
    | .ok x => ∃ b g, c f = .ok b g ∧ f.Reads g ∧ R b x
    | .error fault => ∃ g, c f = .error fault g ∧ f.Reads g

variable {o : Outlook}

theorem Says.pure {R : β → γ → Prop} {b : β} {x : γ} (h : R b x) :
    Says o (Pure.pure b : Call α β) (.ok x) R :=
  fun f _ _ => ⟨b, f, rfl, .refl, h⟩

theorem Says.throw {R : β → γ → Prop} (fault : Fault) :
    Says o (MonadExcept.throw fault : Call α β) (.error fault) R :=
  fun f _ _ => ⟨f, rfl, .refl⟩

/-- What is said of calls one after another. -/
theorem Says.bind {δ ε : Type} {c : Call α β} {s : Except Fault γ} {R : β → γ → Prop}
    {k : β → Call α δ} {t : γ → Except Fault ε} {S : δ → ε → Prop} (first : Says o c s R)
    (next : ∀ b x, s = .ok x → R b x → Says o (k b) (t x) S) : Says o (c >>= k) (s >>= t) S := by
  intro f sound outlook
  have first := first f sound outlook
  cases s with
  | error fault =>
      obtain ⟨g, failed, reads⟩ := first
      exact ⟨g, bind_of_error failed, reads⟩
  | ok x =>
      obtain ⟨b, g, answered, reads, related⟩ := first
      have next := next b x rfl related g (reads.sound sound)
        ((reads.outlook sound).trans outlook)
      show match t x with | .ok y => _ | .error fault => _
      cases hx : t x with
      | ok y =>
          rw [hx] at next
          obtain ⟨d, h, answered', reads', related'⟩ := next
          exact ⟨d, h, (bind_of_ok answered).trans answered', reads.trans reads', related'⟩
      | error fault =>
          rw [hx] at next
          obtain ⟨h, failed, reads'⟩ := next
          exact ⟨h, (bind_of_ok answered).trans failed, reads.trans reads'⟩

/-- A call that always answers says nothing about what comes behind it. -/
theorem Says.then {δ ε : Type} {c : Call α β} {x : γ} {R : β → γ → Prop} {k : β → Call α δ}
    {t : Except Fault ε} {S : δ → ε → Prop} (first : Says o c (.ok x) R)
    (next : ∀ b, R b x → Says o (k b) t S) : Says o (c >>= k) t S :=
  Says.bind (t := fun _ => t) first fun b _ said related => next b (Except.ok.inj said ▸ related)

/-- What is said of a call whose answer is passed on. -/
theorem Says.map {δ ε : Type} {c : Call α β} {s : Except Fault γ} {R : β → γ → Prop}
    {k : β → δ} {t : γ → ε} {S : δ → ε → Prop} (first : Says o c s R)
    (next : ∀ b x, s = .ok x → R b x → S (k b) (t x)) :
    Says o (do return k (← c)) (do return t (← s)) S :=
  first.bind fun b x said related => .pure (next b x said related)

/-- A node that is lent out is as it is seen. -/
structure Seen (n : Node α) (x : Sight) : Prop where
  shape : n.shape = x.shape
  isView : n.role.isView = x.isView
  orphaned : n.orphaned = x.orphaned
  isSet : ∀ cells, x.cells = .ok cells → Sparse.IsSet x.shape.size cells

/-- A node is found as it is seen. -/
theorem says_lent (id : NodeId) : Says o (lent id : Call α (Node α)) (o id) Seen := by
  rintro f sound rfl
  unfold outlook
  cases found : f.available? id with
  | none => exact ⟨f, lent_of_none found, .refl⟩
  | some n =>
      refine ⟨n, f, lent_of_some found, .refl, rfl, rfl, rfl, fun cells shows => ?_⟩
      exact isSet_shown sound (Option.filter_eq_some_iff.1 found).1 shows

/-- A node is read as the rendering of its cells. -/
theorem says_read {r : Shape → Cache → Cache.Reading β} {render : Shape → Sparse → β}
    (renders : Cache.Renders r render) (id : NodeId) :
    Says o (read id r : Call α β)
      (do let x ← o id; return render x.shape (← x.cells)) Eq := by
  rintro f sound rfl
  unfold outlook
  cases found : f.available? id with
  | none =>
      refine ⟨f, ?_, .refl⟩
      unfold read
      rw [found]
  | some n =>
      have answer := read_eq sound found renders
      show match (f.shown id >>= fun cells => Pure.pure (render n.shape cells)) with
        | .ok x => _ | .error fault => _
      cases shows : f.shown id with
      | ok cells =>
          rw [shows] at answer
          obtain ⟨g, answered, reads⟩ := answer
          exact ⟨_, g, answered, reads, rfl⟩
      | error fault =>
          rw [shows] at answer
          exact ⟨f, answer, .refl⟩

/-- A node that is seen is read as the rendering of the cells that are seen. -/
theorem says_read_of_seen {id : NodeId} {x : Sight} (seen : o id = .ok x)
    {r : Shape → Cache → Cache.Reading β} {render : Shape → Sparse → β}
    (renders : Cache.Renders r render) :
    Says o (read id r : Call α β) (do return render x.shape (← x.cells)) Eq := by
  have reading := says_read (α := α) (o := o) renders id
  rw [seen] at reading
  exact reading

/-- The cells of a node that is seen are read as they are seen. -/
theorem says_sparse {id : NodeId} {x : Sight} (seen : o id = .ok x) :
    Says o (sparse id : Call α Sparse) x.cells Eq :=
  bind_pure x.cells ▸ says_read_of_seen seen Cache.renders_readSparse

/-! ## Questions -/

/-- Orphans are refused where they are seen. -/
theorem says_ensureLive {n : Node α} {x : Sight} (seen : Seen n x) :
    Says o (ensureLive n) x.ensureLive fun _ _ => True := by
  unfold ensureLive Sight.ensureLive
  rw [seen.orphaned]
  split
  · exact .throw _
  · exact .pure trivial

/-- Different sizes are refused where they are seen. -/
theorem says_ensureSameSize {n m : Node α} {x y : Sight} (n_seen : Seen n x) (m_seen : Seen m y) :
    Says o (ensureSameSize n m) (x.ensureSameSize y) fun _ _ => y.shape.size = x.shape.size := by
  unfold ensureSameSize Sight.ensureSameSize
  rw [n_seen.shape, m_seen.shape]
  split
  · exact .throw _
  · rename_i same
    exact .pure (by simpa using same)

/-- Noting something answers always. -/
theorem says_note (notes : List Note) :
    Says o (modify fun f => f.noteAll notes : Call α PUnit) (.ok ()) fun _ _ => True :=
  fun _ _ _ => ⟨⟨⟩, _, rfl, .note notes .refl, trivial⟩

/-- What has no effect answers as it is. -/
theorem says_settle (e : Except Fault β) : Says o (settle e : Call α β) e Eq := by
  cases e with
  | ok b => exact .pure rfl
  | error fault => exact .throw fault

/-- The cells of a node that is seen are read, if they can be. -/
theorem says_sparse? {id : NodeId} {x : Sight} (seen : o id = .ok x) :
    Says o (sparse? id : Call α (Option Sparse)) (.ok x.cells.toOption) Eq := by
  intro f sound outlook
  have reading := says_sparse (α := α) seen f sound outlook
  unfold sparse?
  cases shows : x.cells with
  | ok cells =>
      rw [shows] at reading
      obtain ⟨b, g, answered, reads, rfl⟩ := reading
      refine ⟨some b, g, ?_, reads, rfl⟩
      rw [answered]
  | error fault =>
      rw [shows] at reading
      obtain ⟨g, failed, reads⟩ := reading
      refine ⟨none, g, ?_, reads, rfl⟩
      rw [failed]

/-- A reading is answered by the outlook. -/
theorem says_reading {G : Type} {r : Shape → Cache → Cache.Reading β}
    {render : Shape → Sparse → β} (renders : Cache.Renders r render) (answer : β → Answer G)
    (id : NodeId) :
    Says o (do return answer (← read id r) : Call α (Answer G))
      (do let x ← o id; return answer (render x.shape (← x.cells))) Eq := by
  have reading := (says_read (α := α) (o := o) renders id).map (k := answer) (t := answer)
    (S := Eq) fun b x _ related => by rw [related]
  simpa only [bind_assoc, pure_bind] using reading

/-- Nodes that are seen are compared by what is seen of them. -/
theorem says_overlap (id other : NodeId) :
    Says o (overlap id other : Call α Nat)
      (do let n ← o id; let m ← o other; n.overlap m) Eq := by
  simp only [overlap, Sight.overlap]
  refine (says_lent id).bind fun n x seen shown => ?_
  refine (says_lent other).bind fun m y seen' shown' => ?_
  refine (says_ensureLive shown).bind fun _ _ _ _ => ?_
  refine (says_ensureLive shown').bind fun _ _ _ _ => ?_
  refine (says_ensureSameSize shown shown').bind fun _ _ _ _ => ?_
  refine (says_sparse seen).bind fun a _ _ related => ?_
  exact (says_sparse seen').map fun b _ _ related' => by rw [related, related']

/-- A question is answered by the outlook. -/
theorem says_question {G : Type} (question : Question) :
    Says o (question.call : Call α (Answer G)) (question.said o) Eq := by
  -- every question lends its nodes first, and reads them as the outlook shows them
  cases question with
  | facts id =>
      refine (says_lent id).bind fun n x seen shown => .pure ?_
      rw [shown.shape, shown.isView, shown.orphaned]
  | dense id => exact says_reading Cache.renders_readDense .bits id
  | sparse id => exact says_reading Cache.renders_readSparse .cells id
  | coordinates id => exact says_reading Cache.renders_readCoordinates .coordinates id
  | sum id => exact says_reading Cache.renders_readSum .number id
  | sparsity id =>
      simp only [Question.call, Question.said, sparsity, bind_assoc, pure_bind]
      refine (says_lent id).bind fun n x seen shown => ?_
      rw [shown.shape]
      have summed : Says o (sum id : Call α Nat) (do return (← x.cells).length) Eq :=
        says_read_of_seen seen Cache.renders_readSum
      have passed := summed.map (S := Eq)
        (k := fun b => (Answer.fraction (b.toFloat / x.shape.size.toFloat) : Answer G))
        (t := fun b => .fraction (b.toFloat / x.shape.size.toFloat))
        fun b y _ related => by rw [related]
      simpa only [bind_assoc, pure_bind] using passed
  | isActive id coords =>
      simp only [Question.call, Question.said, isActive, Sight.isActive, bind_assoc]
      refine (says_lent id).bind fun n x seen shown => ?_
      refine (says_ensureLive shown).bind fun _ _ _ _ => ?_
      rw [shown.shape]
      cases x.shape.checkCoordinates coords with
      | error fault => exact .throw _
      | ok _ =>
          simp only [bind_assoc, pure_bind]
          exact (says_sparse seen).map fun b y _ related => by rw [related]
  | overlap id other =>
      have counted := (says_overlap (α := α) (o := o) id other).map (S := Eq)
        (k := fun b => (Answer.number b : Answer G)) (t := .number)
        fun b x _ related => by rw [related]
      simpa only [Question.call, Question.said, bind_assoc, pure_bind] using counted
  | equal id other =>
      simp only [Question.call, Question.said, equal, Sight.equal, bind_assoc]
      refine (says_lent id).bind fun n x seen shown => ?_
      refine (says_lent other).bind fun m y seen' shown' => ?_
      rw [shown.shape, shown'.shape]
      split
      · exact .pure rfl
      · simp only [bind_assoc, pure_bind]
        refine (says_sparse? seen).then fun a related => ?_
        refine (says_sparse? seen').then fun b related' => .pure ?_
        rw [related, related']
  | display id =>
      simp only [Question.call, Question.said, display, Sight.display, bind_assoc, pure_bind]
      refine (says_lent id).bind fun n x seen shown => ?_
      refine (says_sparse? seen).then fun a related => .pure ?_
      cases cells : x.cells <;> simp [related, shown.shape, cells, Except.toOption]
  | archive id =>
      simp only [Question.call, Question.said, snapshot, Sight.snapshot, bind_assoc, pure_bind]
      refine (says_lent id).bind fun n x seen shown => ?_
      exact (says_sparse seen).map fun a _ _ related => by rw [related, shown.shape]
  | save id format settings sink =>
      simp only [Question.call, Question.said, save, saveArchive, snapshot, Sight.snapshot,
        bind_assoc, pure_bind]
      refine (says_lent id).bind fun n x seen shown => ?_
      refine (says_sparse seen).bind fun a _ _ related => ?_
      rw [related, shown.shape]
      refine (says_settle _).bind fun _ _ _ _ => ?_
      exact (says_note _).then fun _ _ => .pure rfl

/-! ## Changes -/

/-- A cache holds some cells for a node that is seen to be canonical. -/
def Stores (o : Outlook) (id : NodeId) (c : Cache) (cells : Sparse) : Prop :=
  c.isStale = false ∧ ∃ x, o id = .ok x ∧ x.isView = false ∧ c.Holds x.shape cells

/-- A node is seen to be canonical, and is so. -/
structure SeenCanonical (o : Outlook) (id : NodeId) (n : Node α) (x : Sight) : Prop where
  seen : o id = .ok x
  isView : x.isView = false
  shown : Seen n x

/-- A set of cells of the node is stored as it is. -/
theorem SeenCanonical.stores {id : NodeId} {n : Node α} {x : Sight}
    (h : SeenCanonical o id n x) {c : Cache} {cells : Sparse} (held : c.isStale = false)
    (holds : c.Holds x.shape cells) : Stores o id c cells :=
  ⟨held, x, h.seen, h.isView, holds⟩

/-- A node is found to be canonical where it is seen to be. -/
theorem says_mutable (id : NodeId) (mutator : Mutator) :
    Says o (mutable id mutator : Call α (Node α)) (o.mutable id mutator)
      (SeenCanonical o id) := by
  unfold mutable Outlook.mutable
  refine (says_lent id).bind fun n x seen shown => ?_
  rw [shown.isView]
  split
  · exact .throw _
  · rename_i canonical
    exact .pure ⟨seen, by simpa using canonical, shown⟩

/-- What a check admits does not depend on the forest. -/
theorem says_checked (e : Except ArgumentFault β) :
    Says o (checked e : Call α β) (Outlook.accept e) fun b x => b = x ∧ e = .ok x := by
  cases e with
  | ok b => exact .pure ⟨rfl, rfl⟩
  | error fault => exact .throw _

/-- The inputs of a set operation are read as they are seen, and are sets. -/
theorem says_inputCells {n : Node α} {x : Sight} (shown : Seen n x) (inputs : List NodeId) :
    Says o (inputCells n inputs) (o.inputCells x inputs) fun b y =>
      b = y ∧ ∀ cells ∈ y, Sparse.IsSet x.shape.size cells := by
  induction inputs with
  | nil => exact .pure ⟨rfl, by simp⟩
  | cons input inputs ih =>
      simp only [inputCells, Outlook.inputCells]
      refine (says_lent input).bind fun m y seen shown' => ?_
      refine (says_ensureSameSize shown shown').bind fun _ _ _ same => ?_
      refine (says_sparse seen).bind fun cells cells' said related => ?_
      refine ih.map fun rest rest' _ both => ?_
      rw [related, both.1]
      refine ⟨rfl, List.forall_mem_cons.2 ⟨?_, both.2⟩⟩
      rw [← same]
      exact shown'.isSet _ said

/-- Combining inputs stores what it is said to come to. -/
theorem says_combinedValue (id : NodeId) (mutator : Mutator) {op : Sparse → Sparse → Sparse}
    (isSet : ∀ {size : Nat} {a b : Sparse}, Sparse.IsSet size a → Sparse.IsSet size b →
      Sparse.IsSet size (op a b)) (inputs : List NodeId) :
    Says o (combinedValue id mutator op inputs : Call α Cache)
      (o.combined id mutator op inputs) (Stores o id) := by
  unfold combinedValue Outlook.combined
  refine (says_mutable id mutator).bind fun n x _ found => ?_
  refine (says_inputCells found.shown inputs).bind fun cells cells' _ related => ?_
  obtain ⟨rfl, sets⟩ := related
  cases cells with
  | nil => exact .throw _
  | cons first rest =>
      obtain ⟨firstSet, restSets⟩ := List.forall_mem_cons.1 sets
      exact .pure (found.stores rfl
        (Cache.holds_ofSparse (CellSet.isSet_foldl isSet firstSet restSets)))

/-- The shapes of the inputs are those that are seen. -/
theorem says_shapes (inputs : List NodeId) :
    Says o (inputs.mapM fun input => return (← lent input).shape : Call α (List Shape))
      (inputs.mapM fun input => return (← o input).shape) Eq := by
  induction inputs with
  | nil => exact .pure rfl
  | cons input inputs ih =>
      simp only [List.mapM_cons, bind_assoc, pure_bind]
      refine (says_lent input).bind fun n x _ shown => ?_
      rw [shown.shape]
      exact ih.map fun rest rest' _ related => by rw [related]

/-- The bits of the inputs are those of the cells that are seen. -/
theorem says_inputBits (axis : Nat) (inputs : List NodeId) :
    Says o (inputBits axis inputs : Call α (List (Dense × Nat))) (o.inputBits axis inputs)
      Eq := by
  induction inputs with
  | nil => exact .pure rfl
  | cons input inputs ih =>
      simp only [inputBits, Outlook.inputBits]
      refine (says_lent input).bind fun n x seen shown => ?_
      have bits : Says o (dense input : Call α Dense)
          (do return Dense.ofSparse x.shape.size (← x.cells)) Eq :=
        says_read_of_seen seen Cache.renders_readDense
      have all := bits.bind (S := Eq)
        (k := fun b => do
          return (b, product (n.shape.dims.drop axis)) :: (← inputBits axis inputs))
        (t := fun d => do
          return (d, product (x.shape.dims.drop axis)) :: (← o.inputBits axis inputs))
        fun b d _ related => ih.map fun rest rest' _ related' => by
          rw [related, related', shown.shape]
      simpa only [bind_assoc, pure_bind] using all

/-- What is seen of the inputs of a concatenation belongs together. -/
theorem exists_of_inputBits (axis : Nat) {inputs : List NodeId} {shapes : List Shape}
    {blocks : List (Dense × Nat)}
    (hshapes : (inputs.mapM fun input => return (← o input).shape) = .ok shapes)
    (hblocks : o.inputBits axis inputs = .ok blocks) :
    ∃ pairs : List (Shape × Dense), pairs.map Prod.fst = shapes ∧
      pairs.map (fun (s, bits) => (bits, product (s.dims.drop axis))) = blocks ∧
        ∀ pair ∈ pairs, pair.2.size = pair.1.size := by
  induction inputs generalizing shapes blocks with
  | nil =>
      cases hshapes
      cases hblocks
      exact ⟨[], rfl, rfl, by simp⟩
  | cons input inputs ih =>
      simp only [List.mapM_cons, Outlook.inputBits, bind_assoc, pure_bind] at hshapes hblocks
      obtain ⟨x, seen, hshapes⟩ := exists_of_bind_eq_ok hshapes
      obtain ⟨moreShapes, hmore, hshapes⟩ := exists_of_bind_eq_ok hshapes
      rw [seen] at hblocks
      obtain ⟨cells, -, hblocks⟩ := exists_of_bind_eq_ok (e := x.cells) hblocks
      obtain ⟨moreBlocks, hmore', hblocks⟩ := exists_of_bind_eq_ok hblocks
      cases hshapes
      cases hblocks
      obtain ⟨pairs, rfl, rfl, sizes⟩ := ih hmore hmore'
      refine ⟨(x.shape, Dense.ofSparse x.shape.size cells) :: pairs, rfl, rfl, ?_⟩
      exact List.forall_mem_cons.2 ⟨Dense.size_ofSparse x.shape.size cells, sizes⟩

/-- Joining inputs stores what it is said to come to. -/
theorem says_joinedValue (id : NodeId) (inputs : List NodeId) (axis : Nat) :
    Says o (joinedValue id inputs axis : Call α Cache) (o.joined id inputs axis)
      (Stores o id) := by
  unfold joinedValue Outlook.joined
  refine (says_mutable id .concatenate).bind fun n x _ found => ?_
  rw [found.shown.shape]
  by_cases inside : x.shape.rank ≤ axis
  · rw [if_pos inside, if_pos inside]
    exact .throw _
  rw [if_neg inside, if_neg inside]
  by_cases nothing : inputs.isEmpty = true
  · rw [if_pos nothing, if_pos nothing]
    exact .throw _
  rw [if_neg nothing, if_neg nothing]
  refine (says_shapes inputs).bind fun shapes shapes' hshapes related => ?_
  subst related
  refine (says_checked _).bind fun _ _ _ admitted => ?_
  refine (says_inputBits axis inputs).map fun blocks blocks' hblocks related => ?_
  subst related
  obtain ⟨pairs, rfl, rfl, sizes⟩ := exists_of_inputBits axis hshapes hblocks
  refine found.stores rfl (Cache.holds_ofDense ?_)
  exact size_joinRows_of_checkExtents (Nat.lt_of_not_le inside) admitted.2 sizes

/-- A change stores what it is said to come to, and is answered as is said. -/
theorem says_value {G : Type} [RandomSource G] [LawfulRandomSource G] (id : NodeId)
    (mutation : Mutation G) :
    Says o (mutation.value id : Call α (Cache × Answer G)) (mutation.said o id)
      fun b x => Stores o id b.1 x.1 ∧ b.2 = x.2 := by
  -- what is stored has passed its check, so the encoding holds a set of the shape
  cases mutation with
  | setDense bytes =>
      simp only [Mutation.value, Mutation.said, denseValue, bind_assoc, pure_bind]
      refine (says_mutable id .setDense).bind fun n x _ found => ?_
      rw [found.shown.shape]
      refine (says_checked _).bind fun d d' _ admitted => .pure ⟨found.stores rfl ?_, rfl⟩
      rw [admitted.1]
      exact Cache.holds_ofDense (Dense.size_of_ofBytes admitted.2)
  | setSparse cells =>
      simp only [Mutation.value, Mutation.said, sparseValue, bind_assoc, pure_bind]
      refine (says_mutable id .setSparse).bind fun n x _ found => ?_
      rw [found.shown.shape]
      refine (says_checked _).bind fun _ _ _ admitted => .pure ⟨found.stores rfl ?_, rfl⟩
      exact Cache.holds_ofSparse (Sparse.check_eq_ok_iff.1 admitted.2)
  | setCoordinates coords =>
      simp only [Mutation.value, Mutation.said, coordinatesValue, bind_assoc, pure_bind]
      refine (says_mutable id .setCoordinates).bind fun n x _ found => ?_
      rw [found.shown.shape]
      refine (says_checked _).bind fun _ _ _ admitted => .pure ⟨found.stores rfl ?_, rfl⟩
      exact Cache.holds_ofCoordinates admitted.2
  | zero =>
      simp only [Mutation.value, Mutation.said, sparseValue, bind_assoc, pure_bind]
      refine (says_mutable id .setSparse).bind fun n x _ found => .pure ⟨?_, rfl⟩
      exact found.stores rfl (Cache.holds_ofSparse (Sparse.isSet_nil _))
  | copyFrom other =>
      simp only [Mutation.value, Mutation.said, copiedValue, bind_assoc, pure_bind]
      refine (says_mutable id .setSdr).bind fun n x _ found => ?_
      refine (says_lent other).bind fun m y seen shown => ?_
      refine (says_ensureSameSize found.shown shown).bind fun _ _ _ same => ?_
      refine (says_sparse seen).map fun cells cells' said related => ⟨?_, rfl⟩
      rw [related]
      exact found.stores rfl (Cache.holds_ofSparse (same ▸ shown.isSet _ said))
  | randomize sparsity g =>
      simp only [Mutation.value, Mutation.said, withSource_randomValue, bind_assoc, pure_bind]
      refine (says_mutable id .randomize).bind fun n x _ found => ?_
      refine (says_checked _).bind fun _ _ _ _ => .pure ?_
      rw [found.shown.shape]
      have chosen := isSet_choose (Nat.le_of_lt x.shape.bounded)
        (Fraction.count sparsity x.shape.size) g
      exact ⟨found.stores rfl (Cache.holds_ofSparse chosen), rfl⟩
  | addNoise fraction g =>
      simp only [Mutation.value, Mutation.said, withSource_noisyValue, bind_assoc, pure_bind]
      refine (says_mutable id .addNoise).bind fun n x _ found => ?_
      refine (says_checked _).bind fun _ _ _ _ => ?_
      refine (says_sparse found.seen).bind fun cells cells' said related => .pure ?_
      subst related
      rw [found.shown.shape]
      have moved := isSet_displaced (Nat.le_of_lt x.shape.bounded) (found.shown.isSet _ said)
        (min (Fraction.count fraction cells.length) (x.shape.size - cells.length)) g
      exact ⟨found.stores rfl (Cache.holds_ofSparse moved), rfl⟩
  | intersection inputs =>
      exact (says_combinedValue id .intersection CellSet.isSet_intersect inputs).map
        fun c cells _ stores => ⟨stores, rfl⟩
  | union inputs =>
      exact (says_combinedValue id .setUnion CellSet.isSet_unite inputs).map
        fun c cells _ stores => ⟨stores, rfl⟩
  | concatenate inputs axis =>
      exact (says_joinedValue id inputs axis).map fun c cells _ stores => ⟨stores, rfl⟩

end SparseTensor.Forest
