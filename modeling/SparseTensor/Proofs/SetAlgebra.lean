/-
# Set algebra

Intersections and unions are folded over the inputs, two ascending lists at a time.  What counts is
which cells come out: those that are in all inputs (`CellSet.mem_foldl_intersect`), or in at least
one (`CellSet.mem_foldl_unite`).  As an ascending list is determined by its cells, it does not
matter in which order the inputs are named, nor how often (`Forest.Yields`).

The overlap of two nodes is the size of their intersection, so it goes both ways, and together with
the size of the union it is what the nodes have in sum.
-/
import SparseTensor.Proofs.Answers

namespace SparseTensor

/-! ## Folding set operations -/

namespace CellSet

variable {size : Nat} {a b first : Sparse} {rest : List Sparse}

/-- The cells that are left after several sets were intersected are in all of them. -/
theorem mem_foldl_intersect (firstSet : Sparse.IsSet size first)
    (restSets : ∀ cells ∈ rest, Sparse.IsSet size cells) {c : Cell} :
    c ∈ rest.foldl intersect first ↔ ∀ cells ∈ first :: rest, c ∈ cells := by
  induction rest generalizing first with
  | nil => simp
  | cons next rest ih =>
      obtain ⟨nextSet, others⟩ := List.forall_mem_cons.1 restSets
      rw [List.foldl_cons, ih (isSet_intersect firstSet nextSet) others, List.forall_mem_cons,
        mem_intersect firstSet.ascending nextSet.ascending, List.forall_mem_cons,
        List.forall_mem_cons, and_assoc]

/-- The cells that are there after several sets were united are in at least one of them. -/
theorem mem_foldl_unite {c : Cell} :
    c ∈ rest.foldl unite first ↔ ∃ cells ∈ first :: rest, c ∈ cells := by
  induction rest generalizing first with
  | nil => simp
  | cons next rest ih =>
      rw [List.foldl_cons, ih, List.exists_mem_cons_iff, mem_unite, List.exists_mem_cons_iff,
        List.exists_mem_cons_iff, or_assoc]

/-- The size of the intersection of two sets. -/
theorem length_intersect (ha : Sparse.IsSet size a) (hb : Sparse.IsSet size b) :
    (intersect a b).length = (a.toFinset ∩ b.toFinset).card := by
  have same : (intersect a b).toFinset = a.toFinset ∩ b.toFinset := by
    ext c
    rw [Finset.mem_inter, List.mem_toFinset, List.mem_toFinset, List.mem_toFinset,
      mem_intersect ha.ascending hb.ascending]
  rw [← same, List.toFinset_card_of_nodup (isSet_intersect ha hb).nodup]

end CellSet

/-! ## Inputs -/

namespace Outlook

variable {o : Outlook} {id : NodeId} {x : Sight} {cells : NodeId → Sparse}

/-- The cells of inputs are those that are seen, if all inputs have the right size. -/
theorem inputCells_eq {inputs : List NodeId} (seen : ∀ input ∈ inputs, ∃ y, o input = .ok y ∧
      y.shape.size = x.shape.size ∧ y.cells = .ok (cells input)) :
    o.inputCells x inputs = .ok (inputs.map cells) := by
  induction inputs with
  | nil => rfl
  | cons input inputs ih =>
      obtain ⟨⟨y, there, size, shows⟩, others⟩ := List.forall_mem_cons.1 seen
      have same : x.ensureSameSize y = .ok ⟨⟩ := if_neg (not_not.2 size)
      unfold inputCells
      rw [there]
      show (x.ensureSameSize y >>= fun _ => y.cells >>= _) = _
      rw [same, shows]
      show (o.inputCells x inputs >>= _) = _
      rw [ih others]
      rfl

/-- What combining inputs comes to, one after another. -/
theorem combined_eq {mutator : Mutator} {op : Sparse → Sparse → Sparse} (found : o id = .ok x)
    (canonical : x.isView = false) {first : NodeId} {rest : List NodeId}
    (seen : ∀ input ∈ first :: rest, ∃ y, o input = .ok y ∧ y.shape.size = x.shape.size ∧
      y.cells = .ok (cells input)) :
    o.combined id mutator op (first :: rest) = .ok ((rest.map cells).foldl op (cells first)) := by
  have own : ¬ x.isView = true := by simp [canonical]
  unfold combined mutable
  rw [found]
  show ((if x.isView = true then _ else _) >>= _) = _
  rw [if_neg own]
  show (o.inputCells x (first :: rest) >>= _) = _
  rw [inputCells_eq seen]
  rfl

end Outlook

namespace Forest

variable {α : Type} {f : Forest α}

/-- A node can be read and has as many cells. -/
def Live (f : Forest α) (id : NodeId) (size : Nat) : Prop :=
  ∃ shape, f.Readable id shape ∧ shape.size = size

/-- A cell is active in a node. -/
def Active (f : Forest α) (id : NodeId) (c : Cell) : Prop :=
  ∃ cells, f.Answers (sparse id) cells ∧ c ∈ cells

/-- An operation on several inputs succeeds and leaves the cells that are wanted in a node, the same
ascending list for all ways to name the same inputs. -/
def Yields (f : Forest α) (operation : List NodeId → Call α Unit) (id : NodeId)
    (inputs : List NodeId) (size : Nat) (wanted : Cell → Prop) : Prop :=
  ∃ cells, Sparse.IsSet size cells ∧ (∀ c, c ∈ cells ↔ wanted c) ∧
    ∀ others, (∀ input, input ∈ others ↔ input ∈ inputs) →
      ∃ g, operation others f = .ok ⟨⟩ g ∧ g.Answers (sparse id) cells

/-- The lists are the same as they have the same cells. -/
theorem yields_of_forall {operation : List NodeId → Call α Unit} {id : NodeId}
    {inputs : List NodeId} {size : Nat} {wanted : Cell → Prop}
    (each : ∀ others, (∀ input, input ∈ others ↔ input ∈ inputs) →
      ∃ g cells, operation others f = .ok ⟨⟩ g ∧ g.Answers (sparse id) cells ∧
        Sparse.IsSet size cells ∧ ∀ c, c ∈ cells ↔ wanted c) :
    f.Yields operation id inputs size wanted := by
  -- the inputs as they were named first stand for all ways to name them
  obtain ⟨-, cells, -, -, isSet, mem⟩ := each inputs fun _ => Iff.rfl
  refine ⟨cells, isSet, mem, fun others same => ?_⟩
  obtain ⟨g, cells', changed, answers, isSet', mem'⟩ := each others same
  have equal : cells' = cells := isSet'.ext isSet fun c => (mem' c).trans (mem c).symm
  exact ⟨g, changed, equal ▸ answers⟩

/-- A node that can be read is seen with its cells, which form a set. -/
theorem Live.seen {id : NodeId} {size : Nat} (sound : f.Sound) (live : f.Live id size)
    {cells : Sparse} (answers : f.Answers (sparse id) cells) :
    Sparse.IsSet size cells ∧ ∃ x, f.outlook id = .ok x ∧ x.shape.size = size ∧
      x.orphaned = false ∧ x.cells = .ok cells := by
  obtain ⟨_, ⟨⟨n, found, rfl⟩, -⟩, rfl⟩ := live
  have shows := (answers_sparse_iff sound found).1 answers
  obtain ⟨hn, -⟩ := Option.filter_eq_some_iff.1 found
  refine ⟨isSet_shown sound hn shows, f.sight id n, outlook_of_some found, rfl, ?_, shows⟩
  cases orphaned : n.orphaned with
  | false => exact orphaned
  | true => cases shows.symm.trans (shown_of_orphaned hn orphaned)

theorem active_iff {id : NodeId} {cells : Sparse} (answers : f.Answers (sparse id) cells)
    {c : Cell} : f.Active id c ↔ c ∈ cells := by
  constructor
  · rintro ⟨same, answers', active⟩
    exact answers.unique answers' ▸ active
  · intro active
    exact ⟨cells, answers, active⟩

end Forest

variable {α G : Type} [RandomSource G] [LawfulRandomSource G]
  {allowed : Situation α → Move α G → Prop} {f : Forest α} {id : NodeId} {n : Node α}

section Inputs

variable {inputs : List NodeId}

/-- Combining live inputs leaves in a canonical node what comes of their cells, which are sets, one
after another. -/
theorem Reached.combine (reached : Reached allowed (.quiet f)) (found : f.available? id = some n)
    (role : n.role = .canonical) (react : Reaction α) (mutator : Mutator)
    {op : Sparse → Sparse → Sparse}
    (isSet : ∀ {size : Nat} {a b : Sparse}, Sparse.IsSet size a → Sparse.IsSet size b →
      Sparse.IsSet size (op a b))
    (nonempty : inputs ≠ []) (live : ∀ input ∈ inputs, f.Live input n.shape.size) :
    ∃ (cells : NodeId → Sparse) (first : NodeId) (rest : List NodeId), inputs = first :: rest ∧
      (∀ input ∈ inputs, f.Answers (Forest.sparse input) (cells input)) ∧
      (∀ input ∈ inputs, Sparse.IsSet n.shape.size (cells input)) ∧
      ∃ g, Forest.replace react id (Forest.combinedValue id mutator op inputs) f = .ok ⟨⟩ g ∧
        g.Answers (Forest.sparse id) ((rest.map cells).foldl op (cells first)) := by
  have sound : f.Sound := reached.ordered.forest.sound
  have each : ∀ input ∈ inputs, ∃ cells, f.Answers (Forest.sparse input) cells := by
    intro input hi
    obtain ⟨shape, ⟨-, readable⟩, -⟩ := live input hi
    exact readable
  -- one list for each input, however often it is named
  choose! cells answers using each
  obtain ⟨first, rest, rfl⟩ := List.exists_cons_of_ne_nil nonempty
  have sets : ∀ input ∈ first :: rest, Sparse.IsSet n.shape.size (cells input) := fun input hi =>
    ((live input hi).seen sound (answers input hi)).1
  refine ⟨cells, first, rest, rfl, answers, sets, ?_⟩
  have replaced :=
    reached.replace (Forest.says_combinedValue id mutator isSet (first :: rest)) react
  have own : (f.sight id n).isView = false := by simp [Forest.sight, role, Role.isView]
  rw [Outlook.combined_eq (Forest.outlook_of_some found) own fun input hi => ?_] at replaced
  · obtain ⟨m, g, k, -, -, changed, ordered, there, -, shows⟩ := replaced
    exact ⟨g, changed, (Forest.answers_sparse_iff ordered.sound there).2 shows⟩
  · obtain ⟨-, x, seen, size, -, shows⟩ := (live input hi).seen sound (answers input hi)
    exact ⟨x, seen, size, shows⟩

/-- The intersection of live inputs. -/
theorem Reached.intersection (reached : Reached allowed (.quiet f))
    (found : f.available? id = some n) (role : n.role = .canonical) (react : Reaction α)
    (nonempty : inputs ≠ []) (live : ∀ input ∈ inputs, f.Live input n.shape.size) :
    ∃ g cells, Forest.intersection react id inputs f = .ok ⟨⟩ g ∧
      g.Answers (Forest.sparse id) cells ∧ Sparse.IsSet n.shape.size cells ∧
        ∀ c, c ∈ cells ↔ ∀ input ∈ inputs, f.Active input c := by
  obtain ⟨cells, first, rest, rfl, answers, sets, g, changed, after⟩ :=
    reached.combine found role react .intersection CellSet.isSet_intersect nonempty live
  obtain ⟨firstSet, others⟩ := List.forall_mem_cons.1 sets
  have restSets := List.forall_mem_map.2 others
  refine ⟨g, _, changed, after, CellSet.isSet_foldl CellSet.isSet_intersect firstSet restSets, ?_⟩
  intro c
  rw [CellSet.mem_foldl_intersect firstSet restSets, ← List.map_cons, List.forall_mem_map]
  exact forall₂_congr fun input hi => (Forest.active_iff (answers input hi)).symm

/-- The union of live inputs. -/
theorem Reached.union (reached : Reached allowed (.quiet f)) (found : f.available? id = some n)
    (role : n.role = .canonical) (react : Reaction α) (nonempty : inputs ≠ [])
    (live : ∀ input ∈ inputs, f.Live input n.shape.size) :
    ∃ g cells, Forest.union react id inputs f = .ok ⟨⟩ g ∧
      g.Answers (Forest.sparse id) cells ∧ Sparse.IsSet n.shape.size cells ∧
        ∀ c, c ∈ cells ↔ ∃ input ∈ inputs, f.Active input c := by
  obtain ⟨cells, first, rest, rfl, answers, sets, g, changed, after⟩ :=
    reached.combine found role react .setUnion CellSet.isSet_unite nonempty live
  obtain ⟨firstSet, others⟩ := List.forall_mem_cons.1 sets
  have restSets := List.forall_mem_map.2 others
  refine ⟨g, _, changed, after, CellSet.isSet_foldl CellSet.isSet_unite firstSet restSets, ?_⟩
  intro c
  rw [CellSet.mem_foldl_unite, ← List.map_cons]
  constructor
  · rintro ⟨_, hcells, active⟩
    obtain ⟨input, hi, rfl⟩ := List.mem_map.1 hcells
    exact ⟨input, hi, _, answers input hi, active⟩
  · rintro ⟨input, hi, active⟩
    exact ⟨_, List.mem_map_of_mem hi, (Forest.active_iff (answers input hi)).1 active⟩

/-- Another way to name inputs names some, too, and no others. -/
theorem Forest.live_others {others : List NodeId} {size : Nat} (nonempty : inputs ≠ [])
    (live : ∀ input ∈ inputs, f.Live input size) (same : ∀ input, input ∈ others ↔ input ∈ inputs) :
    others ≠ [] ∧ ∀ input ∈ others, f.Live input size := by
  refine ⟨?_, fun input hi => live input ((same input).1 hi)⟩
  obtain ⟨input, hi⟩ := List.exists_mem_of_ne_nil inputs nonempty
  exact List.ne_nil_of_mem ((same input).2 hi)

/-- The intersection of live inputs, however they are named. -/
theorem Reached.yields_intersection (reached : Reached allowed (.quiet f))
    (found : f.available? id = some n) (role : n.role = .canonical) (react : Reaction α)
    (nonempty : inputs ≠ []) (live : ∀ input ∈ inputs, f.Live input n.shape.size) :
    f.Yields (Forest.intersection react id) id inputs n.shape.size
      (fun c => ∀ input ∈ inputs, f.Active input c) := by
  refine Forest.yields_of_forall fun others same => ?_
  obtain ⟨some, alive⟩ := Forest.live_others nonempty live same
  obtain ⟨g, cells, changed, answers, isSet, mem⟩ :=
    reached.intersection found role react some alive
  refine ⟨g, cells, changed, answers, isSet, fun c => (mem c).trans ?_⟩
  exact forall_congr' fun input => imp_congr_left (same input)

/-- The union of live inputs, however they are named. -/
theorem Reached.yields_union (reached : Reached allowed (.quiet f))
    (found : f.available? id = some n) (role : n.role = .canonical) (react : Reaction α)
    (nonempty : inputs ≠ []) (live : ∀ input ∈ inputs, f.Live input n.shape.size) :
    f.Yields (Forest.union react id) id inputs n.shape.size
      (fun c => ∃ input ∈ inputs, f.Active input c) := by
  refine Forest.yields_of_forall fun others same => ?_
  obtain ⟨some, alive⟩ := Forest.live_others nonempty live same
  obtain ⟨g, cells, changed, answers, isSet, mem⟩ := reached.union found role react some alive
  refine ⟨g, cells, changed, answers, isSet, fun c => (mem c).trans ?_⟩
  exact exists_congr fun input => and_congr_left' (same input)

end Inputs

/-! ## Overlaps -/

/-- The overlap of live nodes is the size of the intersection of their cells. -/
theorem Forest.answers_overlap (sound : f.Sound) {a b : NodeId} {size : Nat}
    (liveA : f.Live a size) (liveB : f.Live b size) {A B : Sparse}
    (answersA : f.Answers (Forest.sparse a) A) (answersB : f.Answers (Forest.sparse b) B) :
    f.Answers (Forest.overlap a b) (A.toFinset ∩ B.toFinset).card := by
  obtain ⟨isSetA, x, seenA, sizeA, awake, showsA⟩ := liveA.seen sound answersA
  obtain ⟨isSetB, y, seenB, sizeB, awake', showsB⟩ := liveB.seen sound answersB
  have said := Forest.says_overlap a b f sound rfl
  have compared : (do let n ← f.outlook a; let m ← f.outlook b; n.overlap m) =
      .ok (CellSet.intersect A B).length := by
    rw [seenA, seenB]
    show x.overlap y = _
    unfold Sight.overlap Sight.ensureLive Sight.ensureSameSize
    rw [awake, awake', if_neg (not_not.2 (sizeB.trans sizeA.symm)), showsA, showsB]
    rfl
  rw [compared, CellSet.length_intersect isSetA isSetB] at said
  obtain ⟨_, g, answered, -, rfl⟩ := said
  exact ⟨g, answered⟩

/-- What two nodes overlap in, either way, and how it goes with their sums. -/
structure Forest.Overlaps (f : Forest α) (a b : NodeId) (A B : Sparse) : Prop where
  left : f.Answers (Forest.sparse a) A
  right : f.Answers (Forest.sparse b) B
  forth : f.Answers (Forest.overlap a b) (A.toFinset ∩ B.toFinset).card
  back : f.Answers (Forest.overlap b a) (A.toFinset ∩ B.toFinset).card
  sums : ∃ k l, f.Answers (Forest.sum a) k ∧ f.Answers (Forest.sum b) l ∧
    (A.toFinset ∩ B.toFinset).card + (A.toFinset ∪ B.toFinset).card = k + l

/-- Live nodes of one size overlap in the intersection of their cells. -/
theorem Forest.overlaps_of_live (sound : f.Sound) {a b : NodeId} {size : Nat}
    (liveA : f.Live a size) (liveB : f.Live b size) : ∃ A B, f.Overlaps a b A B := by
  obtain ⟨-, ⟨⟨n, foundA, rfl⟩, A, answersA⟩, rfl⟩ := id liveA
  obtain ⟨-, ⟨⟨m, foundB, rfl⟩, B, answersB⟩, same⟩ := id liveB
  have showsA := (Forest.answers_sparse_iff sound foundA).1 answersA
  have showsB := (Forest.answers_sparse_iff sound foundB).1 answersB
  have swapped := Forest.answers_overlap sound liveB liveA answersB answersA
  rw [Finset.inter_comm] at swapped
  refine ⟨A, B, answersA, answersB, Forest.answers_overlap sound liveA liveB answersA answersB,
    swapped, A.length, B.length, Forest.answers_sum sound foundA showsA,
    Forest.answers_sum sound foundB showsB, ?_⟩
  rw [Finset.card_inter_add_card_union,
    List.toFinset_card_of_nodup (liveA.seen sound answersA).1.nodup,
    List.toFinset_card_of_nodup (liveB.seen sound answersB).1.nodup]

/-! ## Operations on nodes -/

/-- Intersections and unions of live inputs leave in a canonical node what those of sets are,
whatever listeners do when they hear of it; views cannot be changed.  What two live nodes of one
size overlap in is their intersection.  Canonical nodes are live, and so are views that are no
orphans, as long as no view has lost its registration. -/
theorem set_operations_agree (reached : Reached allowed (.quiet f)) :
    (∀ id n, f.available? id = some n → n.role = .canonical →
      ∀ inputs : List NodeId, inputs ≠ [] → (∀ input ∈ inputs, f.Live input n.shape.size) →
        ∀ react : Reaction α,
          f.Yields (Forest.intersection react id) id inputs n.shape.size
              (fun c => ∀ input ∈ inputs, f.Active input c) ∧
            f.Yields (Forest.union react id) id inputs n.shape.size
              (fun c => ∃ input ∈ inputs, f.Active input c)) ∧
    (∀ a b size, f.Live a size → f.Live b size → ∃ A B, f.Overlaps a b A B) ∧
    ∀ input m, f.available? input = some m →
      m.role = .canonical ∨ f.InPlace ∧ m.orphaned = false → f.Live input m.shape.size := by
  refine ⟨fun id n found role inputs nonempty live react => ⟨?_, ?_⟩, ?_, ?_⟩
  · exact reached.yields_intersection found role react nonempty live
  · exact reached.yields_union found role react nonempty live
  · intro a b size liveA liveB
    exact Forest.overlaps_of_live reached.ordered.forest.sound liveA liveB
  · intro input m found live
    exact ⟨m.shape, reached.readable found live, rfl⟩

/-- A square is united with a row, both by way of a view of the square, which is named twice. -/
theorem set_operations_agree_on_view_of_receiver :
    let square : Shape := ⟨[2, 2], by decide, by simp, by decide⟩
    let row : Shape := ⟨[4], by decide, by simp, by decide⟩
    let silent : Reaction Unit := fun _ _ _ => []
    ∃ f : Forest Unit, Reached (fun s (move : Move Unit Generator) => move.Tactful s) (.quiet f) ∧
      (∃ n, f.available? 0 = some n ∧ n.shape = square ∧ n.role = .canonical) ∧
      f.available? 1 = some (.view row ⟨0, 0⟩) ∧
      (∃ g, Forest.union silent 0 [1, 2, 1] f = .ok ⟨⟩ g ∧ g.Answers (Forest.sparse 0) [0, 1, 3]) ∧
      (∃ g, Forest.intersection silent 0 [2, 1] f = .ok ⟨⟩ g ∧ g.Answers (Forest.sparse 0) [3]) ∧
      f.Answers (Forest.overlap 2 1) 1 := by
  intro square row silent
  let first : Node Unit := (Snapshot.node ⟨square, [0, 3]⟩).subscribe (.view 1)
  let second : Node Unit := Snapshot.node ⟨row, [1, 3]⟩
  let f : Forest Unit := ⟨#[first, .view row ⟨0, 0⟩, second], [], []⟩
  have created : Reached (α := Unit) (G := Generator) (fun s move => move.Tactful s) _ :=
    Reached.start.next (by rintro _ _ ⟨⟩) (.call (.create [2, 2]) rfl)
  have changed := (created.next (by rintro _ _ ⟨⟩) (.call (.mutate 0 (.setSparse [0, 3])) rfl)).next
    (by trivial) .finish
  have viewed := changed.next (by rintro _ _ ⟨⟩) (.call (.reshape 0 [4]) rfl)
  have again := viewed.next (by rintro _ _ ⟨⟩) (.call (.create [4]) rfl)
  have changed := (again.next (by rintro _ _ ⟨⟩) (.call (.mutate 2 (.setSparse [1, 3])) rfl)).next
    (by trivial) .finish
  have reached : Reached (G := Generator) (fun s move => move.Tactful s) (.quiet f) :=
    changed.next (by trivial) .forget
  have sound : f.Sound := reached.ordered.forest.sound
  -- node 1 shows the cells of node 0, which is to take the results
  have view : f.shown 1 = .ok [0, 3] := by
    rw [@Forest.shown_of_stale _ f 1 (.view row ⟨0, 0⟩) ⟨0, 0⟩ rfl rfl rfl rfl (by decide) rfl]
    exact @Forest.shown_of_isFresh _ f 0 first rfl rfl rfl
  have own : f.shown 2 = .ok [1, 3] := @Forest.shown_of_isFresh _ f 2 second rfl rfl rfl
  have ofView : f.Answers (Forest.sparse 1) [0, 3] := (Forest.answers_sparse_iff sound rfl).2 view
  have ofRow : f.Answers (Forest.sparse 2) [1, 3] := (Forest.answers_sparse_iff sound rfl).2 own
  obtain ⟨operations, overlaps, lives⟩ := set_operations_agree reached
  have live : f.Live 1 4 := lives 1 _ rfl (.inr ⟨reached.inPlace, rfl⟩)
  have live' : f.Live 2 4 := lives 2 _ rfl (.inl rfl)
  have isSet (cells : Sparse) (h : Sparse.check 4 cells = .ok ()) : Sparse.IsSet 4 cells :=
    Sparse.check_eq_ok_iff.1 h
  obtain ⟨⟨common, isSetCommon, memCommon, intersects⟩, joint, isSetJoint, memJoint, unites⟩ :=
    operations 0 first rfl rfl [1, 2] (by simp) (by simpa using ⟨live, live'⟩) silent
  -- cell 3 is the only one that both inputs have
  have three : common = [3] := by
    refine isSetCommon.ext (isSet _ rfl) fun c => (memCommon c).trans ?_
    show (∀ input ∈ [1, 2], f.Active input c) ↔ _
    rw [List.forall_mem_cons, List.forall_mem_singleton, Forest.active_iff ofView,
      Forest.active_iff ofRow]
    constructor
    · rintro ⟨inView, inRow⟩
      rcases List.mem_pair.1 inView with rfl | rfl
      · exact absurd inRow (by decide)
      · exact List.mem_singleton_self 3
    · intro h
      cases List.mem_singleton.1 h
      decide
  have all : joint = [0, 1, 3] := by
    refine isSetJoint.ext (isSet _ rfl) fun c => (memJoint c).trans ?_
    show (∃ input ∈ [1, 2], f.Active input c) ↔ _
    rw [List.exists_mem_cons_iff, List.exists_mem_cons_iff, Forest.active_iff ofView,
      Forest.active_iff ofRow]
    simp only [List.mem_cons, List.not_mem_nil, or_false]
    tauto
  -- the inputs may come in any order and more than once
  refine ⟨f, reached, ⟨first, rfl, rfl, rfl⟩, rfl, ?_, ?_, ?_⟩
  · obtain ⟨g, changed, answers⟩ := unites [1, 2, 1] (by simp; tauto)
    exact ⟨g, changed, all ▸ answers⟩
  · obtain ⟨g, changed, answers⟩ := intersects [2, 1] (by simp; tauto)
    exact ⟨g, changed, three ▸ answers⟩
  · obtain ⟨A, B, both⟩ := overlaps 2 1 4 live' live
    obtain rfl := both.left.unique ofRow
    obtain rfl := both.right.unique ofView
    exact both.forth

end SparseTensor
