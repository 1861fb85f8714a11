/-
# Archives of nodes

An archive describes a node if it is of the kind of nodes, its dimensions can be those of a node,
and its cells are strictly ascending and in bounds.  `Archive.Describes` says so in the words of the
archive, which are of 64 bits, and of natural numbers: nothing in it is narrowed or multiplied in
machine words.

A node is created from an archive exactly if the archive describes one
(`archives_of_nodes_are_adopted`).  Every other archive is damaged, whichever of the checks it
fails.
-/
import SparseTensor.Proofs.Answers
import SparseTensor.Proofs.Damage

namespace SparseTensor

/-! ## What describes a node -/

/-- An archive describes a node with some dimensions and cells. -/
structure Archive.Describes (a : Archive) (dims cells : List UInt64) : Prop where
  kind : a.kind = "SDR"
  dimensions : a.get? "dimensions" = some (.list dims)
  sparse : a.get? "sparse" = some (.list cells)
  nonempty : dims ≠ []
  positive : ∀ d ∈ dims, 0 < d.toNat
  narrow : ∀ d ∈ dims, d.toNat < UInt32.size
  bounded : (dims.map UInt64.toNat).prod < UInt32.size
  ascending : cells.Pairwise (· < ·)
  below : ∀ c ∈ cells, c.toNat < (dims.map UInt64.toNat).prod

namespace Archive

variable {a : Archive} {name : String}

/-- An archive is of its kind only. -/
theorem expectKind_eq_ok_iff {kind : String} {u : Unit} :
    a.expectKind kind = .ok u ↔ a.kind = kind := by
  by_cases same : a.kind = kind <;> simp [expectKind, same]

/-- A number is found where one stands. -/
theorem scalar_eq_ok_iff {value : UInt64} :
    a.scalar name = .ok value ↔ a.get? name = some (.scalar value) := by
  unfold scalar
  split <;> simp_all

/-- A list is found where one stands. -/
theorem list_eq_ok_iff {values : List UInt64} :
    a.list name = .ok values ↔ a.get? name = some (.list values) := by
  unfold list
  split <;> simp_all

end Archive

/-! ## Shapes -/

/-- Dimensions make a shape exactly if they are those of one. -/
theorem Shape.ofDims_eq_ok_iff {dims : List UInt32} {s : Shape} :
    ofDims dims = .ok s ↔ dims = s.dims := by
  constructor
  · intro h
    unfold ofDims at h
    split at h
    · cases h
    split at h
    · cases h
    split at h
    · cases h
    split at h
    · cases h
      rfl
    · cases h
  · rintro rfl
    exact s.ofDims_dims

/-! ## Words of archives -/

/-- The product of dimensions is that of the words by which they stand in archives. -/
theorem prod_toUInt64 (dims : List UInt32) :
    ((dims.map UInt32.toUInt64).map UInt64.toNat).prod = product dims := by
  rw [List.map_map, List.prod_eq_foldr, List.foldr_map]
  rfl

/-- A small word is the same after it has been narrowed. -/
theorem toUInt64_toUInt32_of_lt {v : UInt64} (small : v.toNat < UInt32.size) :
    v.toUInt32.toUInt64 = v := by
  rw [← UInt64.toNat_inj, UInt32.toNat_toUInt64, UInt64.toNat_toUInt32]
  exact Nat.mod_eq_of_lt small

/-- Small words are widened ones. -/
theorem exists_map_toUInt64 {values : List UInt64} (small : ∀ v ∈ values, v.toNat < UInt32.size) :
    ∃ words : List UInt32, words.map UInt32.toUInt64 = values := by
  refine ⟨values.map UInt64.toUInt32, ?_⟩
  have same : ∀ v ∈ values, (UInt32.toUInt64 ∘ UInt64.toUInt32) v = id v := fun v hv =>
    toUInt64_toUInt32_of_lt (small v hv)
  rw [List.map_map, List.map_congr_left same, List.map_id]

/-- Words that can be the dimensions of a node are those of a shape. -/
theorem Shape.exists_of_words {dims : List UInt64} (nonempty : dims ≠ [])
    (positive : ∀ d ∈ dims, 0 < d.toNat) (narrow : ∀ d ∈ dims, d.toNat < UInt32.size)
    (bounded : (dims.map UInt64.toNat).prod < UInt32.size) :
    ∃ s : Shape, s.dims.map UInt32.toUInt64 = dims := by
  obtain ⟨dims, rfl⟩ := exists_map_toUInt64 narrow
  rw [prod_toUInt64] at bounded
  refine ⟨⟨dims, ?_, ?_, bounded⟩, rfl⟩
  · rintro rfl
    exact nonempty rfl
  · rintro d hd rfl
    exact Nat.lt_irrefl 0 (positive _ (List.mem_map_of_mem hd))

/-- Words of dimensions are positive and narrow. -/
theorem Shape.forall_mem_words (s : Shape) :
    ∀ d ∈ s.dims.map UInt32.toUInt64, 0 < d.toNat ∧ d.toNat < UInt32.size := by
  rw [List.forall_mem_map]
  intro d hd
  rw [UInt32.toNat_toUInt64]
  exact ⟨Nat.pos_of_ne_zero fun zero => s.positive d hd (UInt32.toNat_inj.1 zero), d.toNat_lt⟩

/-- Cells are a set exactly if the words by which they stand in archives are ascending and in
bounds. -/
theorem Sparse.isSet_iff_words {size : Nat} {cells : Sparse} : IsSet size cells ↔
    (cells.map UInt32.toUInt64).Pairwise (· < ·) ∧
      ∀ c ∈ cells.map UInt32.toUInt64, c.toNat < size := by
  have order : ∀ {c d : UInt32}, c.toUInt64 < d.toUInt64 ↔ c < d := by
    intro c d
    rw [UInt64.lt_iff_toNat_lt, UInt32.toNat_toUInt64, UInt32.toNat_toUInt64,
      UInt32.lt_iff_toNat_lt]
  rw [List.pairwise_map, List.forall_mem_map]
  simp only [order, UInt32.toNat_toUInt64]
  constructor
  · intro set
    exact ⟨set.ascending, set.bounded⟩
  · rintro ⟨ascending, bounded⟩
    exact ⟨ascending, bounded⟩

/-! ## Snapshots -/

namespace Snapshot

variable {a : Archive} {s : Snapshot}

/-- Words are narrowed exactly to those that widen to them. -/
theorem narrow_eq_ok_iff {damage : UInt64 → Corruption} {values : List UInt64}
    {words : List UInt32} :
    narrow damage values = .ok words ↔ values = words.map UInt32.toUInt64 := by
  constructor
  · intro h
    induction values generalizing words with
    | nil =>
        cases h
        rfl
    | cons v values ih =>
        rw [narrow, List.mapM_cons] at h
        obtain ⟨w, first, h⟩ := exists_of_bind_eq_ok h
        obtain ⟨rest, narrowed, h⟩ := exists_of_bind_eq_ok h
        cases h
        split at first
        · rename_i small
          cases first
          rw [List.map_cons, toUInt64_toUInt32_of_lt small, ← ih narrowed]
        · cases first
  · rintro rfl
    exact narrow_map damage words

/-- An archive is read as a snapshot exactly if it holds its dimensions and cells, and these are a
set. -/
theorem ofArchive_eq_ok_iff : ofArchive a = .ok s ↔ a.kind = archiveKind ∧
    a.get? "dimensions" = some (.list (s.shape.dims.map UInt32.toUInt64)) ∧
      a.get? "sparse" = some (.list (s.cells.map UInt32.toUInt64)) ∧
        Sparse.IsSet s.shape.size s.cells := by
  constructor
  · intro h
    have set := isSet_of_ofArchive h
    unfold ofArchive at h
    obtain ⟨_, kind, h⟩ := exists_of_bind_eq_ok h
    obtain ⟨values, dimensions, h⟩ := exists_of_bind_eq_ok h
    obtain ⟨dims, narrowed, h⟩ := exists_of_bind_eq_ok h
    obtain ⟨words, sparse, h⟩ := exists_of_bind_eq_ok h
    obtain ⟨cells, narrowed', h⟩ := exists_of_bind_eq_ok h
    rw [Archive.list_eq_ok_iff, narrow_eq_ok_iff.1 narrowed] at dimensions
    rw [Archive.list_eq_ok_iff, narrow_eq_ok_iff.1 narrowed'] at sparse
    split at h
    · cases h
    · rename_i shape made
      split at h
      · cases h
      · cases h
        rw [Shape.ofDims_eq_ok_iff] at made
        exact ⟨Archive.expectKind_eq_ok_iff.1 kind, made ▸ dimensions, sparse, set⟩
  · rintro ⟨kind, dimensions, sparse, set⟩
    have found : a.expectKind archiveKind = .ok () := Archive.expectKind_eq_ok_iff.2 kind
    rw [ofArchive, found, Archive.list_eq_ok_iff.2 dimensions, Archive.list_eq_ok_iff.2 sparse]
    simp only [bind, Except.bind, narrow_map, Shape.ofDims_dims, Sparse.check_eq_ok_iff.2 set]
    rfl

/-- An archive describes exactly what it is read as. -/
theorem describes_iff {dims cells : List UInt64} : a.Describes dims cells ↔
    ∃ s, ofArchive a = .ok s ∧ s.shape.dims.map UInt32.toUInt64 = dims ∧
      s.cells.map UInt32.toUInt64 = cells := by
  constructor
  · intro h
    have inRange : ∀ c ∈ cells, c.toNat < UInt32.size := fun c hc =>
      Nat.lt_trans (h.below c hc) h.bounded
    obtain ⟨shape, rfl⟩ := Shape.exists_of_words h.nonempty h.positive h.narrow h.bounded
    obtain ⟨cells, rfl⟩ := exists_map_toUInt64 inRange
    have below := h.below
    rw [prod_toUInt64] at below
    have set : Sparse.IsSet shape.size cells := Sparse.isSet_iff_words.2 ⟨h.ascending, below⟩
    exact ⟨⟨shape, cells⟩, ofArchive_eq_ok_iff.2 ⟨h.kind, h.dimensions, h.sparse, set⟩, rfl, rfl⟩
  · rintro ⟨s, h, rfl, rfl⟩
    obtain ⟨kind, dimensions, sparse, set⟩ := ofArchive_eq_ok_iff.1 h
    obtain ⟨ascending, below⟩ := Sparse.isSet_iff_words.1 set
    have size : ((s.shape.dims.map UInt32.toUInt64).map UInt64.toNat).prod = s.shape.size :=
      prod_toUInt64 s.shape.dims
    exact {
      kind, dimensions, sparse, ascending
      nonempty := fun none => s.shape.nonempty (List.map_eq_nil_iff.1 none)
      positive := fun d hd => (s.shape.forall_mem_words d hd).1
      narrow := fun d hd => (s.shape.forall_mem_words d hd).2
      bounded := size ▸ s.shape.bounded
      below := size ▸ below }

/-- An archive describes something exactly if it is read. -/
theorem exists_describes_iff :
    (∃ dims cells, a.Describes dims cells) ↔ ∃ s, ofArchive a = .ok s := by
  constructor
  · rintro ⟨dims, cells, describes⟩
    obtain ⟨s, described, -⟩ := describes_iff.1 describes
    exact ⟨s, described⟩
  · rintro ⟨s, described⟩
    exact ⟨_, _, describes_iff.2 ⟨s, described, rfl, rfl⟩⟩

end Snapshot

/-! ## Nodes behind all others -/

namespace Forest

variable {α : Type} {f g : Forest α} {n : Node α}

/-- A node behind all others changes nothing in what they show: each shows what it or an older one
holds. -/
theorem shown_push (nodes : g.nodes = f.nodes.push n) {id : NodeId} (inside : id < f.nodes.size) :
    g.shown id = f.shown id := by
  have node : ∀ {i : NodeId}, i < f.nodes.size → g.nodes[i]? = f.nodes[i]? := by
    intro i hi
    rw [nodes, Array.getElem?_push_lt hi, Array.getElem?_eq_getElem hi]
  induction id using Nat.strongRecOn with
  | ind id ih =>
      rw [shown, shown.eq_def f id, node inside]
      split
      · rfl
      split
      · rfl
      split
      · rfl
      split
      · rfl
      · rfl
      split
      · rename_i link _ older
        have there := Nat.lt_trans older inside
        have alive : g.isAlive link.parent = f.isAlive link.parent := by
          rw [isAlive, isAlive, node there]
        rw [alive, ih _ older there]
      · rfl

/-- A node behind all others changes nothing in what is seen of them. -/
theorem outlook_push (nodes : g.nodes = f.nodes.push n) {id : NodeId} (inside : id < f.nodes.size) :
    g.outlook id = f.outlook id := by
  have node : g.nodes[id]? = f.nodes[id]? := by
    rw [nodes, Array.getElem?_push_lt inside, Array.getElem?_eq_getElem inside]
  unfold outlook available? sight
  rw [shown_push nodes inside, node]

/-- A question is answered as is said of it. -/
theorem exists_answer {G : Type} (sound : f.Sound) {question : Question} {answer : Answer G}
    (said : question.said f.outlook = .ok answer) :
    ∃ g, question.call f = .ok answer g ∧ f.Reads g := by
  have asked := says_question (G := G) question f sound rfl
  rw [said] at asked
  obtain ⟨_, g, answered, reads, rfl⟩ := asked
  exact ⟨g, answered, reads⟩

/-- The archive of a node holds its shape and the cells that it shows. -/
theorem exists_answer_archive {G : Type} (sound : f.Sound) {id : NodeId} {cells : Sparse}
    (found : f.available? id = some n) (shows : f.shown id = .ok cells) :
    ∃ g, (Question.archive id).call f =
      .ok (.archive (Snapshot.toArchive ⟨n.shape, cells⟩) : Answer G) g ∧ f.Reads g := by
  refine exists_answer sound ?_
  simp only [Question.said, outlook_of_some found, Sight.snapshot, sight, shows, bind, Except.bind]
  rfl

/-- Nodes that are seen to have the same shape and the same cells are equal. -/
theorem answers_equal {G : Type} (sound : f.Sound) {id other : NodeId} {x y : Sight}
    {cells : Sparse} (seen : f.outlook id = .ok x) (seen' : f.outlook other = .ok y)
    (shape : x.shape = y.shape) (shows : x.cells = .ok cells) (shows' : y.cells = .ok cells) :
    f.Answers (Question.equal id other).call (.flag true : Answer G) := by
  have same : x.equal y = true := by
    simp [Sight.equal, shape, shows, shows', Except.toOption]
  have said : (Question.equal id other).said f.outlook = .ok (.flag true : Answer G) := by
    simp only [Question.said, seen, seen', bind, Except.bind, same]
    rfl
  obtain ⟨g, answered, -⟩ := exists_answer sound said
  exact ⟨g, answered⟩

/-- What is adopted stands behind all others, is canonical and shows its cells. -/
theorem exists_adopt (sound : f.Sound) {a : Archive} {s : Snapshot}
    (described : Snapshot.ofArchive a = .ok s) :
    ∃ g, adopt a f = .ok f.nodes.size g ∧ g.nodes = f.nodes.push s.node ∧ g.Sound ∧
      g.available? f.nodes.size = some s.node ∧ g.shown f.nodes.size = .ok s.cells := by
  have adopted := adopt_eq f a
  rw [described] at adopted
  have set : Sparse.IsSet s.shape.size s.cells := Snapshot.isSet_of_ofArchive described
  have holds : (s.node : Node α).cache.Holds s.shape s.cells := Cache.holds_ofSparse set
  have cells : (s.node : Node α).cells = s.cells := Node.cells_eq holds rfl
  have found : (f.push s.node).nodes[f.nodes.size]? = some s.node := Array.getElem?_push_size
  refine ⟨f.push s.node, adopted, rfl, ?_, Option.filter_eq_some_iff.2 ⟨found, rfl⟩, ?_⟩
  · refine sound.push ?_ (fun _ => rfl) (fun _ view => by cases view) rfl
    rwa [cells]
  · rw [shown_of_isFresh found rfl rfl, cells]

/-- What is adopted is described. -/
theorem exists_of_adopt {a : Archive} {id : NodeId} (h : adopt a f = .ok id g) :
    ∃ s, Snapshot.ofArchive a = .ok s := by
  have adopted := adopt_eq f a
  cases described : Snapshot.ofArchive a with
  | ok s => exact ⟨s, rfl⟩
  | error fault =>
      rw [described] at adopted
      cases adopted.symm.trans h

/-- An archive that describes nothing is told to be corrupt, and nothing changes. -/
theorem exists_corrupt_of_not_described {a : Archive}
    (h : ¬ ∃ s, Snapshot.ofArchive a = .ok s) : ∃ cause, adopt a f = .error (.corrupt cause) f := by
  have adopted := adopt_eq f a
  cases described : Snapshot.ofArchive a with
  | ok s => exact absurd ⟨s, described⟩ h
  | error fault =>
      obtain ⟨cause, rfl⟩ := (Snapshot.onlyCorrupt_ofArchive a).exists_corrupt described
      rw [described] at adopted
      exact ⟨cause, adopted⟩

/-- What is adopted from the archive of a node equals the node: asking keeps what is seen of the
node, and so does the one behind all others. -/
theorem exists_equal_adopted {G : Type} (sound : f.Sound) {id : NodeId} {cells : Sparse}
    (found : f.available? id = some n) (shows : f.shown id = .ok cells) :
    ∃ b g, (Question.archive id).call f = .ok (.archive b : Answer G) g ∧
      ∃ other h, adopt b g = .ok other h ∧
        h.Answers (Question.equal other id).call (.flag true : Answer G) := by
  have there := (Option.filter_eq_some_iff.1 found).1
  have set : Sparse.IsSet n.shape.size cells := isSet_shown sound there shows
  obtain ⟨g, asked, reads⟩ := exists_answer_archive (G := G) sound found shows
  have described := Snapshot.ofArchive_toArchive ⟨n.shape, cells⟩ set
  obtain ⟨h, adopted, nodes, sound', found', shows'⟩ := exists_adopt (reads.sound sound) described
  have inside : id < g.nodes.size := by
    obtain ⟨m, hm, -⟩ := reads.node there
    exact (Array.getElem?_eq_some_iff.1 hm).1
  have seen : h.outlook id = .ok (f.sight id n) := by
    rw [outlook_push nodes inside, reads.outlook sound, outlook_of_some found]
  exact ⟨_, g, asked, _, h, adopted,
    answers_equal sound' (outlook_of_some found') seen rfl shows' shows⟩

end Forest

/-! ## Archives of nodes -/

variable {α G : Type} [RandomSource G] [LawfulRandomSource G]
  {allowed : Situation α → Move α G → Prop} {s : Situation α}

/-- A node is created from an archive exactly if the archive describes one.  It is canonical, and
its own archive has the same two lists.  Every other archive is told to be corrupt, and nothing is
created.  What is created from the archive of a node that can be read equals the node. -/
theorem archives_of_nodes_are_adopted (reached : Reached allowed s) :
    (∀ a : Archive,
      ((∃ id g, Forest.adopt a s.forest = .ok id g) ↔ ∃ dims cells, a.Describes dims cells) ∧
      (∀ id g, Forest.adopt a s.forest = .ok id g →
        (∃ n, g.available? id = some n ∧ n.role = .canonical) ∧
        ∃ b, g.Answers (Question.archive id).call (.archive b : Answer G) ∧
          b.get? "dimensions" = a.get? "dimensions" ∧ b.get? "sparse" = a.get? "sparse") ∧
      ((¬ ∃ dims cells, a.Describes dims cells) →
        ∃ cause, Forest.adopt a s.forest = .error (.corrupt cause) s.forest)) ∧
    ∀ id shape, s.forest.Readable id shape →
      ∃ b g, (Question.archive id).call s.forest = .ok (.archive b : Answer G) g ∧
        ∃ other h, Forest.adopt b g = .ok other h ∧
          h.Answers (Question.equal other id).call (.flag true : Answer G) := by
  have sound : s.forest.Sound := reached.ordered.forest.sound
  refine ⟨fun a => ⟨?_, ?_, ?_⟩, ?_⟩
  · rw [Snapshot.exists_describes_iff]
    constructor
    · rintro ⟨id, g, adopted⟩
      exact Forest.exists_of_adopt adopted
    · rintro ⟨t, described⟩
      obtain ⟨g, adopted, -⟩ := Forest.exists_adopt sound described
      exact ⟨_, g, adopted⟩
  · intro id g adopted
    obtain ⟨t, described⟩ := Forest.exists_of_adopt adopted
    obtain ⟨-, dimensions, sparse, set⟩ := Snapshot.ofArchive_eq_ok_iff.1 described
    obtain ⟨-, dimensions', sparse', -⟩ :=
      Snapshot.ofArchive_eq_ok_iff.1 (t.ofArchive_toArchive set)
    obtain ⟨g', adopted', -, sound', found, shows⟩ := Forest.exists_adopt sound described
    cases adopted'.symm.trans adopted
    obtain ⟨h, answered, -⟩ := Forest.exists_answer_archive (G := G) sound' found shows
    exact ⟨⟨_, found, rfl⟩, _, ⟨h, answered⟩, dimensions'.trans dimensions.symm,
      sparse'.trans sparse.symm⟩
  · rw [Snapshot.exists_describes_iff]
    exact Forest.exists_corrupt_of_not_described
  · rintro id _ ⟨⟨n, found, rfl⟩, cells, answered⟩
    have shows := (Forest.answers_sparse_iff sound found).1 answered
    exact Forest.exists_equal_adopted sound found shows

/-- A square is created from its archive and equals it, but none with more cells than 32 bits can
count. -/
theorem archives_of_squares_are_adopted :
    let square : Snapshot := ⟨⟨[2, 2], by decide, by simp, by decide⟩, [1, 2]⟩
    let large : Archive :=
      .ofList "SDR" [("dimensions", .list [65536, 65536]), ("sparse", .list [])]
    ∃ f : Forest Unit, Reached (G := Generator) (fun _ _ => True) (.quiet f) ∧
      (∃ id g, Forest.adopt square.toArchive f = .ok id g) ∧
      (∃ cause, Forest.adopt large f = .error (.corrupt cause) f) ∧
      ∃ b g, (Question.archive 0).call f = .ok (.archive b : Answer Generator) g ∧
        ∃ other h, Forest.adopt b g = .ok other h ∧
          h.Answers (Question.equal other 0).call (.flag true : Answer Generator) := by
  intro square large
  have created : Reached (α := Unit) (G := Generator) (fun _ _ => True) _ :=
    Reached.start.next trivial (.call (.create [2, 2]) rfl)
  have reached : Reached (G := Generator) (fun _ _ => True)
      (.quiet (⟨#[.canonical square.shape], [], []⟩ : Forest Unit)) := created.next trivial .forget
  obtain ⟨archives, nodes⟩ := archives_of_nodes_are_adopted reached
  have set : Sparse.IsSet square.shape.size square.cells := Sparse.check_eq_ok_iff.1 rfl
  refine ⟨_, reached, ?_, ?_, nodes 0 square.shape ?_⟩
  · have described := Snapshot.describes_iff.2 ⟨square, square.ofArchive_toArchive set, rfl, rfl⟩
    exact (archives square.toArchive).1.2 ⟨_, _, described⟩
  · refine (archives large).2.2 ?_
    rintro ⟨dims, cells, described⟩
    have held : large.get? "dimensions" = some (.list [65536, 65536]) := by decide
    cases held.symm.trans described.dimensions
    exact absurd described.bounded (by decide)
  · exact reached.readable (n := .canonical square.shape) rfl (.inl rfl)

end SparseTensor
