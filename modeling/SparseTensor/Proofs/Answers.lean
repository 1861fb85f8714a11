/-
# What calls answer

A call answers something, and derives encodings and takes notes on the way (`Forest.Answers`).  What
reading a node answers is the rendering of the cells that it shows (`answers_read`), whichever
encodings are held.

A canonical node can always be read, and so can a view that is no orphan, as long as no view has lost
its registration (`Reached.readable`).
-/
import SparseTensor.Proofs.StoredValues
import SparseTensor.Proofs.Streams

namespace SparseTensor

variable {α G : Type}

namespace Forest

variable {β : Type}

/-- A call answers, whatever is derived and noted on the way. -/
def Answers (f : Forest α) (c : Call α β) (b : β) : Prop :=
  ∃ g, c f = .ok b g

variable {f : Forest α} {id : NodeId} {n : Node α} {cells : Sparse}

/-- A call has one answer. -/
theorem Answers.unique {c : Call α β} {a b : β} (ha : f.Answers c a) (hb : f.Answers c b) :
    a = b := by
  obtain ⟨g, ha⟩ := ha
  obtain ⟨h, hb⟩ := hb
  cases ha.symm.trans hb
  rfl

/-! ## Readings -/

/-- Reading a node answers with the rendering of the cells that are shown, and only reads. -/
theorem exists_read (sound : f.Sound) (found : f.available? id = some n)
    (shows : f.shown id = .ok cells) {r : Shape → Cache → Cache.Reading β}
    {render : Shape → Sparse → β} (renders : Cache.Renders r render) :
    ∃ g, read id r f = .ok (render n.shape cells) g ∧ f.Reads g := by
  have reading := read_eq sound found renders
  rw [shows] at reading
  exact reading

/-- Reading a node answers with the rendering of the cells that are shown. -/
theorem answers_read (sound : f.Sound) (found : f.available? id = some n)
    (shows : f.shown id = .ok cells) {r : Shape → Cache → Cache.Reading β}
    {render : Shape → Sparse → β} (renders : Cache.Renders r render) :
    f.Answers (read id r) (render n.shape cells) := by
  obtain ⟨g, answered, -⟩ := exists_read sound found shows renders
  exact ⟨g, answered⟩

/-- Reading the cells answers with what is shown. -/
theorem answers_sparse_iff (sound : f.Sound) (found : f.available? id = some n) :
    f.Answers (sparse id) cells ↔ f.shown id = .ok cells := by
  constructor
  · rintro ⟨g, answered⟩
    have reading := read_eq sound found Cache.renders_readSparse
    cases shows : f.shown id with
    | ok shown =>
        rw [shows] at reading
        obtain ⟨h, again, -⟩ := reading
        cases again.symm.trans answered
        rfl
    | error fault =>
        rw [shows] at reading
        cases reading.symm.trans answered
  · intro shows
    exact answers_read sound found shows Cache.renders_readSparse

/-- The sum is the number of the cells that are shown. -/
theorem answers_sum (sound : f.Sound) (found : f.available? id = some n)
    (shows : f.shown id = .ok cells) : f.Answers (sum id) cells.length :=
  answers_read sound found shows Cache.renders_readSum

/-- Coordinates that fit are admitted. -/
theorem checkCoordinates_of_fits {s : Shape} {coords : List UInt32} (h : Fits coords s.dims) :
    s.checkCoordinates coords = .ok () := by
  have rank : coords.length = s.rank := List.Forall₂.length_eq h
  unfold Shape.checkCoordinates
  rw [if_neg (not_not.2 rank), List.find?_eq_none.2]
  rintro ⟨i, d⟩ hmem
  have below : i < d := List.forall₂_zip h hmem
  simpa using below

/-- A cell is active if it is among those that are shown. -/
theorem answers_isActive (sound : f.Sound) (found : f.available? id = some n)
    (shows : f.shown id = .ok cells) {shape : Shape} (same : n.shape = shape)
    {coords : List UInt32} (h : Fits coords shape.dims) :
    f.Answers (isActive id coords) (decide (shape.ravel coords ∈ cells)) := by
  subst same
  obtain ⟨hn, -⟩ := Option.filter_eq_some_iff.1 found
  have live : n.orphaned ≠ true := fun orphaned => by
    cases shows.symm.trans (shown_of_orphaned hn orphaned)
  obtain ⟨g, answered⟩ := (answers_sparse_iff sound found).2 shows
  refine ⟨g, ?_⟩
  unfold isActive ensureLive
  rw [bind_of_ok (lent_of_some found), if_neg live, checkCoordinates_of_fits h]
  show (sparse id >>= _) f = _
  rw [bind_of_ok answered, ← List.elem_eq_mem]
  rfl

/-! ## Nodes that can be used -/

/-- A node is lent out in a shape and can be read. -/
def Readable (f : Forest α) (id : NodeId) (shape : Shape) : Prop :=
  (∃ n, f.available? id = some n ∧ n.shape = shape) ∧ ∃ cells, f.Answers (sparse id) cells

/-- A canonical node is found to be one that can be changed. -/
theorem mutable_of_canonical (found : f.available? id = some n) (role : n.role = .canonical)
    (mutator : Mutator) : mutable id mutator f = .ok n f := by
  have own : ¬ n.role.isView = true := by simp [role, Role.isView]
  rw [mutable, bind_of_ok (lent_of_some found), if_neg own]
  rfl

end Forest

variable [RandomSource G] [LawfulRandomSource G] {allowed : Situation α → Move α G → Prop}
  {f : Forest α} {id : NodeId} {n : Node α}

/-- A canonical node shows cells between two commands. -/
theorem Reached.exists_shown (reached : Reached allowed (.quiet f))
    (found : f.available? id = some n) (role : n.role = .canonical) :
    ∃ cells, f.shown id = .ok cells := by
  obtain ⟨hn, -⟩ := Option.filter_eq_some_iff.1 found
  have live := (reached.rooted.2.unlinked hn).2 role
  exact ⟨_, Forest.shown_of_isFresh hn live (reached.ordered.forest.sound.canonical hn role)⟩

/-- Between two commands a canonical node can be read, and so can a view that is no orphan as long as
the views are registered with their parents. -/
theorem Reached.readable (reached : Reached allowed (.quiet f))
    (found : f.available? id = some n) (live : n.role = .canonical ∨ f.InPlace ∧ n.orphaned = false) :
    f.Readable id n.shape := by
  refine ⟨⟨n, found, rfl⟩, ?_⟩
  have sound : f.Sound := reached.ordered.forest.sound
  rcases live with canonical | ⟨inPlace, live⟩
  · obtain ⟨cells, shows⟩ := reached.exists_shown found canonical
    exact ⟨cells, (Forest.answers_sparse_iff sound found).2 shows⟩
  · obtain ⟨cells, shows⟩ := (reached.whole inPlace).exists_shown found live
    exact ⟨cells, (Forest.answers_sparse_iff sound found).2 shows⟩

end SparseTensor
