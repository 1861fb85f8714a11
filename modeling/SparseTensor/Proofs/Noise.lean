/-
# Noise

Noise moves active cells to inactive places.  The cells that stay are the tail of a shuffle, and
those that arrive are chosen from the complement, so the two have nothing in common and together
they are as many as before (`moved_displaced`).  No more cells are moved than there are places for
them.
-/
import SparseTensor.Proofs.Answers
import SparseTensor.Proofs.Draws

namespace SparseTensor

/-! ## Inactive cells -/

/-- Active and inactive cells are all cells. -/
theorem CellSet.perm_complement {size : Nat} (bounded : size ≤ UInt32.size) {cells : Sparse}
    (h : Sparse.IsSet size cells) : (complement size cells ++ cells).Perm (all size) := by
  have distinct : (complement size cells ++ cells).Nodup := by
    refine List.nodup_append.2 ⟨(isSet_complement bounded h).nodup, h.nodup, ?_⟩
    rintro c inactive _ active rfl
    exact ((mem_complement bounded h).1 inactive).2 active
  refine (List.perm_ext_iff_of_nodup distinct (isSet_all bounded).nodup).2 fun c => ?_
  rw [List.mem_append, mem_complement bounded h, mem_all bounded]
  constructor
  · rintro (⟨inside, -⟩ | active)
    · exact inside
    · exact h.bounded c active
  · intro inside
    by_cases active : c ∈ cells
    · exact .inr active
    · exact .inl ⟨inside, active⟩

/-- The inactive cells are those that are missing. -/
theorem CellSet.length_complement {size : Nat} (bounded : size ≤ UInt32.size) {cells : Sparse}
    (h : Sparse.IsSet size cells) : (complement size cells).length = size - cells.length := by
  have together := (perm_complement bounded h).length_eq
  rw [List.length_append, all, List.length_map, List.length_range] at together
  omega

/-! ## Moving cells -/

/-- `count` cells of a set have moved to places where there was none. -/
structure Moved (size count : Nat) (before after : Sparse) : Prop where
  isSet : Sparse.IsSet size after
  length : after.length = before.length
  stay : (before.toFinset ∩ after.toFinset).card = before.length - count
  arrive : (after.toFinset \ before.toFinset).card = count

/-- Cells have moved when some of them stay and as many as are missing arrive. -/
theorem moved_of_perm {size count : Nat} {before after stay arrive : Sparse}
    (isSet : Sparse.IsSet size after) (sorted : after.Perm (stay ++ arrive))
    (active : ∀ c ∈ stay, c ∈ before) (inactive : ∀ c ∈ arrive, c ∉ before)
    (enough : count ≤ before.length) (left : stay.length = before.length - count)
    (arrived : arrive.length = count) : Moved size count before after := by
  have distinct : (stay ++ arrive).Nodup := sorted.nodup_iff.1 isSet.nodup
  have old : before.toFinset ∩ after.toFinset = stay.toFinset := by
    ext c
    rw [Finset.mem_inter, List.mem_toFinset, List.mem_toFinset, List.mem_toFinset, sorted.mem_iff,
      List.mem_append]
    constructor
    · rintro ⟨old, staying | arriving⟩
      · exact staying
      · exact absurd old (inactive c arriving)
    · intro staying
      exact ⟨active c staying, .inl staying⟩
  have new : after.toFinset \ before.toFinset = arrive.toFinset := by
    ext c
    rw [Finset.mem_sdiff, List.mem_toFinset, List.mem_toFinset, List.mem_toFinset, sorted.mem_iff,
      List.mem_append]
    constructor
    · rintro ⟨staying | arriving, new⟩
      · exact absurd (active c staying) new
      · exact arriving
    · intro arriving
      exact ⟨.inr arriving, inactive c arriving⟩
  refine ⟨isSet, ?_, ?_, ?_⟩
  · rw [sorted.length_eq, List.length_append, left, arrived]
    exact Nat.sub_add_cancel enough
  · rw [old, List.toFinset_card_of_nodup distinct.of_append_left, left]
  · rw [new, List.toFinset_card_of_nodup distinct.of_append_right, arrived]

variable {G H : Type} [RandomSource H] [LawfulRandomSource H]

/-- Displacing cells moves as many as are asked for, if there are places for them. -/
theorem moved_displaced {size count : Nat} (bounded : size ≤ UInt32.size) {cells : Sparse}
    (isSet : Sparse.IsSet size cells) (enough : count ≤ cells.length)
    (free : count ≤ size - cells.length) (h : H) :
    Moved size count cells (Forest.displaced size cells count h).1 := by
  let shuffled := RandomSource.shuffle cells.toArray h
  let stay := shuffled.1.toList.drop count
  let arrive := (choose (CellSet.complement size cells).toArray count shuffled.2).1
  have perm : shuffled.1.toList.Perm cells :=
    Array.perm_iff_toList_perm.1 (LawfulRandomSource.shuffle_perm cells.toArray h)
  have sorted : (Forest.displaced size cells count h).1.Perm (stay ++ arrive) :=
    List.mergeSort_perm _ _
  have active : ∀ c ∈ stay, c ∈ cells := fun c hc => perm.mem_iff.1 (List.mem_of_mem_drop hc)
  have inactive : ∀ c ∈ arrive, c ∉ cells := fun c hc =>
    ((CellSet.mem_complement bounded isSet).1 (mem_of_mem_choose hc)).2
  have left : stay.length = cells.length - count := by
    rw [List.length_drop, perm.length_eq]
  -- the choice is not cut short, as there are as many inactive cells as are missing
  have places : count ≤ (CellSet.complement size cells).toArray.size := by
    rw [List.size_toArray, CellSet.length_complement bounded isSet]
    exact free
  exact moved_of_perm (isSet_displaced bounded isSet count h) sorted active inactive enough left
    (length_choose places _)

/-! ## Adding noise -/

variable {α : Type} [RandomSource G] [LawfulRandomSource G]
  {allowed : Situation α → Move α G → Prop} {f : Forest α} {id : NodeId} {n : Node α}

/-- Noise moves a fraction of the active cells of a canonical node to inactive places, or as many
cells as there are places. -/
theorem addNoise_moves_cells (reached : Reached allowed (.quiet f))
    (found : f.available? id = some n) (role : n.role = .canonical) (react : Reaction α)
    {fraction : Float} (valid : Fraction.isValid fraction = true) (h : H) :
    ∃ A h' g B, f.Answers (Forest.sparse id) A ∧
      Forest.addNoise react id fraction (f, h) = .ok ⟨⟩ (g, h') ∧ g.Answers (Forest.sparse id) B ∧
        Moved n.shape.size (min (Fraction.count fraction A.length) (n.shape.size - A.length))
          A B := by
  have sound : f.Sound := reached.ordered.forest.sound
  obtain ⟨hn, -⟩ := Option.filter_eq_some_iff.1 found
  obtain ⟨A, shows⟩ := reached.exists_shown found role
  obtain ⟨g, read, reads⟩ := Forest.exists_read sound found shows Cache.renders_readSparse
  have answered : Forest.sparse id f = .ok A g := read
  have isSet : Sparse.IsSet n.shape.size A := Forest.isSet_shown sound hn shows
  let count := min (Fraction.count fraction A.length) (n.shape.size - A.length)
  let moved := Forest.displaced n.shape.size A count h
  have moves : Moved n.shape.size count A moved.1 :=
    moved_displaced (Nat.le_of_lt n.shape.bounded) isSet
      ((Nat.min_le_left _ _).trans (Fraction.count_le fraction _)) (Nat.min_le_right _ _) h
  have worked : Forest.noisyValue id fraction (f, h) = .ok (.ofSparse moved.1) (g, moved.2) := by
    have changed := Forest.mutable_of_canonical found role .addNoise
    rw [Forest.noisyValue, bind_of_ok (Forest.still_of_ok changed h), Fraction.check, if_pos valid]
    show (Forest.still (Forest.sparse id) >>= _) (f, h) = _
    rw [bind_of_ok (Forest.still_of_ok answered h)]
    rfl
  obtain ⟨ordered, m, there, -, stored⟩ :=
    reached.store reads found role rfl (Cache.holds_ofSparse moves.isSet) react
  refine ⟨A, _, _, moved.1, ⟨g, answered⟩, bind_of_ok worked, ?_, moves⟩
  exact Forest.answers_read ordered.sound there stored Cache.renders_readSparse

/-- Three cells of a square are active, so only one of them can move, whatever the fraction. -/
theorem addNoise_moves_cells_of_square :
    let square : Shape := ⟨[2, 2], by decide, by simp, by decide⟩
    let silent : Reaction Unit := fun _ _ _ => []
    ∃ f : Forest Unit, Reached (fun s (move : Move Unit Generator) => move.Tactful s) (.quiet f) ∧
      (∃ n, f.available? 0 = some n ∧ n.shape = square ∧ n.role = .canonical) ∧
      f.Answers (Forest.sparse 0) [0, 1, 3] ∧ ∃ h' g B,
        Forest.addNoise silent 0 1 (f, Generator.ofSeed 1) = .ok ⟨⟩ (g, h') ∧
          g.Answers (Forest.sparse 0) B ∧ Moved 4 1 [0, 1, 3] B := by
  intro square silent
  let n : Node Unit := Snapshot.node ⟨square, [0, 1, 3]⟩
  let f : Forest Unit := ⟨#[n], [], []⟩
  have created : Reached (α := Unit) (G := Generator) (fun s move => move.Tactful s) _ :=
    Reached.start.next (by rintro _ _ ⟨⟩) (.call (.create [2, 2]) rfl)
  have changed := (created.next (by rintro _ _ ⟨⟩)
    (.call (.mutate 0 (.setSparse [0, 1, 3])) rfl)).next (by trivial) .finish
  have reached : Reached (G := Generator) (fun s move => move.Tactful s) (.quiet f) :=
    changed.next (by trivial) .forget
  have found : f.available? 0 = some n := rfl
  have shows : f.shown 0 = .ok [0, 1, 3] := @Forest.shown_of_isFresh _ f 0 n rfl rfl rfl
  have active : f.Answers (Forest.sparse 0) [0, 1, 3] :=
    (Forest.answers_sparse_iff reached.ordered.forest.sound found).2 shows
  have whole : Fraction.isValid 1 = true := by decide
  have one : min (Fraction.count 1 3) (4 - 3) = 1 := by decide
  obtain ⟨A, h', g, B, answers, noisy, after, moved⟩ :=
    addNoise_moves_cells reached found rfl silent whole (Generator.ofSeed 1)
  obtain rfl := answers.unique active
  exact ⟨f, reached, ⟨n, found, rfl, rfl⟩, active, h', g, B, noisy, after, one ▸ moved⟩

end SparseTensor
