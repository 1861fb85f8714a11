/-
# Archives describe values

A value is what a record keeps: the shape of a node and its cells, or a generator.  Its archive has
valid names in every case, and describes the value again: `Snapshot.ofArchive_toArchive` for sets of
cells of the shape, and `Generator.ofArchive_toArchive` for all generators.
-/
import SparseTensor.Proofs.Encodings
import SparseTensor.Random.Generator
import SparseTensor.Snapshot

namespace SparseTensor

/-! ## Shapes -/

/-- The product of positive dimensions is found if it fits in 64 bits: no product on the way there
is greater. -/
theorem checkedProduct_of_lt {n : Nat} {dims : List UInt32} (positive : ∀ d ∈ dims, d ≠ 0)
    (fits : n * product dims < UInt64.size) : checkedProduct n dims = some (n * product dims) := by
  induction dims generalizing n with
  | nil => simp [checkedProduct, product]
  | cons d dims ih =>
      have rest : ∀ e ∈ dims, e ≠ 0 := fun e he => positive e (List.mem_cons_of_mem d he)
      have same : n * product (d :: dims) = n * d.toNat * product dims := by
        simp [product, Nat.mul_assoc]
      rw [same] at fits ⊢
      have partial_le : n * d.toNat ≤ n * d.toNat * product dims :=
        Nat.le_mul_of_pos_right _ (product_pos rest)
      rw [checkedProduct, if_pos (Nat.lt_of_le_of_lt partial_le fits), ih rest fits]

/-- The dimensions of a shape make the shape. -/
theorem Shape.ofDims_dims (s : Shape) : ofDims s.dims = .ok s := by
  have noZero : s.dims.findIdx? (· = 0) = none := by
    rw [List.findIdx?_eq_none_iff]
    exact fun d hd => by simpa using s.positive d hd
  have counted : checkedProduct 1 s.dims = some (product s.dims) := by
    have fits : 1 * product s.dims < UInt64.size := by
      have := s.bounded
      simp only [UInt32.size, UInt64.size] at this ⊢
      omega
    rw [checkedProduct_of_lt s.positive fits, Nat.one_mul]
  unfold ofDims
  rw [dif_neg s.nonempty]
  split
  · rename_i found
    cases noZero.symm.trans found
  · split
    · rename_i found
      cases counted.symm.trans found
    · rename_i found
      cases counted.symm.trans found
      rw [dif_pos s.bounded]

/-! ## Snapshots -/

namespace Snapshot

variable (s : Snapshot)

theorem fields_toArchive : s.toArchive.fields =
    [("dimensions", .list (s.shape.dims.map UInt32.toUInt64)),
      ("sparse", .list (s.cells.map UInt32.toUInt64))] := by
  have after : ¬ "sparse" < "dimensions" := by decide
  simp [toArchive, Archive.ofList, Archive.put, Archive.empty, place, after]

theorem isValidName_toArchive : isValidName s.toArchive.kind = true ∧
    ∀ entry ∈ s.toArchive.fields, isValidName entry.1 = true := by
  have names : isValidName archiveKind = true ∧ isValidName "dimensions" = true ∧
      isValidName "sparse" = true := by decide
  rw [fields_toArchive, List.forall_mem_cons, List.forall_mem_singleton]
  exact names

/-- Widened words are the words. -/
theorem narrow_map (damage : UInt64 → Corruption) (words : List UInt32) :
    narrow damage (words.map UInt32.toUInt64) = .ok words := by
  induction words with
  | nil => rfl
  | cons w words ih =>
      have small : w.toUInt64.toNat < UInt32.size := by
        rw [UInt32.toNat_toUInt64]
        exact w.toNat_lt
      unfold narrow at ih ⊢
      rw [List.map_cons, List.mapM_cons, ih, if_pos small, UInt32.toUInt32_toUInt64]
      rfl

/-- The archive of a set of cells describes the set, in the same shape. -/
theorem ofArchive_toArchive (set : Sparse.IsSet s.shape.size s.cells) :
    ofArchive s.toArchive = .ok s := by
  have kind : s.toArchive.expectKind archiveKind = .ok () := if_pos rfl
  have dims : s.toArchive.list "dimensions" = .ok (s.shape.dims.map UInt32.toUInt64) := by
    simp [Archive.list, toArchive, Archive.ofList, Archive.get?_put]
  have cells : s.toArchive.list "sparse" = .ok (s.cells.map UInt32.toUInt64) := by
    simp [Archive.list, toArchive, Archive.ofList, Archive.get?_put]
  rw [ofArchive, kind, dims, cells]
  simp only [bind, Except.bind, narrow_map, Shape.ofDims_dims, Sparse.check_eq_ok_iff.2 set]
  rfl

end Snapshot

/-! ## Generators -/

namespace Generator

variable (g : Generator)

/-- The upper word of the position. -/
def high : UInt64 := (g.position.val / UInt64.size).toUInt64

/-- The lower word of the position. -/
def low : UInt64 := (g.position.val % UInt64.size).toUInt64

/-- The position is put together from its two words. -/
theorem position_eq : g.high.toNat * UInt64.size + g.low.toNat = g.position.val := by
  have upper : g.position.val / UInt64.size < UInt64.size := by
    have := g.position.isLt
    simp only [streamLength, UInt64.size] at this ⊢
    omega
  have lower : g.position.val % UInt64.size < UInt64.size := Nat.mod_lt _ (by decide)
  rw [high, low, Nat.toUInt64_eq, Nat.toUInt64_eq, UInt64.toNat_ofNat_of_lt' upper,
    UInt64.toNat_ofNat_of_lt' lower, Nat.div_add_mod']

theorem fields_toArchive : g.toArchive.fields =
    [("position", .list [g.high, g.low]), ("seed", .scalar g.seed)] := by
  have before : "position" < "seed" := by decide
  simp [toArchive, Archive.ofList, Archive.put, Archive.empty, place, before, high, low]

theorem isValidName_toArchive : isValidName g.toArchive.kind = true ∧
    ∀ entry ∈ g.toArchive.fields, isValidName entry.1 = true := by
  have names : isValidName archiveKind = true ∧ isValidName "position" = true ∧
      isValidName "seed" = true := by decide
  rw [fields_toArchive, List.forall_mem_cons, List.forall_mem_singleton]
  exact names

/-- The generator of an archive with a seed and the two words of a position. -/
theorem ofArchive_of_words {a : Archive} {seed high low : UInt64} {position : Fin streamLength}
    (kind : a.expectKind archiveKind = .ok ()) (seeded : a.scalar "seed" = .ok seed)
    (words : a.list "position" = .ok [high, low])
    (same : high.toNat * UInt64.size + low.toNat = position.val) :
    ofArchive a = .ok ⟨seed, position⟩ := by
  -- the length of the stream is too great for the steps to be checked by computation
  have after : ∀ {β γ : Type} (b : β) (k : β → Except Fault γ), (Except.ok b >>= k) = k b :=
    fun _ _ => rfl
  have inside : high.toNat * UInt64.size + low.toNat < streamLength := same ▸ position.isLt
  have there : (⟨high.toNat * UInt64.size + low.toNat, inside⟩ : Fin streamLength) = position :=
    Fin.ext same
  rw [ofArchive, kind, seeded, words]
  simp only [after]
  rw [dif_pos inside, there]
  rfl

/-- The archive of a generator describes the generator. -/
theorem ofArchive_toArchive : ofArchive g.toArchive = .ok g := by
  have kind : g.toArchive.expectKind archiveKind = .ok () := if_pos rfl
  have seeded : g.toArchive.scalar "seed" = .ok g.seed := by
    simp [Archive.scalar, toArchive, Archive.ofList, Archive.get?_put]
  have words : g.toArchive.list "position" = .ok [g.high, g.low] := by
    simp [Archive.list, toArchive, Archive.ofList, Archive.get?_put, high, low]
  exact ofArchive_of_words kind seeded words g.position_eq

end Generator

end SparseTensor
