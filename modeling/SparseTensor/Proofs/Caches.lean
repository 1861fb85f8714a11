/-
# What caches hold

A cache is in order when everything it holds renders one set of cells (`Cache.Holds`).  Storing
a value makes such a cache, and each of the four readings answers with the rendering of the set
and keeps the cache in order (`Renders`).

`Denotes` spells the same out encoding by encoding, for a set of cell numbers.
-/
import Mathlib.Data.Finset.Card
import SparseTensor.Forest.Describe
import SparseTensor.Proofs.Coordinates

namespace SparseTensor.Cache

/-! ## One set -/

/-- Everything that a cache holds renders the set `cells`. -/
structure Holds (shape : Shape) (c : Cache) (cells : Sparse) : Prop where
  isSet : Sparse.IsSet shape.size cells
  dense : ∀ d, c.dense = some d → d = Dense.ofSparse shape.size cells
  sparse : ∀ s, c.sparse = some s → s = cells
  coordinates : ∀ k, c.coordinates = some k → k = Coordinates.ofSparse shape cells
  sum : c.isStale = false → c.sum = cells.length
  /-- Of two encodings, one is the sparse one. -/
  paired : c.sparse = none → c.dense = none ∨ c.coordinates = none

@[simp] theorem isStale_stale : stale.isStale = true := rfl

@[simp] theorem isStale_ofDense (d : Dense) : (ofDense d).isStale = false := rfl

@[simp] theorem isStale_ofSparse (cells : Sparse) : (ofSparse cells).isStale = false := rfl

@[simp] theorem isStale_ofCoordinates (coords : Coordinates) :
    (ofCoordinates coords).isStale = false := rfl

/-! ## Storing -/

/-- A stale cache holds nothing that could be wrong. -/
theorem holds_stale {shape : Shape} {cells : Sparse} (h : Sparse.IsSet shape.size cells) :
    stale.Holds shape cells where
  isSet := h
  dense := by simp [stale]
  sparse := by simp [stale]
  coordinates := by simp [stale]
  sum := by simp
  paired := by simp [stale]

/-- Storing a set keeps it. -/
theorem holds_ofSparse {shape : Shape} {cells : Sparse} (h : Sparse.IsSet shape.size cells) :
    (ofSparse cells).Holds shape cells where
  isSet := h
  dense := by simp [ofSparse]
  sparse := by simp [ofSparse]
  coordinates := by simp [ofSparse]
  sum := fun _ => rfl
  paired := by simp [ofSparse]

/-- Storing bits keeps the set of the cells whose bits are set. -/
theorem holds_ofDense {shape : Shape} {d : Dense} (h : d.size = shape.size) :
    (ofDense d).Holds shape d.toSparse where
  isSet := h ▸ Dense.isSet_toSparse (h ▸ Nat.le_of_lt shape.bounded)
  dense := by
    rintro _ ⟨⟩
    rw [← h, Dense.ofSparse_toSparse (h ▸ Nat.le_of_lt shape.bounded)]
  sparse := by simp [ofDense]
  coordinates := by simp [ofDense]
  sum := fun _ => (Dense.length_toSparse d).symm
  paired := by simp [ofDense]

/-- Storing coordinate lists that were admitted, in row-major order, keeps the set they name. -/
theorem holds_ofCoordinates {shape : Shape} {coords : Coordinates}
    (h : Coordinates.check shape coords = .ok ()) :
    (ofCoordinates (coords.rowMajor shape)).Holds shape (coords.toSparse shape) where
  isSet := Coordinates.isSet_toSparse h
  dense := by simp [ofCoordinates]
  sparse := by simp [ofCoordinates]
  coordinates := by
    rintro _ ⟨⟩
    exact Coordinates.rowMajor_eq_ofSparse h
  sum := by
    intro
    show (coords.rowMajor shape).count = _
    rw [Coordinates.rowMajor_eq_ofSparse h, Coordinates.count_ofSparse]
  paired := by simp [ofCoordinates]

/-! ## Reading -/

/-- A way of reading answers with the rendering of the set that is held, and keeps it. -/
structure Renders {β : Type} (read : Shape → Cache → Reading β) (render : Shape → Sparse → β) :
    Prop where
  value : ∀ {shape : Shape} {c : Cache} {cells : Sparse}, c.Holds shape cells →
    c.isStale = false → (read shape c).value = render shape cells
  holds : ∀ {shape : Shape} {c : Cache} {cells : Sparse}, c.Holds shape cells →
    c.isStale = false → (read shape c).cache.Holds shape cells
  isStale_eq : ∀ {shape : Shape} {c : Cache}, c.isStale = false →
    (read shape c).cache.isStale = false

/-- The size of a set is read as the length of its list. -/
theorem renders_readSum : Renders readSum fun _ cells => cells.length where
  value h held := h.sum held
  holds h _ := h
  isStale_eq held := held

/-- The sparse encoding is derived from whatever is held, and kept. -/
theorem renders_readSparse : Renders readSparse fun _ cells => cells where
  value := by
    intro shape c cells h held
    -- each of the three encodings is held or not; two without the cells are no cache in order
    obtain ⟨_ | d, _ | s, _ | k, n⟩ := c
    · cases held
    · have : k = Coordinates.ofSparse shape cells := h.coordinates k rfl
      subst this
      exact Coordinates.toSparse_ofSparse h.isSet
    · exact h.sparse s rfl
    · exact h.sparse s rfl
    · have : d = Dense.ofSparse shape.size cells := h.dense d rfl
      subst this
      exact Dense.toSparse_ofSparse h.isSet (Nat.le_of_lt shape.bounded)
    · exact absurd (h.paired rfl) (by simp)
    · exact h.sparse s rfl
    · exact h.sparse s rfl
  holds := by
    intro shape c cells h held
    obtain ⟨_ | d, _ | s, _ | k, n⟩ := c
    · cases held
    · have : k = Coordinates.ofSparse shape cells := h.coordinates k rfl
      subst this
      refine ⟨h.isSet, h.dense, ?_, h.coordinates, fun _ => h.sum held, by simp [readSparse]⟩
      rintro _ ⟨⟩
      exact Coordinates.toSparse_ofSparse h.isSet
    · exact h
    · exact h
    · have : d = Dense.ofSparse shape.size cells := h.dense d rfl
      subst this
      refine ⟨h.isSet, h.dense, ?_, h.coordinates, fun _ => h.sum held, by simp [readSparse]⟩
      rintro _ ⟨⟩
      exact Dense.toSparse_ofSparse h.isSet (Nat.le_of_lt shape.bounded)
    · exact absurd (h.paired rfl) (by simp)
    · exact h
    · exact h
  isStale_eq := by
    intro shape c held
    obtain ⟨_ | d, _ | s, _ | k, n⟩ := c <;> first | exact held | rfl

/-- After the sparse encoding was read it is held, and so is what was held before. -/
theorem readSparse_cache (shape : Shape) (c : Cache) :
    (c.readSparse shape).cache = { c with sparse := some (c.readSparse shape).value } := by
  obtain ⟨_ | d, _ | s, _ | k, n⟩ := c <;> rfl

/-- Bits are derived from the sparse encoding, and kept. -/
theorem renders_readDense :
    Renders readDense fun shape cells => Dense.ofSparse shape.size cells where
  value := by
    intro shape c cells h held
    unfold readDense
    split
    · rename_i d found
      exact h.dense d found
    · show Dense.ofSparse shape.size (c.readSparse shape).value = _
      rw [renders_readSparse.value h held]
  holds := by
    intro shape c cells h held
    unfold readDense
    split
    · exact h
    · have kept := renders_readSparse.holds h held
      have value := renders_readSparse.value h held
      refine ⟨h.isSet, ?_, kept.sparse, kept.coordinates, fun _ => ?_, ?_⟩
      · rintro _ ⟨⟩
        rw [value]
      · exact kept.sum (renders_readSparse.isStale_eq held)
      · simp [readSparse_cache]
  isStale_eq := by
    intro shape c held
    unfold readDense
    split
    · exact held
    · rfl

/-- Coordinates are derived from the sparse encoding, and kept. -/
theorem renders_readCoordinates : Renders readCoordinates Coordinates.ofSparse where
  value := by
    intro shape c cells h held
    unfold readCoordinates
    split
    · rename_i k found
      exact h.coordinates k found
    · show Coordinates.ofSparse shape (c.readSparse shape).value = _
      rw [renders_readSparse.value h held]
  holds := by
    intro shape c cells h held
    unfold readCoordinates
    split
    · exact h
    · have kept := renders_readSparse.holds h held
      have value := renders_readSparse.value h held
      refine ⟨h.isSet, kept.dense, kept.sparse, ?_, fun _ => ?_, ?_⟩
      · rintro _ ⟨⟩
        rw [value]
      · exact kept.sum (renders_readSparse.isStale_eq held)
      · simp [readSparse_cache]
  isStale_eq := by
    intro shape c held
    unfold readCoordinates
    split
    · exact held
    · simp [isStale]

/-! ## The set, encoding by encoding -/

/-- Everything that a cache holds denotes the set `S` of cell numbers, in the form that its
encoding asks for. -/
structure Denotes (shape : Shape) (c : Cache) (S : Finset Nat) : Prop where
  below : ∀ i ∈ S, i < shape.size
  /-- There is one bit for every cell. -/
  dense : ∀ d, c.dense = some d → d.size = shape.size ∧ ∀ i, i ∈ S ↔ d[i]? = some true
  /-- The list is strictly ascending. -/
  sparse : ∀ cells, c.sparse = some cells →
    cells.Pairwise (· < ·) ∧ ∀ i, i ∈ S ↔ ∃ cell ∈ cells, cell.toNat = i
  /-- There is one list per dimension, with one coordinate below it for every cell, and the
  cells are in row-major order. -/
  coordinates : ∀ coords, c.coordinates = some coords →
    List.Forall₂ (fun list d => list.length = S.card ∧ ∀ i ∈ list, i < d) coords shape.dims ∧
      coords.points.Pairwise (· < ·) ∧
      ∀ i, i ∈ S ↔ ∃ p ∈ coords.points, number shape.dims p = i
  sum : c.isStale = false → c.sum = S.card
  paired : 1 < c.held.length → c.sparse.isSome = true

/-- The numbers of some cells. -/
def numbers (cells : Sparse) : Finset Nat :=
  (cells.map UInt32.toNat).toFinset

theorem mem_numbers {cells : Sparse} {i : Nat} :
    i ∈ numbers cells ↔ ∃ c ∈ cells, c.toNat = i := by
  simp [numbers]

/-- A set has as many numbers as cells. -/
theorem card_numbers {size : Nat} {cells : Sparse} (h : Sparse.IsSet size cells) :
    (numbers cells).card = cells.length := by
  have distinct : (cells.map UInt32.toNat).Nodup := by
    rw [List.nodup_iff_pairwise_ne, List.pairwise_map]
    refine h.ascending.imp ?_
    intro a b less same
    exact absurd (UInt32.lt_iff_toNat_lt.1 less) (by omega)
  unfold numbers
  rw [List.toFinset_card_of_nodup distinct, List.length_map]

/-- A cache that is in order denotes the numbers of its cells. -/
theorem Holds.denotes {shape : Shape} {c : Cache} {cells : Sparse} (h : c.Holds shape cells) :
    c.Denotes shape (numbers cells) where
  below := by
    intro i hi
    obtain ⟨cell, hcell, rfl⟩ := mem_numbers.1 hi
    exact h.isSet.bounded cell hcell
  dense := by
    intro d found
    obtain rfl := h.dense d found
    refine ⟨Dense.size_ofSparse shape.size cells, fun i => ?_⟩
    rw [mem_numbers]
    by_cases inside : i < shape.size
    · rw [Dense.getElem?_ofSparse cells inside]
      simp
    · rw [Array.getElem?_eq_none (by rw [Dense.size_ofSparse]; omega)]
      constructor
      · rintro ⟨cell, hcell, rfl⟩
        exact absurd (h.isSet.bounded cell hcell) inside
      · intro held
        cases held
  sparse := by
    intro s found
    obtain rfl := h.sparse s found
    exact ⟨h.isSet.ascending, fun i => mem_numbers⟩
  coordinates := by
    intro coords found
    obtain rfl := h.coordinates coords found
    rw [card_numbers h.isSet, Coordinates.points_ofSparse]
    refine ⟨Coordinates.inBounds_ofSparse shape cells, ?_, fun i => ?_⟩
    · rw [List.pairwise_map]
      refine h.isSet.ascending.imp_of_mem ?_
      intro a b ha hb less
      exact (Shape.unravel_lt_unravel_iff (h.isSet.bounded a ha) (h.isSet.bounded b hb)).2 less
    · rw [mem_numbers]
      constructor
      · rintro ⟨cell, hcell, rfl⟩
        exact ⟨_, List.mem_map_of_mem hcell, Shape.number_unravel (h.isSet.bounded cell hcell)⟩
      · rintro ⟨p, hp, rfl⟩
        obtain ⟨cell, hcell, rfl⟩ := List.mem_map.1 hp
        exact ⟨cell, hcell, (Shape.number_unravel (h.isSet.bounded cell hcell)).symm⟩
  sum := fun held => by rw [card_numbers h.isSet, h.sum held]
  paired := by
    intro several
    -- without the cells one other encoding is held at most
    by_contra absent
    have none : c.sparse = none := by simpa using absent
    unfold held at several
    rw [none] at several
    rcases h.paired none with other | other
    · rw [other] at several
      cases hk : c.coordinates <;> simp [hk] at several
    · rw [other] at several
      cases hd : c.dense <;> simp [hd] at several

end SparseTensor.Cache
