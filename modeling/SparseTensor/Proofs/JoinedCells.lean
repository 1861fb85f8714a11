/-
# Joined cells

Joining copies rows: the bits of the whole are, row by row, the rows of the pieces one behind the
other.  What a cell of the whole is, however, is said by coordinates, and the two descriptions meet in
numbers.  The number of a cell is made up of the row it lies in, its coordinate along the axis and
its place behind the axis (`number_eq_of_axis`), and a cell of a piece that differs from it along the
axis only has the first and the last of these in common with it (`Along.number_set`).

So the extents of the pieces in front are all that a coordinate has to be moved by
(`mem_joinedCells`).
-/
import SparseTensor.Proofs.Encodings
import SparseTensor.Proofs.Joining
import SparseTensor.Snapshot

namespace SparseTensor

/-! ## Numbers along an axis -/

/-- The number of a cell is made up of the numbers in front of a place and behind it. -/
theorem number_append {coords dims : List UInt32} (h : Fits coords dims)
    (coords' dims' : List UInt32) :
    number (dims ++ dims') (coords ++ coords') =
      number dims coords * product dims' + number dims' coords' := by
  induction h with
  | nil => simp [number]
  | @cons i d coords dims _ _ ih =>
      show i.toNat * product (dims ++ dims') + number (dims ++ dims') (coords ++ coords') =
        (i.toNat * product dims + number dims coords) * product dims' + number dims' coords'
      rw [ih, product_append, Nat.add_mul, Nat.mul_assoc, Nat.add_assoc]

/-- The number of a cell by the row it lies in and its place in the row. -/
theorem number_eq_of_axis {coords dims : List UInt32} (h : Fits coords dims) {axis : Nat}
    {i : UInt32} (found : coords[axis]? = some i) :
    number dims coords =
      number (dims.take axis) (coords.take axis) * product (dims.drop axis) +
        (i.toNat * product (dims.drop (axis + 1)) +
          number (dims.drop (axis + 1)) (coords.drop (axis + 1))) := by
  obtain ⟨inside, rfl⟩ := List.getElem?_eq_some_iff.1 found
  have within : axis < dims.length := List.Forall₂.length_eq h ▸ inside
  have parts := number_append (List.forall₂_take axis h) (coords.drop axis) (dims.drop axis)
  rw [List.take_append_drop, List.take_append_drop] at parts
  rw [parts]
  congr 1
  rw [List.drop_eq_getElem_cons inside, List.drop_eq_getElem_cons within]
  rfl

/-- Where each coordinate lies below its dimension. -/
theorem fits_iff {coords dims : List UInt32} :
    Fits coords dims ↔ coords.length = dims.length ∧
      ∀ (j : Nat) (i d : UInt32), coords[j]? = some i → dims[j]? = some d → i < d := by
  unfold Fits
  rw [List.forall₂_iff_get]
  refine and_congr_right fun _ => ⟨fun h j i d hi hd => ?_, fun h j hi hd => ?_⟩
  · obtain ⟨inside, rfl⟩ := List.getElem?_eq_some_iff.1 hi
    obtain ⟨within, rfl⟩ := List.getElem?_eq_some_iff.1 hd
    exact h j inside within
  · exact h j _ _ (List.getElem?_eq_getElem hi) (List.getElem?_eq_getElem hd)

namespace Forest

/-- The coordinate along the axis may be exchanged for any below the extent of an input. -/
theorem Along.fits_set {shape input : Shape} {axis : Nat} (along : Along shape axis input)
    {coords : List UInt32} (h : Fits coords shape.dims) {i : UInt32}
    (below : i.toNat < extentAlong axis input) : Fits (coords.set axis i) input.dims := by
  obtain ⟨length, fits⟩ := fits_iff.1 h
  refine fits_iff.2 ⟨?_, fun j a d ha hd => ?_⟩
  · rw [List.length_set, length]
    exact along.1.symm
  · by_cases other : j = axis
    · subst other
      obtain ⟨inside, -⟩ := List.getElem?_eq_some_iff.1 ha
      rw [List.getElem?_set_self (by simpa using inside)] at ha
      obtain rfl := Option.some.inj ha
      unfold extentAlong at below
      rw [List.getD_eq_getElem?_getD, hd] at below
      exact UInt32.lt_iff_toNat_lt.2 below
    · rw [List.getElem?_set_ne (Ne.symm other)] at ha
      exact fits j a d ha (along.2 j other ▸ hd)

/-- A coordinate that fits lies below the extent along its axis. -/
theorem lt_extentAlong {shape : Shape} {axis : Nat} {coords : List UInt32} {i : UInt32}
    (h : Fits coords shape.dims) (found : coords[axis]? = some i) :
    i.toNat < extentAlong axis shape := by
  obtain ⟨length, fits⟩ := fits_iff.1 h
  obtain ⟨inside, -⟩ := List.getElem?_eq_some_iff.1 found
  have there : shape.dims[axis]? = some (shape.dims.getD axis 0) := by
    rw [List.getD_eq_getElem?_getD, List.getElem?_eq_getElem (length ▸ inside)]
    rfl
  exact UInt32.lt_iff_toNat_lt.1 (fits axis i _ found there)

/-- The number of a cell of an input, by that of the row it shares with a cell of the whole. -/
theorem Along.number_set {shape input : Shape} {axis : Nat} (along : Along shape axis input)
    (inside : axis < shape.rank) {coords : List UInt32} (h : Fits coords shape.dims) {i : UInt32}
    (below : i.toNat < extentAlong axis input) :
    number input.dims (coords.set axis i) =
      number (shape.dims.take axis) (coords.take axis) * product (input.dims.drop axis) +
        (i.toNat * product (shape.dims.drop (axis + 1)) +
          number (shape.dims.drop (axis + 1)) (coords.drop (axis + 1))) := by
  have within : axis < coords.length := (fits_iff.1 h).1 ▸ inside
  have parts := number_eq_of_axis (along.fits_set h below) (List.getElem?_set_self within)
  rw [parts, along.take_eq, along.drop_eq, List.take_set_of_le (Nat.le_refl axis),
    List.drop_set_of_lt (Nat.lt_succ_self axis)]

/-! ## Blocks one behind the other -/

/-- What stands in the block of one element of a list. -/
theorem getElem?_flatMap {β γ : Type} {xs : List β} (g : β → List γ) {k j : Nat} {x : β}
    (found : xs[k]? = some x) (inside : j < (g x).length) :
    (xs.flatMap g)[((xs.take k).map fun x => (g x).length).sum + j]? = (g x)[j]? := by
  obtain ⟨within, rfl⟩ := List.getElem?_eq_some_iff.1 found
  have split : xs.flatMap g = (xs.take k).flatMap g ++ (g xs[k] ++ (xs.drop (k + 1)).flatMap g) := by
    rw [← List.flatMap_cons, ← List.flatMap_append, ← List.drop_eq_getElem_cons,
      List.take_append_drop]
  rw [split, List.getElem?_append_right (by rw [List.length_flatMap]; exact Nat.le_add_right ..),
    List.length_flatMap, Nat.add_sub_cancel_left, List.getElem?_append_left inside]

section

variable {count : Nat} {blocks : List (Dense × Nat)}
  (sizes : ∀ block ∈ blocks, block.1.size = count * block.2)

include sizes

/-- What stands in joined rows, by the row, the block and the place in the row of the block. -/
theorem getElem?_joinRows {row k j width : Nat} {bits : Dense}
    (found : blocks[k]? = some (bits, width)) (inside : row < count) (within : j < width) :
    (joinRows count blocks)[row * (blocks.map Prod.snd).sum +
      (((blocks.take k).map Prod.snd).sum + j)]? = bits[row * width + j]? := by
  let slice (i : Nat) (block : Dense × Nat) : List Bool :=
    (block.1.extract (i * block.2) ((i + 1) * block.2)).toList
  have size : bits.size = count * width := sizes _ (List.mem_of_getElem? found)
  have length : (slice row (bits, width)).length = width := length_slice size inside
  -- the block within its row
  have front : (blocks.take k).map (fun block => (slice row block).length) =
      (blocks.take k).map Prod.snd :=
    List.map_congr_left fun block hmem =>
      length_slice (sizes block (List.mem_of_mem_take hmem)) inside
  have block := getElem?_flatMap (slice row) found (length.symm ▸ within)
  rw [front] at block
  -- the row within the whole
  have above : ((List.range count).take row).map (fun i => (blocks.flatMap (slice i)).length) =
      List.replicate row (blocks.map Prod.snd).sum := by
    rw [List.take_range, Nat.min_eq_left (Nat.le_of_lt inside)]
    rw [List.map_congr_left fun i hi =>
      length_slices sizes (Nat.lt_trans (List.mem_range.1 hi) inside)]
    rw [List.map_const', List.length_range]
  obtain ⟨b, there⟩ : ∃ b, (slice row (bits, width))[j]? = some b :=
    ⟨_, List.getElem?_eq_getElem (length.symm ▸ within)⟩
  obtain ⟨lt, -⟩ := List.getElem?_eq_some_iff.1 (block.trans there)
  have whole := getElem?_flatMap (fun i => blocks.flatMap (slice i))
    (List.getElem?_range inside) lt
  rw [above, List.sum_replicate_nat] at whole
  unfold joinRows
  rw [List.getElem?_toArray]
  refine (whole.trans block).trans ?_
  show (bits.extract (row * width) ((row + 1) * width)).toList[j]? = _
  rw [Array.getElem?_toList, Array.getElem?_extract, if_pos]
  have stop : (row + 1) * width ≤ bits.size := size ▸ Nat.mul_le_mul_right width inside
  rw [Nat.min_eq_left stop, Nat.succ_mul]
  omega

/-- Joining keeps the number of bits that are set. -/
theorem sum_joinRows : (joinRows count blocks).sum = (blocks.map fun block => block.1.sum).sum := by
  have rows : ∀ m ≤ count, ((List.range m).flatMap fun row => blocks.flatMap fun block =>
      (block.1.extract (row * block.2) ((row + 1) * block.2)).toList).count true =
        (blocks.map fun block => (block.1.toList.take (m * block.2)).count true).sum := by
    intro m
    induction m with
    | zero => simp
    | succ m ih =>
        intro le
        rw [List.range_succ, List.flatMap_append, List.count_append, ih (by omega),
          List.flatMap_singleton, List.count_flatMap, ← List.sum_map_add]
        congr 1
        apply List.map_congr_left
        intro block _
        show _ + (block.1.extract (m * block.2) ((m + 1) * block.2)).toList.count true = _
        rw [Nat.succ_mul, List.take_add, List.count_append, Array.toList_extract,
          List.extract_eq_take_drop, Nat.add_sub_cancel_left]
  unfold joinRows Dense.sum
  rw [List.count_toArray]
  refine (rows count (Nat.le_refl count)).trans ?_
  congr 1
  apply List.map_congr_left
  intro block hmem
  rw [List.take_of_length_le (by simp [sizes block hmem]), Array.count_toList]

end

/-! ## Joining sets of cells -/

/-- How far along an axis a shape begins when shapes are joined. -/
def offset (axis : Nat) (shapes : List Shape) (k : Nat) : Nat :=
  ((shapes.take k).map (extentAlong axis)).sum

/-- Places below a sum of extents are covered by one of them. -/
theorem exists_covering {extents : List Nat} {i : Nat} (h : i < extents.sum) :
    ∃ k e, extents[k]? = some e ∧ (extents.take k).sum ≤ i ∧ i < (extents.take k).sum + e := by
  induction extents generalizing i with
  | nil => cases h
  | cons e rest ih =>
      by_cases first : i < e
      · exact ⟨0, e, rfl, Nat.zero_le _, by simpa using first⟩
      · obtain ⟨k, d, found, low, high⟩ := ih (i := i - e) (by rw [List.sum_cons] at h; omega)
        refine ⟨k + 1, d, found, ?_, ?_⟩
        · rw [List.take_succ_cons, List.sum_cons]
          omega
        · rw [List.take_succ_cons, List.sum_cons]
          omega

/-- The cells that several snapshots come to when they are joined. -/
def joinedCells (shape : Shape) (axis : Nat) (pieces : List Snapshot) : Sparse :=
  (joinRows (product (shape.dims.take axis)) (pieces.map fun s =>
    (Dense.ofSparse s.shape.size s.cells, product (s.shape.dims.drop axis)))).toSparse

variable {shape : Shape} {axis : Nat} {pieces : List Snapshot}

/-- The bits of a snapshot are as many rows as the whole has. -/
theorem size_eq_of_along (along : ∀ s ∈ pieces, Along shape axis s.shape) :
    ∀ block ∈ pieces.map fun s =>
        (Dense.ofSparse s.shape.size s.cells, product (s.shape.dims.drop axis)),
      block.1.size = product (shape.dims.take axis) * block.2 := by
  rintro block hmem
  obtain ⟨s, hs, rfl⟩ := List.mem_map.1 hmem
  show (Dense.ofSparse s.shape.size s.cells).size = _
  rw [Dense.size_ofSparse, ← (along s hs).take_eq, product_take_mul_drop]
  rfl

/-- Joining keeps the number of cells. -/
theorem length_joinedCells (along : ∀ s ∈ pieces, Along shape axis s.shape)
    (sets : ∀ s ∈ pieces, Sparse.IsSet s.shape.size s.cells) :
    (joinedCells shape axis pieces).length = (pieces.map fun s => s.cells.length).sum := by
  unfold joinedCells
  rw [Dense.length_toSparse, sum_joinRows (size_eq_of_along along), List.map_map]
  congr 1
  apply List.map_congr_left
  intro s hs
  show (Dense.ofSparse s.shape.size s.cells).sum = _
  rw [← Dense.length_toSparse, Dense.toSparse_ofSparse (sets s hs) (Nat.le_of_lt s.shape.bounded)]

/-- The rows of pieces are together as wide as their extents say. -/
theorem sum_widths (inside : axis < shape.rank) (along : ∀ s ∈ pieces, Along shape axis s.shape) :
    (pieces.map fun s => product (s.shape.dims.drop axis)).sum =
      ((pieces.map Snapshot.shape).map (extentAlong axis)).sum *
        product (shape.dims.drop (axis + 1)) := by
  have alongs : ∀ t ∈ pieces.map Snapshot.shape, Along shape axis t := by
    intro t ht
    obtain ⟨s, hs, rfl⟩ := List.mem_map.1 ht
    exact along s hs
  rw [← sum_product_drop inside alongs, List.map_map]
  rfl

/-- A row of the whole is as wide as those of the pieces together. -/
theorem sum_widths_eq (inside : axis < shape.rank)
    (along : ∀ s ∈ pieces, Along shape axis s.shape)
    (extents : ((pieces.map Snapshot.shape).map (extentAlong axis)).sum = extentAlong axis shape) :
    (pieces.map fun s => product (s.shape.dims.drop axis)).sum = product (shape.dims.drop axis) := by
  have whole : Along shape axis shape := ⟨rfl, fun _ _ => rfl⟩
  rw [sum_widths inside along, extents, whole.product_drop inside]

/-- There is one bit for every cell of the whole. -/
theorem size_joinRows_eq (inside : axis < shape.rank)
    (along : ∀ s ∈ pieces, Along shape axis s.shape)
    (extents : ((pieces.map Snapshot.shape).map (extentAlong axis)).sum = extentAlong axis shape) :
    (joinRows (product (shape.dims.take axis)) (pieces.map fun s =>
      (Dense.ofSparse s.shape.size s.cells, product (s.shape.dims.drop axis)))).size =
        shape.size := by
  rw [size_joinRows (size_eq_of_along along), List.map_map]
  show _ * (pieces.map fun s => product (s.shape.dims.drop axis)).sum = _
  rw [sum_widths_eq inside along extents, product_take_mul_drop]
  rfl

/-- The bit of a cell of the whole is that of the cell which corresponds to it in a piece. -/
theorem getElem?_joinRows_number (inside : axis < shape.rank)
    (along : ∀ s ∈ pieces, Along shape axis s.shape)
    (extents : ((pieces.map Snapshot.shape).map (extentAlong axis)).sum = extentAlong axis shape)
    {coords : List UInt32} (fits : Fits coords shape.dims) {i j : UInt32}
    (found : coords[axis]? = some i) {k : Nat} {s : Snapshot} (piece : pieces[k]? = some s)
    (covers : i.toNat = offset axis (pieces.map Snapshot.shape) k + j.toNat)
    (below : j.toNat < extentAlong axis s.shape) :
    (joinRows (product (shape.dims.take axis)) (pieces.map fun s =>
      (Dense.ofSparse s.shape.size s.cells, product (s.shape.dims.drop axis))))[
        number shape.dims coords]? =
      (Dense.ofSparse s.shape.size s.cells)[number s.shape.dims (coords.set axis j)]? := by
  have here : Along shape axis s.shape := along s (List.mem_of_getElem? piece)
  have width := here.product_drop inside
  have row := number_lt_product (List.forall₂_take axis fits)
  have low := number_lt_product (List.forall₂_drop (axis + 1) fits)
  -- how wide the rows of all pieces are, and those of the pieces in front
  have total := sum_widths_eq inside along extents
  have front : ((pieces.take k).map fun s => product (s.shape.dims.drop axis)).sum =
      offset axis (pieces.map Snapshot.shape) k * product (shape.dims.drop (axis + 1)) := by
    rw [offset, ← List.map_take]
    exact sum_widths inside fun s hs => along s (List.mem_of_mem_take hs)
  have number_whole := number_eq_of_axis fits found
  have number_piece := here.number_set inside fits below
  generalize number (shape.dims.take axis) (coords.take axis) = r at *
  generalize number (shape.dims.drop (axis + 1)) (coords.drop (axis + 1)) = l at *
  generalize product (shape.dims.drop (axis + 1)) = w at *
  have within : j.toNat * w + l < product (s.shape.dims.drop axis) := by
    rw [width]
    calc j.toNat * w + l < j.toNat * w + w := Nat.add_lt_add_left low _
      _ = (j.toNat + 1) * w := (Nat.succ_mul _ _).symm
      _ ≤ extentAlong axis s.shape * w := Nat.mul_le_mul_right w below
  have block : (pieces.map fun s => ((Dense.ofSparse s.shape.size s.cells,
      product (s.shape.dims.drop axis)) : Dense × Nat))[k]? =
        some (Dense.ofSparse s.shape.size s.cells, product (s.shape.dims.drop axis)) := by
    rw [List.getElem?_map, piece]
    rfl
  have place : number shape.dims coords =
      r * (pieces.map fun s => product (s.shape.dims.drop axis)).sum +
        (((pieces.take k).map fun s => product (s.shape.dims.drop axis)).sum +
          (j.toNat * w + l)) := by
    rw [total, front, number_whole, covers, Nat.add_mul, Nat.add_assoc]
  have bit := getElem?_joinRows (size_eq_of_along along) block row within
  rw [List.map_map, ← List.map_take, List.map_map] at bit
  rw [number_piece, place]
  exact bit

/-- Going back along an axis no further than to its beginning. -/
theorem toNat_sub_of_le {i : UInt32} {start : Nat} (h : start ≤ i.toNat) :
    (i - start.toUInt32).toNat = i.toNat - start := by
  have word : start.toUInt32.toNat = start :=
    UInt32.toNat_ofNat_of_lt' (Nat.lt_of_le_of_lt h i.toNat_lt)
  rw [UInt32.toNat_sub_of_le _ _ (UInt32.le_iff_toNat_le.2 (by rwa [word])), word]

/-- A cell is in the joined set exactly when the cell that corresponds to it is in the piece that
covers it. -/
theorem mem_joinedCells (inside : axis < shape.rank)
    (along : ∀ s ∈ pieces, Along shape axis s.shape)
    (extents : ((pieces.map Snapshot.shape).map (extentAlong axis)).sum = extentAlong axis shape)
    {coords : List UInt32} (fits : Fits coords shape.dims) {i : UInt32}
    (found : coords[axis]? = some i) {k : Nat} {s : Snapshot} (piece : pieces[k]? = some s)
    (low : offset axis (pieces.map Snapshot.shape) k ≤ i.toNat)
    (high : i.toNat < offset axis (pieces.map Snapshot.shape) k + extentAlong axis s.shape) :
    shape.ravel coords ∈ joinedCells shape axis pieces ↔
      s.shape.ravel (coords.set axis
        (i - (offset axis (pieces.map Snapshot.shape) k).toUInt32)) ∈ s.cells := by
  have back := toNat_sub_of_le low
  generalize i - (offset axis (pieces.map Snapshot.shape) k).toUInt32 = j at back ⊢
  have below : j.toNat < extentAlong axis s.shape := by omega
  have covers : i.toNat = offset axis (pieces.map Snapshot.shape) k + j.toNat := by omega
  have here := (along s (List.mem_of_getElem? piece)).fits_set fits below
  have bit := getElem?_joinRows_number inside along extents fits found piece covers below
  rw [← Shape.toNat_ravel fits, ← Shape.toNat_ravel here] at bit
  have bounded := size_joinRows_eq inside along extents
  rw [joinedCells, Dense.mem_toSparse (bounded ▸ Nat.le_of_lt shape.bounded), bit,
    Dense.getElem?_ofSparse_eq_true_iff (Shape.toNat_ravel_lt here)]

end Forest

end SparseTensor
