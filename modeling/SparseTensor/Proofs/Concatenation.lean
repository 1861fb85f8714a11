/-
# Concatenation

What can be joined is a matter of the outlook: a canonical node, an axis of it, and inputs that can be
read, agree with it off the axis and add up to it (`Forest.Fitting`).  Everything else is refused, and
nothing is lost by trying (`concatenate_joins_inputs`).

What comes of joining is said by calls, before and afterwards (`Forest.Joins`): the sum of the node is
that of the sums which the inputs had, and each of its cells is active if the cell was that lies at the
same place of the input which covers it.  Listeners hear of the change in between, and whatever they
do the value is there when it is over.
-/
import SparseTensor.Proofs.Answers
import SparseTensor.Proofs.JoinedCells

namespace SparseTensor

variable {α G : Type}

/-! ## When there is something to join -/

namespace Outlook

variable {o : Outlook} {id : NodeId} {inputs : List NodeId} {axis : Nat}

/-- A node can be read, and a snapshot of it would be this. -/
def Shows (o : Outlook) (id : NodeId) (s : Snapshot) : Prop :=
  ∃ x, o id = .ok x ∧ x.shape = s.shape ∧ x.cells = .ok s.cells

/-- The bits of the inputs are those of their snapshots. -/
theorem inputBits_eq_ok_iff {blocks : List (Dense × Nat)} :
    o.inputBits axis inputs = .ok blocks ↔ ∃ pieces, List.Forall₂ o.Shows inputs pieces ∧
      blocks = pieces.map fun s =>
        (Dense.ofSparse s.shape.size s.cells, product (s.shape.dims.drop axis)) := by
  induction inputs generalizing blocks with
  | nil =>
      constructor
      · rintro ⟨⟩
        exact ⟨[], .nil, rfl⟩
      · rintro ⟨_, ⟨⟩, rfl⟩
        rfl
  | cons input inputs ih =>
      unfold inputBits
      constructor
      · intro h
        obtain ⟨x, seen, h⟩ := exists_of_bind_eq_ok h
        obtain ⟨cells, shows, h⟩ := exists_of_bind_eq_ok h
        obtain ⟨rest, bits, h⟩ := exists_of_bind_eq_ok h
        cases h
        obtain ⟨pieces, all, rfl⟩ := ih.1 bits
        exact ⟨⟨x.shape, cells⟩ :: pieces, .cons ⟨x, seen, rfl, shows⟩ all, rfl⟩
      · rintro ⟨_, _ | ⟨⟨x, seen, shape, shows⟩, all⟩, rfl⟩
        rw [seen]
        show (x.cells >>= _) = _
        rw [shows]
        show (o.inputBits axis inputs >>= _) = _
        rw [ih.2 ⟨_, all, rfl⟩, shape]
        rfl

/-- The shapes of the inputs are those of their snapshots. -/
theorem mapM_shape_eq {pieces : List Snapshot} (h : List.Forall₂ o.Shows inputs pieces) :
    (inputs.mapM fun input => return (← o input).shape) = .ok (pieces.map Snapshot.shape) := by
  induction h with
  | nil => rfl
  | cons first _ ih =>
      obtain ⟨x, seen, shape, -⟩ := first
      rw [List.mapM_cons, ih, seen]
      show Except.ok (x.shape :: _) = _
      rw [shape]
      rfl

/-- Inputs are joined exactly when they fit a canonical node, and to what their snapshots are. -/
theorem joined_eq_ok_iff {cells : Sparse} :
    o.joined id inputs axis = .ok cells ↔ ∃ x pieces, o id = .ok x ∧ x.isView = false ∧
      axis < x.shape.rank ∧ inputs ≠ [] ∧ List.Forall₂ o.Shows inputs pieces ∧
        Forest.checkExtents x.shape axis (pieces.map Snapshot.shape) = .ok () ∧
          cells = Forest.joinedCells x.shape axis pieces := by
  unfold joined mutable
  constructor
  -- every check that is passed leaves one of the conditions
  · intro h
    obtain ⟨x, seen, h⟩ := exists_of_bind_eq_ok h
    obtain ⟨y, seen, canonical⟩ := exists_of_bind_eq_ok seen
    by_cases view : y.isView = true
    · rw [if_pos view] at canonical
      cases canonical
    rw [if_neg view] at canonical
    cases canonical
    by_cases outside : x.shape.rank ≤ axis
    · rw [if_pos outside] at h
      cases h
    rw [if_neg outside] at h
    by_cases nothing : inputs.isEmpty = true
    · rw [if_pos nothing] at h
      cases h
    rw [if_neg nothing] at h
    obtain ⟨shapes, found, h⟩ := exists_of_bind_eq_ok h
    obtain ⟨⟨⟩, admitted, h⟩ := exists_of_bind_eq_ok h
    obtain ⟨blocks, bits, h⟩ := exists_of_bind_eq_ok h
    cases h
    obtain ⟨pieces, all, rfl⟩ := inputBits_eq_ok_iff.1 bits
    cases found.symm.trans (mapM_shape_eq all)
    refine ⟨x, pieces, seen, eq_false_of_ne_true view, Nat.lt_of_not_le outside, ?_, all, ?_, rfl⟩
    · rintro rfl
      exact nothing rfl
    · cases fit : Forest.checkExtents x.shape axis (pieces.map Snapshot.shape) with
      | ok _ => rfl
      | error fault =>
          rw [fit] at admitted
          cases admitted
  · rintro ⟨x, pieces, seen, canonical, inside, some, all, fit, rfl⟩
    have something : ¬ inputs.isEmpty = true := fun h => some (List.isEmpty_iff.1 h)
    rw [seen]
    show (if x.isView = true then _ else _) >>= _ = _
    rw [if_neg (by simp [canonical])]
    show (if x.shape.rank ≤ axis then _ else _) = _
    rw [if_neg (Nat.not_le.2 inside), if_neg something, mapM_shape_eq all]
    show (accept (Forest.checkExtents x.shape axis (pieces.map Snapshot.shape)) >>= _) = _
    rw [fit]
    show (o.inputBits axis inputs >>= _) = _
    rw [inputBits_eq_ok_iff.2 ⟨pieces, all, rfl⟩]
    rfl

end Outlook

namespace Forest

variable {β : Type} {f : Forest α} {id : NodeId} {cells : Sparse}

/-! ## Joining nodes -/

/-- Inputs fit a node along an axis: it is canonical, there is at least one input, all of them can be
read and agree with it off the axis, and along the axis they add up to it. -/
structure Fitting (f : Forest α) (id : NodeId) (inputs : List NodeId) (axis : Nat) (shape : Shape)
    (shapes : List Shape) : Prop where
  receiver : ∃ n, f.available? id = some n ∧ n.role = .canonical ∧ n.shape = shape
  inside : axis < shape.rank
  nonempty : inputs ≠ []
  readable : List.Forall₂ f.Readable inputs shapes
  along : ∀ s ∈ shapes, Along shape axis s
  extents : (shapes.map (extentAlong axis)).sum = extentAlong axis shape

/-- A node has become what the inputs were, end to end along an axis. -/
structure Joins (f : Forest α) (id : NodeId) (inputs : List NodeId) (axis : Nat) (shape : Shape)
    (shapes : List Shape) (g : Forest α) : Prop where
  sum : ∃ counts, List.Forall₂ (fun input k => f.Answers (Forest.sum input) k) inputs counts ∧
    g.Answers (Forest.sum id) counts.sum
  /-- The input that covers a coordinate had the cell that lies as far from its beginning. -/
  isActive : ∀ coords i, Fits coords shape.dims → coords[axis]? = some i →
    ∃ k input s active, inputs[k]? = some input ∧ shapes[k]? = some s ∧
      offset axis shapes k ≤ i.toNat ∧ i.toNat < offset axis shapes k + extentAlong axis s ∧
        f.Answers (Forest.isActive input (coords.set axis (i - (offset axis shapes k).toUInt32)))
            active ∧
          g.Answers (Forest.isActive id coords) active

/-- A node shows a snapshot when it is lent out and can be read. -/
theorem shows_iff {s : Snapshot} : f.outlook.Shows id s ↔
    ∃ n, f.available? id = some n ∧ n.shape = s.shape ∧ f.shown id = .ok s.cells := by
  unfold Outlook.Shows
  constructor
  · rintro ⟨x, seen, shape, shows⟩
    cases found : f.available? id with
    | none =>
        rw [outlook_of_none found] at seen
        cases seen
    | some n =>
        rw [outlook_of_some found] at seen
        cases seen
        exact ⟨n, rfl, shape, shows⟩
  · rintro ⟨n, found, shape, shows⟩
    exact ⟨f.sight id n, outlook_of_some found, shape, shows⟩

/-- Nodes can be read when there are snapshots that they show. -/
theorem forall₂_readable_iff (sound : f.Sound) {inputs : List NodeId} {shapes : List Shape} :
    List.Forall₂ f.Readable inputs shapes ↔
      ∃ pieces, List.Forall₂ f.outlook.Shows inputs pieces ∧ pieces.map Snapshot.shape = shapes := by
  constructor
  · intro h
    induction h with
    | nil => exact ⟨[], .nil, rfl⟩
    | @cons input shape inputs shapes first _ ih =>
        obtain ⟨⟨n, found, rfl⟩, cells, answered⟩ := first
        obtain ⟨pieces, all, rfl⟩ := ih
        have shows : f.outlook.Shows input ⟨n.shape, cells⟩ :=
          shows_iff.2 ⟨n, found, rfl, (answers_sparse_iff sound found).1 answered⟩
        exact ⟨_, .cons shows all, rfl⟩
  · rintro ⟨pieces, all, rfl⟩
    refine List.forall₂_map_right_iff.2 (all.imp fun input s shows => ?_)
    obtain ⟨n, found, shape, shows⟩ := shows_iff.1 shows
    exact ⟨⟨n, found, shape⟩, s.cells, (answers_sparse_iff sound found).2 shows⟩

/-- Inputs are joined exactly when they fit. -/
theorem joined_outlook_iff (sound : f.Sound) {inputs : List NodeId} {axis : Nat} :
    f.outlook.joined id inputs axis = .ok cells ↔ ∃ shape pieces,
      f.Fitting id inputs axis shape (pieces.map Snapshot.shape) ∧
        List.Forall₂ f.outlook.Shows inputs pieces ∧ cells = joinedCells shape axis pieces := by
  rw [Outlook.joined_eq_ok_iff]
  constructor
  · rintro ⟨x, pieces, seen, canonical, inside, nonempty, all, fit, rfl⟩
    obtain ⟨along, extents⟩ := checkExtents_eq_ok_iff.1 fit
    refine ⟨x.shape, pieces, ⟨?_, inside, nonempty, ?_, along, extents⟩, all, rfl⟩
    · cases found : f.available? id with
      | none =>
          rw [outlook_of_none found] at seen
          cases seen
      | some n =>
          rw [outlook_of_some found] at seen
          cases seen
          refine ⟨n, rfl, ?_, rfl⟩
          cases role : n.role with
          | canonical => rfl
          | view link =>
              simp [sight, role, Role.isView] at canonical
    · exact (forall₂_readable_iff sound).2 ⟨pieces, all, rfl⟩
  · rintro ⟨shape, pieces, fits, all, rfl⟩
    obtain ⟨n, found, role, rfl⟩ := fits.receiver
    refine ⟨f.sight id n, pieces, outlook_of_some found, ?_, fits.inside, fits.nonempty, all,
      checkExtents_eq_ok_iff.2 ⟨fits.along, fits.extents⟩, rfl⟩
    simp [sight, role, Role.isView]

/-- What stands at a place of one list goes with what stands there in the other. -/
theorem exists_of_forall₂ {γ : Type} {R : β → γ → Prop} {xs : List β} {ys : List γ}
    (h : List.Forall₂ R xs ys) {k : Nat} {y : γ} (found : ys[k]? = some y) :
    ∃ x, xs[k]? = some x ∧ R x y := by
  obtain ⟨inside, rfl⟩ := List.getElem?_eq_some_iff.1 found
  obtain ⟨length, related⟩ := List.forall₂_iff_get.1 h
  have within : k < xs.length := length ▸ inside
  exact ⟨xs[k], List.getElem?_eq_getElem within, related k within inside⟩

/-- A node that has the joined cells of snapshots has become what the inputs were that show them. -/
theorem Fitting.joins {g : Forest α} {inputs : List NodeId} {axis : Nat} {shape : Shape}
    {pieces : List Snapshot} (fits : f.Fitting id inputs axis shape (pieces.map Snapshot.shape))
    (all : List.Forall₂ f.outlook.Shows inputs pieces) (sound : f.Sound) (sound' : g.Sound)
    {m : Node α} (found : g.available? id = some m) (same : m.shape = shape)
    (shows : g.shown id = .ok (joinedCells shape axis pieces)) :
    f.Joins id inputs axis shape (pieces.map Snapshot.shape) g := by
  have along : ∀ s ∈ pieces, Along shape axis s.shape := fun s hs =>
    fits.along _ (List.mem_map_of_mem hs)
  constructor
  · refine ⟨pieces.map fun s => s.cells.length, ?_, ?_⟩
    · refine List.forall₂_map_right_iff.2 (all.imp fun input s shows => ?_)
      obtain ⟨n, there, -, shows⟩ := shows_iff.1 shows
      exact answers_sum sound there shows
    · have sets : ∀ s ∈ pieces, Sparse.IsSet s.shape.size s.cells := by
        intro s hs
        obtain ⟨k, piece⟩ := List.mem_iff_getElem?.1 hs
        obtain ⟨input, -, shown⟩ := exists_of_forall₂ all piece
        obtain ⟨n, there, shape, shown⟩ := shows_iff.1 shown
        exact shape ▸ isSet_shown sound (Option.filter_eq_some_iff.1 there).1 shown
      rw [← length_joinedCells along sets]
      exact answers_sum sound' found shows
  · intro coords i hcoords digit
    have below : i.toNat < ((pieces.map Snapshot.shape).map (extentAlong axis)).sum :=
      fits.extents ▸ lt_extentAlong hcoords digit
    -- some input covers the digit, and the cell lies in its range along the axis
    obtain ⟨k, e, extent, low, high⟩ := exists_covering below
    rw [← List.map_take, ← offset] at low high
    rw [List.map_map, List.getElem?_map] at extent
    obtain ⟨s, piece, rfl⟩ := Option.map_eq_some_iff.1 extent
    obtain ⟨input, place, shown⟩ := exists_of_forall₂ all piece
    obtain ⟨n, there, same', shown⟩ := shows_iff.1 shown
    have corresponds := mem_joinedCells fits.inside along fits.extents hcoords digit piece low high
    have back : (i - (offset axis (pieces.map Snapshot.shape) k).toUInt32).toNat <
        extentAlong axis s.shape := by
      rw [toNat_sub_of_le low]
      exact Nat.sub_lt_left_of_lt_add low high
    refine ⟨k, input, s.shape, decide (shape.ravel coords ∈ joinedCells shape axis pieces), place,
      ?_, low, high, ?_, ?_⟩
    · rw [List.getElem?_map, piece]
      rfl
    · rw [decide_eq_decide.2 corresponds]
      apply answers_isActive sound there shown same'
      exact (along s (List.mem_of_getElem? piece)).fits_set hcoords back
    · exact answers_isActive sound' found shows same hcoords

end Forest

variable [RandomSource G] [LawfulRandomSource G] {allowed : Situation α → Move α G → Prop}
  {f : Forest α}

/-- Joining nodes by the outlook. -/
theorem Reached.concatenate (reached : Reached allowed (.quiet f)) (react : Reaction α)
    (id : NodeId) (inputs : List NodeId) (axis : Nat) :
    match f.outlook.joined id inputs axis with
    | .ok cells => ∃ n g m, f.available? id = some n ∧
        Forest.concatenate react id inputs axis f = .ok ⟨⟩ g ∧ g.Ordered ∧
          g.available? id = some m ∧ m.shape = n.shape ∧ g.shown id = .ok cells
    | .error fault => ∃ g, Forest.concatenate react id inputs axis f = .error fault g ∧
        f.Reads g := by
  have replaced := reached.replace (Forest.says_joinedValue id inputs axis) react
  cases joined : f.outlook.joined id inputs axis with
  | ok cells =>
      rw [joined] at replaced
      obtain ⟨n, g, m, found, -, done⟩ := replaced
      exact ⟨n, g, m, found, done⟩
  | error fault =>
      rw [joined] at replaced
      exact replaced

/-- Inputs that fit a node are joined, whatever listeners do when they hear of it, and anything else is
refused without an effect: at most encodings are derived and notes taken.  Canonical nodes can always
be read, and so can views that are no orphans, as long as no view has lost its registration. -/
theorem concatenate_joins_inputs (reached : Reached allowed (.quiet f)) (react : Reaction α)
    (id : NodeId) (inputs : List NodeId) (axis : Nat) :
    (∀ shape shapes, f.Fitting id inputs axis shape shapes →
      ∃ g, Forest.concatenate react id inputs axis f = .ok ⟨⟩ g ∧
        f.Joins id inputs axis shape shapes g) ∧
    ((∀ shape shapes, ¬ f.Fitting id inputs axis shape shapes) →
      ∃ fault g, Forest.concatenate react id inputs axis f = .error fault g ∧
        g.trace = f.trace ∧ g.nodes.map Node.bare = f.nodes.map Node.bare ∧
          g.outlook = f.outlook) ∧
    ∀ input n, f.available? input = some n → n.role = .canonical ∨ f.InPlace ∧ n.orphaned = false →
      f.Readable input n.shape := by
  have sound : f.Sound := reached.ordered.forest.sound
  have called := reached.concatenate react id inputs axis
  refine ⟨fun shape shapes fits => ?_, fun unfit => ?_, fun input n found live => ?_⟩
  · obtain ⟨pieces, all, rfl⟩ := (Forest.forall₂_readable_iff sound).1 fits.readable
    rw [(Forest.joined_outlook_iff sound).2 ⟨shape, pieces, fits, all, rfl⟩] at called
    obtain ⟨n, g, m, found, joined, ordered, there, same, shows⟩ := called
    obtain ⟨k, hk, -, rfl⟩ := fits.receiver
    obtain rfl := Option.some.inj (found.symm.trans hk)
    exact ⟨g, joined, fits.joins all sound ordered.sound there same shows⟩
  · cases joined : f.outlook.joined id inputs axis with
    | ok cells =>
        obtain ⟨shape, pieces, fits, -⟩ := (Forest.joined_outlook_iff sound).1 joined
        exact absurd fits (unfit shape _)
    | error fault =>
        rw [joined] at called
        obtain ⟨g, refused, reads⟩ := called
        exact ⟨fault, g, refused, reads.bare.1, reads.bare.2, reads.outlook sound⟩
  · exact reached.readable found live

/-- A view that has not read its parent stands in front of a square. -/
theorem concatenate_joins_inputs_view_and_square :
    let whole : Shape := ⟨[2, 3], by decide, by simp, by decide⟩
    let column : Shape := ⟨[2, 1], by decide, by simp, by decide⟩
    let square : Shape := ⟨[2, 2], by decide, by simp, by decide⟩
    let silent : Reaction Unit := fun _ _ _ => []
    ∃ f : Forest Unit, Reached (fun s (move : Move Unit Generator) => move.Tactful s) (.quiet f) ∧
      (∃ v, f.available? 2 = some v ∧ v.role.isView = true ∧ v.isFresh = false) ∧
      f.Fitting 3 [2, 0] 1 whole [column, square] ∧
      (∃ g, Forest.concatenate silent 3 [2, 0] 1 f = .ok ⟨⟩ g ∧ g.Answers (Forest.sum 3) 3 ∧
        g.Answers (Forest.isActive 3 [1, 2]) true) ∧
      ∃ fault g, Forest.concatenate silent 2 [0] 1 f = .error fault g ∧ g.outlook = f.outlook := by
  intro whole column square silent
  let second : Node Unit :=
    (Snapshot.node ⟨⟨[2], by decide, by simp, by decide⟩, [1]⟩).subscribe (.view 2)
  let f : Forest Unit :=
    ⟨#[Snapshot.node ⟨square, [0, 3]⟩, second, .view column ⟨1, 0⟩, .canonical whole], [], []⟩
  have created : Reached (α := Unit) (G := Generator) (fun s move => move.Tactful s) _ :=
    Reached.start.next (by rintro _ _ ⟨⟩) (.call (.create [2, 2]) rfl)
  have changed := (created.next (by rintro _ _ ⟨⟩) (.call (.mutate 0 (.setSparse [0, 3])) rfl)).next
    (by trivial) .finish
  have again := changed.next (by rintro _ _ ⟨⟩) (.call (.create [2]) rfl)
  have changed := (again.next (by rintro _ _ ⟨⟩) (.call (.mutate 1 (.setSparse [1])) rfl)).next
    (by trivial) .finish
  have viewed := changed.next (by rintro _ _ ⟨⟩) (.call (.reshape 1 [2, 1]) rfl)
  have all := viewed.next (by rintro _ _ ⟨⟩) (.call (.create [2, 3]) rfl)
  have reached : Reached (G := Generator) (fun s move => move.Tactful s) (.quiet f) :=
    all.next (by trivial) .forget
  have sound : f.Sound := reached.ordered.forest.sound
  have view : f.shown 2 = .ok [1] := by
    rw [@Forest.shown_of_stale _ f 2 (.view column ⟨1, 0⟩) ⟨1, 0⟩ rfl rfl rfl rfl (by decide) rfl]
    exact @Forest.shown_of_isFresh _ f 1 second rfl rfl rfl
  have first : f.shown 0 = .ok [0, 3] := @Forest.shown_of_isFresh _ f 0 _ rfl rfl rfl
  obtain ⟨joins, -, readable⟩ := concatenate_joins_inputs reached silent 3 [2, 0] 1
  obtain ⟨along, extents⟩ :=
    (@Forest.checkExtents_eq_ok_iff whole 1 [column, square]).1 rfl
  have fits : f.Fitting 3 [2, 0] 1 whole [column, square] :=
    ⟨⟨_, rfl, rfl, rfl⟩, by decide, by simp,
      .cons (readable 2 _ rfl (.inr ⟨reached.inPlace, rfl⟩))
        (.cons (readable 0 _ rfl (.inl rfl)) .nil), along, extents⟩
  obtain ⟨g, joined, ⟨counts, each, total⟩, cells⟩ := joins whole _ fits
  refine ⟨f, reached, ⟨_, rfl, rfl, rfl⟩, fits, ⟨g, joined, ?_, ?_⟩, ?_⟩
  · obtain _ | ⟨ofView, _ | ⟨ofSquare, ⟨⟩⟩⟩ := each
    obtain rfl := ofView.unique (Forest.answers_sum sound rfl view)
    obtain rfl := ofSquare.unique (Forest.answers_sum sound rfl first)
    exact total
  · obtain ⟨k, input, s, active, place, shape, low, high, was, is⟩ :=
      cells [1, 2] 2 (.cons (by decide) (.cons (by decide) .nil)) rfl
    -- the view covers the first column only
    obtain _ | _ | k := k
    · cases shape
      exact absurd high (by decide)
    · cases place
      cases shape
      have inside : Fits [1, 1] square.dims := .cons (by decide) (.cons (by decide) .nil)
      have there : f.Answers (Forest.isActive 0 [1, 1]) (decide (square.ravel [1, 1] ∈ [0, 3])) :=
        Forest.answers_isActive sound rfl first rfl inside
      have same : ([1, 2] : List UInt32).set 1
          (2 - (Forest.offset 1 [column, square] 1).toUInt32) = [1, 1] := by decide
      rw [same] at was
      obtain rfl := was.unique there
      exact is
    · cases place
  · obtain ⟨-, fails, -⟩ := concatenate_joins_inputs reached silent 2 [0] 1
    obtain ⟨fault, g, refused, -, -, same⟩ := fails fun shape shapes fits => by
      obtain ⟨n, found, role, -⟩ := fits.receiver
      cases found
      cases role
    exact ⟨fault, g, refused, same⟩

end SparseTensor
