/-
# Scenes

A scene is what a forest is about: a canonical node is a shape and a set of cells, a view is a
shape and a parent, and some nodes are gone.  There are no encodings in it, no registrations and
no holders.  A view shows the cells of the canonical node that is found from parent to parent; if
a node on the way is gone, the view is an orphan.

`Scene.turn` answers a command by the scene alone.
-/
import SparseTensor.Proofs.Coherence

namespace SparseTensor

variable {α G : Type}

/-! ## Scenes -/

/-- A node of a scene. -/
inductive Figure
  | canonical (shape : Shape) (cells : Sparse)
  | view (shape : Shape) (parent : NodeId)

namespace Figure

/-- The shape of a node. -/
def shape : Figure → Shape
  | canonical shape _ => shape
  | view shape _ => shape

/-- Whether a node is a view. -/
def isView : Figure → Bool
  | canonical _ _ => false
  | view _ _ => true

/-- A node with other cells, if it is canonical. -/
def store (cells : Sparse) : Figure → Figure
  | canonical shape _ => canonical shape cells
  | view shape parent => view shape parent

end Figure

/-- All nodes that have been created, by their names, and the names of those that are gone. -/
structure Scene where
  figures : Array Figure
  gone : Finset NodeId

namespace Scene

/-- The scene without nodes. -/
def empty : Scene := ⟨#[], ∅⟩

/-- The cells of a node; a view has those of its parent. -/
def cells (c : Scene) (id : NodeId) : Except Fault Sparse :=
  match c.figures[id]? with
  | none => .error .unknownNode
  | some (.canonical _ cells) => .ok cells
  | some (.view _ parent) =>
    if parent < id then
      if parent ∈ c.gone then .error .orphaned else c.cells parent
    else .error .orphaned
termination_by id

/-- What can be seen of a scene.  A node without cells is an orphan. -/
def outlook (c : Scene) : Outlook := fun id =>
  match c.figures[id]? with
  | none => .error .unknownNode
  | some figure =>
    if id ∈ c.gone then .error .unknownNode
    else .ok ⟨figure.shape, figure.isView, (c.cells id).toOption.isNone, c.cells id⟩

/-- The scene after some nodes are destroyed. -/
def lose (c : Scene) (ids : Finset NodeId) : Scene :=
  { c with gone := c.gone ∪ ids }

/-- The scene after something has happened that can be seen. -/
def change (c : Scene) : Happening → Scene
  | .nothing => c
  | .found shape cells => { c with figures := c.figures.push (.canonical shape cells) }
  | .branch parent shape => { c with figures := c.figures.push (.view shape parent) }
  | .stored id cells => { c with figures := c.figures.modify id (Figure.store cells) }
  | .gone id => c.lose {id}

/-- The answer to a command, and the scene behind it. -/
def turn [RandomSource G] (c : Scene) (command : Command α G) :
    Except Fault (Answer G) × Scene :=
  match command.said c.outlook c.figures.size with
  | .error fault => (.error fault, c)
  | .ok (answer, happening) => (.ok answer, c.change happening)

/-! ## Cells -/

/-- A canonical node has its own cells. -/
theorem cells_of_canonical {c : Scene} {id : NodeId} {shape : Shape} {cells : Sparse}
    (found : c.figures[id]? = some (.canonical shape cells)) : c.cells id = .ok cells := by
  unfold Scene.cells
  rw [found]

/-- A view has the cells of its parent, unless that is gone. -/
theorem cells_of_view {c : Scene} {id parent : NodeId} {shape : Shape}
    (found : c.figures[id]? = some (.view shape parent)) (older : parent < id) :
    c.cells id = if parent ∈ c.gone then .error .orphaned else c.cells parent := by
  conv => lhs; unfold Scene.cells
  simp only [found, older, if_true]

/-- Orphans stay orphans as long as views stay what they are and nothing comes back. -/
theorem orphaned_mono {c d : Scene} (gone : c.gone ⊆ d.gone)
    (views : ∀ {i : NodeId} {shape : Shape} {parent : NodeId},
      c.figures[i]? = some (.view shape parent) → d.figures[i]? = some (.view shape parent))
    {id : NodeId} (h : c.cells id = .error .orphaned) : d.cells id = .error .orphaned := by
  induction id using Nat.strongRecOn with
  | ind id ih =>
      unfold Scene.cells at h
      cases found : c.figures[id]? with
      | none => simp [found] at h
      | some figure =>
          cases figure with
          | canonical shape cells => simp [found] at h
          | view shape parent =>
              unfold Scene.cells
              simp only [found] at h
              simp only [views found]
              split
              · rename_i older
                rw [if_pos older] at h
                split
                · rfl
                · rename_i here
                  rw [if_neg fun there => here (gone there)] at h
                  exact ih parent older h
              · rfl

/-- Orphans stay orphans when nodes are destroyed. -/
theorem orphaned_lose {c : Scene} {id : NodeId} (h : c.cells id = .error .orphaned)
    (ids : Finset NodeId) : (c.lose ids).cells id = .error .orphaned :=
  orphaned_mono (c := c) (d := c.lose ids) Finset.subset_union_left (fun found => found) h

/-- Losing nodes at once or one after another. -/
theorem lose_lose (c : Scene) (ids more : Finset NodeId) :
    (c.lose ids).lose more = c.lose (ids ∪ more) := by
  simp only [lose, Finset.union_assoc]

/-- Nodes that are gone already are not lost. -/
theorem lose_of_subset {c : Scene} {ids : Finset NodeId} (h : ids ⊆ c.gone) : c.lose ids = c := by
  simp only [lose, Finset.union_eq_left.2 h]

/-- What is gone stays gone. -/
theorem gone_subset_change (c : Scene) (happening : Happening) :
    c.gone ⊆ (c.change happening).gone := by
  cases happening with
  | gone id => exact Finset.subset_union_left
  | _ => exact fun _ gone => gone

end Scene

/-! ## Portraits -/

/-- A node of a scene is about a node of a forest. -/
def Figure.Draws : Figure → Node α → Prop
  | canonical shape cells, n => n.role = .canonical ∧ n.shape = shape ∧ n.cells = cells
  | view shape parent, n => n.role.isView = true ∧ n.shape = shape ∧
    ∀ link, n.role = .view (some link) → link.parent = parent

/-- A scene is about the forest of a situation. -/
structure Portrays (c : Scene) (s : Situation α) : Prop where
  size : c.figures.size = s.forest.nodes.size
  named : ∀ id ∈ c.gone, id < c.figures.size
  drawn : ∀ {id : NodeId} {n : Node α}, s.forest.nodes[id]? = some n →
    ∃ figure, c.figures[id]? = some figure ∧ figure.Draws n
  gone : ∀ {id : NodeId} {n : Node α}, s.forest.nodes[id]? = some n →
    (id ∈ c.gone ↔ n.available = false ∧ s.changing ≠ some id)
  orphaned : ∀ {id : NodeId} {n : Node α}, s.forest.nodes[id]? = some n → n.available = true →
    n.orphaned = true → c.cells id = .error .orphaned

/-- A canonical node is drawn with its cells. -/
theorem Figure.Draws.canonical {figure : Figure} {n : Node α} (h : figure.Draws n)
    (role : n.role = .canonical) : figure = .canonical n.shape n.cells := by
  cases figure with
  | canonical shape cells =>
      obtain ⟨-, rfl, rfl⟩ := h
      rfl
  | view shape parent =>
      have isView := h.1
      rw [role] at isView
      cases isView

/-- A view that has a link is drawn with its parent. -/
theorem Figure.Draws.view {figure : Figure} {n : Node α} {link : Link} (h : figure.Draws n)
    (role : n.role = .view (some link)) : figure = .view n.shape link.parent := by
  cases figure with
  | canonical shape cells =>
      have canonical := h.1
      rw [role] at canonical
      cases canonical
  | view shape parent =>
      obtain ⟨-, rfl, parents⟩ := h
      rw [parents link role]

theorem Figure.Draws.shape {figure : Figure} {n : Node α} (h : figure.Draws n) :
    figure.shape = n.shape := by
  cases figure with
  | canonical shape cells => exact h.2.1.symm
  | view shape parent => exact h.2.1.symm

theorem Figure.Draws.isView {figure : Figure} {n : Node α} (h : figure.Draws n) :
    figure.isView = n.role.isView := by
  cases figure with
  | canonical shape cells =>
      rw [h.1]
      rfl
  | view shape parent => exact h.1.symm

/-- Between two commands a node shows what it does in the scene, unless it is an orphan. -/
theorem Portrays.shown {c : Scene} {f : Forest α} (h : Portrays c (.quiet f))
    (tidy : (Situation.quiet f).Tidy) {id : NodeId} {n : Node α}
    (found : f.available? id = some n) : f.shown id = c.cells id ∧
      (n.orphaned = true → c.cells id = .error .orphaned) ∧
        (n.orphaned = false → ∃ cells, c.cells id = .ok cells) := by
  induction id using Nat.strongRecOn generalizing n with
  | ind id ih =>
      have roles := tidy.linked.canonical_or_linked found
      obtain ⟨found, lent⟩ := Option.filter_eq_some_iff.1 found
      obtain ⟨figure, drawn, draws⟩ := h.drawn found
      cases live : n.orphaned with
      | true =>
          have orphaned := h.orphaned found lent live
          exact ⟨(Forest.shown_of_orphaned found live).trans orphaned.symm, fun _ => orphaned,
            nofun⟩
      | false =>
          rcases roles live with role | ⟨link, role⟩
          · have fresh := tidy.ordered.forest.sound.canonical found role
            have own := Scene.cells_of_canonical ((draws.canonical role) ▸ drawn)
            exact ⟨(Forest.shown_of_isFresh found live fresh).trans own.symm, nofun,
              fun _ => ⟨_, own⟩⟩
          · obtain ⟨p, parent, parentLive, hook⟩ := tidy.linked.exists_parent found role
            obtain ⟨hp, parentLent⟩ := Option.filter_eq_some_iff.1 parent
            have older := (tidy.ordered.forest.sound.linked found role).1
            obtain ⟨same, -, own⟩ := ih link.parent older parent
            have here : link.parent ∉ c.gone := fun gone => by
              have taken := ((h.gone hp).1 gone).1
              rw [parentLent] at taken
              cases taken
            have passed := Scene.cells_of_view ((draws.view role) ▸ drawn) older
            rw [if_neg here] at passed
            refine ⟨?_, nofun, fun _ => passed ▸ own parentLive⟩
            rw [passed, ← same]
            -- a view that is up to date has the cells of its parent, and any other takes them over
            cases fresh : n.isFresh with
            | true =>
                have told := tidy.coherent link.parent id p n link.token hp hook found fresh
                obtain ⟨parentFresh, cells⟩ := told.resolve_right List.not_mem_nil
                rw [Forest.shown_of_isFresh found live fresh, cells,
                  Forest.shown_of_isFresh (f := f) hp parentLive parentFresh]
            | false =>
                exact Forest.shown_of_stale found live fresh role older
                  (tidy.held.isAlive hp (.inl parentLent))

/-- Between two commands the scene is all that can be seen of the forest. -/
theorem Portrays.outlook {c : Scene} {f : Forest α} (h : Portrays c (.quiet f))
    (tidy : (Situation.quiet f).Tidy) : c.outlook = f.outlook := by
  funext id
  unfold Scene.outlook
  cases found : f.nodes[id]? with
  | none =>
      have outside : c.figures[id]? = none := by
        rw [Array.getElem?_eq_none_iff, h.size]
        exact Array.getElem?_eq_none_iff.1 found
      have unknown : f.available? id = none := by simp [Forest.available?, found]
      rw [outside, Forest.outlook_of_none unknown]
  | some n =>
      obtain ⟨figure, drawn, draws⟩ := h.drawn found
      simp only [drawn]
      cases lent : n.available with
      | false =>
          have unknown : f.available? id = none := by simp [Forest.available?, found, lent]
          rw [if_pos ((h.gone found).2 ⟨lent, nofun⟩), Forest.outlook_of_none unknown]
      | true =>
          have known : f.available? id = some n := Option.filter_eq_some_iff.2 ⟨found, lent⟩
          have here : id ∉ c.gone := fun gone => by
            have taken := ((h.gone found).1 gone).1
            rw [lent] at taken
            cases taken
          obtain ⟨same, orphan, live⟩ := h.shown tidy known
          rw [if_neg here, Forest.outlook_of_some known, Forest.sight, same, draws.shape,
            draws.isView]
          cases orphaned : n.orphaned with
          | true =>
              rw [orphan orphaned]
              rfl
          | false =>
              obtain ⟨cells, own⟩ := live orphaned
              rw [own]
              rfl

end SparseTensor
