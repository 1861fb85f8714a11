/-
# What reading comes to

The cells that a read answers with are those of the nearest node upwards that holds an encoding
(`Forest.shown`).  This is so in every forest whose caches are in order (`Forest.Sound`), whether
or not the views on the way have heard of all changes.

Reading derives encodings and lets views take over the cells of their parents; `Reads` lists
these two steps.  They keep caches in order, change nothing but caches and the log, and leave
every node showing what it showed before (`Reads.shown`).
-/
import SparseTensor.Forest.Read
import SparseTensor.Proofs.Caches

namespace SparseTensor

variable {α β : Type}

/-! ## Nodes -/

namespace Node

/-- The cells that the encodings of a node denote; none if it holds no encoding. -/
def cells (n : Node α) : Sparse :=
  (n.cache.readSparse n.shape).value

/-- Whether a node holds an encoding. -/
def isFresh (n : Node α) : Bool :=
  !n.cache.isStale

/-- A node without its encodings. -/
def bare (n : Node α) : Node α :=
  { n with cache := .stale }

@[simp] theorem shape_bare (n : Node α) : n.bare.shape = n.shape := rfl

@[simp] theorem role_bare (n : Node α) : n.bare.role = n.role := rfl

@[simp] theorem orphaned_bare (n : Node α) : n.bare.orphaned = n.orphaned := rfl

@[simp] theorem registrations_bare (n : Node α) : n.bare.registrations = n.registrations := rfl

@[simp] theorem available_bare (n : Node α) : n.bare.available = n.available := rfl

@[simp] theorem holders_bare (n : Node α) : n.bare.holders = n.holders := rfl

@[simp] theorem nextToken_bare (n : Node α) : n.bare.nextToken = n.nextToken := rfl

/-- The cells of a node are those that its cache holds. -/
theorem cells_eq {n : Node α} {cells : Sparse} (h : n.cache.Holds n.shape cells)
    (fresh : n.isFresh = true) : n.cells = cells :=
  Cache.renders_readSparse.value h (by simpa [isFresh] using fresh)

end Node

namespace Forest

/-- A node of an updated forest. -/
theorem getElem?_update (f : Forest α) (id j : NodeId) (g : Node α → Node α) :
    (f.update id g).nodes[j]? = if id = j then f.nodes[j]?.map g else f.nodes[j]? := by
  simp only [update]
  exact Array.getElem?_modify

/-- Where a node of an updated forest comes from. -/
theorem update_cases {f : Forest α} {id j : NodeId} {g : Node α → Node α} {m : Node α}
    (h : (f.update id g).nodes[j]? = some m) :
    ∃ n, f.nodes[j]? = some n ∧ (id = j ∧ m = g n ∨ id ≠ j ∧ m = n) := by
  rw [getElem?_update] at h
  split at h
  · obtain ⟨n, hn, rfl⟩ := Option.map_eq_some_iff.1 h
    exact ⟨n, hn, .inl ⟨‹id = j›, rfl⟩⟩
  · exact ⟨m, h, .inr ⟨‹id ≠ j›, rfl⟩⟩

/-- What becomes of a node of a forest that is updated. -/
theorem exists_update {f : Forest α} {j : NodeId} {n : Node α} (h : f.nodes[j]? = some n)
    (id : NodeId) (g : Node α → Node α) :
    ∃ m, (f.update id g).nodes[j]? = some m ∧ (id = j ∧ m = g n ∨ id ≠ j ∧ m = n) := by
  rw [getElem?_update, h]
  split
  · exact ⟨g n, rfl, .inl ⟨‹id = j›, rfl⟩⟩
  · exact ⟨n, rfl, .inr ⟨‹id ≠ j›, rfl⟩⟩

/-- The node that is updated. -/
theorem getElem?_update_self {f : Forest α} {id : NodeId} {n : Node α}
    (h : f.nodes[id]? = some n) (g : Node α → Node α) :
    (f.update id g).nodes[id]? = some (g n) := by
  rw [getElem?_update, if_pos rfl, h, Option.map_some]

/-- Where a node of a forest with one node more comes from. -/
theorem push_cases {f g : Forest α} {n m : Node α} (nodes : g.nodes = f.nodes.push n)
    {j : NodeId} (h : g.nodes[j]? = some m) :
    f.nodes[j]? = some m ∨ j = f.nodes.size ∧ m = n := by
  rw [nodes, Array.getElem?_push] at h
  split at h
  · exact .inr ⟨‹j = f.nodes.size›, (Option.some.inj h).symm⟩
  · exact .inl h

/-- Nodes stay when one is added. -/
theorem getElem?_of_push {f g : Forest α} {n m : Node α}
    (nodes : g.nodes = f.nodes.push n) {j : NodeId} (h : f.nodes[j]? = some m) :
    g.nodes[j]? = some m := by
  obtain ⟨inside, rfl⟩ := Array.getElem?_eq_some_iff.1 h
  rw [nodes, Array.getElem?_push_lt inside]

/-- Where a node comes from in a forest that is the same as far as `k` tells. -/
theorem exists_of_map_eq {k : Node α → β} {f g : Forest α} (same : g.nodes.map k = f.nodes.map k)
    {id : NodeId} {m : Node α} (h : g.nodes[id]? = some m) :
    ∃ n, f.nodes[id]? = some n ∧ k m = k n := by
  have there := congrArg (·[id]?) same
  simp only [Array.getElem?_map, h, Option.map_some] at there
  obtain ⟨n, hn, equal⟩ := Option.map_eq_some_iff.1 there.symm
  exact ⟨n, hn, equal.symm⟩

/-! ## Order -/

/-- Caches are in order: each node holds encodings of one set, a canonical node holds one at
least, and a view has as many cells as its parent, which is older. -/
structure Sound (f : Forest α) : Prop where
  holds : ∀ {id : NodeId} {n : Node α}, f.nodes[id]? = some n →
    n.cache.Holds n.shape n.cells
  canonical : ∀ {id : NodeId} {n : Node α}, f.nodes[id]? = some n → n.role = .canonical →
    n.isFresh = true
  linked : ∀ {id : NodeId} {n : Node α} {link : Link}, f.nodes[id]? = some n →
    n.role = .view (some link) →
      link.parent < id ∧ ∃ p, f.nodes[link.parent]? = some p ∧ p.shape.size = n.shape.size

/-- The forest without nodes is in order. -/
theorem sound_empty : Sound (empty : Forest α) where
  holds h := by simp [empty] at h
  canonical h := by simp [empty] at h
  linked h := by simp [empty] at h

/-- Order is a matter of the nodes only. -/
theorem Sound.of_nodes_eq {f g : Forest α} (h : f.Sound) (same : g.nodes = f.nodes) :
    g.Sound where
  holds found := h.holds (same ▸ found)
  canonical found := h.canonical (same ▸ found)
  linked found := same ▸ h.linked (same ▸ found)

/-- A node may be changed if its shape stays, its cache is in order again, and it gets no new
parent. -/
theorem Sound.update {f : Forest α} (h : f.Sound) {id : NodeId} {g : Node α → Node α}
    (shape : ∀ n, (g n).shape = n.shape)
    (role : ∀ n link, (g n).role = .view (some link) → n.role = .view (some link))
    (holds : ∀ n, f.nodes[id]? = some n → (g n).cache.Holds n.shape (g n).cells)
    (canonical : ∀ n, f.nodes[id]? = some n → (g n).role = .canonical → (g n).isFresh = true) :
    (f.update id g).Sound := by
  refine ⟨?_, ?_, ?_⟩
  · intro j m found
    obtain ⟨n, hn, ⟨rfl, rfl⟩ | ⟨-, rfl⟩⟩ := update_cases found
    · rw [shape]
      exact holds n hn
    · exact h.holds hn
  · intro j m found isCanonical
    obtain ⟨n, hn, ⟨rfl, rfl⟩ | ⟨-, rfl⟩⟩ := update_cases found
    · exact canonical n hn isCanonical
    · exact h.canonical hn isCanonical
  · intro j m link found isView
    have kept : ∃ n, f.nodes[j]? = some n ∧ m.shape = n.shape ∧ n.role = .view (some link) := by
      obtain ⟨n, hn, ⟨rfl, rfl⟩ | ⟨-, rfl⟩⟩ := update_cases found
      · exact ⟨n, hn, shape n, role n link isView⟩
      · exact ⟨m, hn, rfl, isView⟩
    obtain ⟨n, hn, hshape, hrole⟩ := kept
    obtain ⟨older, p, hp, same⟩ := h.linked hn hrole
    refine ⟨older, ?_⟩
    rw [getElem?_update, hp]
    split
    · exact ⟨g p, rfl, by rw [shape, hshape, same]⟩
    · exact ⟨p, rfl, by rw [hshape, same]⟩

/-- A node may be added if its cache is in order and it has a parent of its size, if any. -/
theorem Sound.push {f : Forest α} (h : f.Sound) {n : Node α}
    (holds : n.cache.Holds n.shape n.cells)
    (canonical : n.role = .canonical → n.isFresh = true)
    (linked : ∀ link, n.role = .view (some link) →
      ∃ p, f.nodes[link.parent]? = some p ∧ p.shape.size = n.shape.size)
    {g : Forest α} (nodes : g.nodes = f.nodes.push n) : g.Sound := by
  refine ⟨?_, ?_, ?_⟩
  · intro j m found
    rcases push_cases nodes found with found | ⟨-, rfl⟩
    · exact h.holds found
    · exact holds
  · intro j m found isCanonical
    rcases push_cases nodes found with found | ⟨-, rfl⟩
    · exact h.canonical found isCanonical
    · exact canonical isCanonical
  · intro j m link found isView
    rcases push_cases nodes found with found | ⟨rfl, rfl⟩
    · obtain ⟨older, p, hp, same⟩ := h.linked found isView
      exact ⟨older, p, getElem?_of_push nodes hp, same⟩
    · obtain ⟨p, hp, same⟩ := linked link isView
      exact ⟨(Array.getElem?_eq_some_iff.1 hp).1, p, getElem?_of_push nodes hp, same⟩

/-! ## What is shown -/

/-- The cells of the nearest node upwards that holds an encoding, or why there is none. -/
def shown (f : Forest α) (id : NodeId) : Except Fault Sparse :=
  match f.nodes[id]? with
  | none => .error .unknownNode
  | some n =>
    if n.orphaned then .error .orphaned
    else if n.isFresh then .ok n.cells
    else
      match n.role with
      | .canonical => .error .noParent
      | .view none => .error .orphaned
      | .view (some link) =>
        if link.parent < id then
          if f.isAlive link.parent then shown f link.parent else .error .orphaned
        else .error .orphaned
termination_by id

/-- A node that holds an encoding shows its cells. -/
theorem shown_of_isFresh {f : Forest α} {id : NodeId} {n : Node α}
    (found : f.nodes[id]? = some n) (live : n.orphaned = false) (fresh : n.isFresh = true) :
    f.shown id = .ok n.cells := by
  unfold shown
  simp [found, live, fresh]

/-- A stale view shows what its parent shows. -/
theorem shown_of_stale {f : Forest α} {id : NodeId} {n : Node α} {link : Link}
    (found : f.nodes[id]? = some n) (live : n.orphaned = false) (stale : n.isFresh = false)
    (role : n.role = .view (some link)) (older : link.parent < id)
    (alive : f.isAlive link.parent = true) : f.shown id = f.shown link.parent := by
  conv => lhs; unfold shown
  simp [found, live, stale, role, older, alive]

/-- An orphan shows nothing. -/
theorem shown_of_orphaned {f : Forest α} {id : NodeId} {n : Node α}
    (found : f.nodes[id]? = some n) (orphaned : n.orphaned = true) :
    f.shown id = .error .orphaned := by
  unfold shown
  simp [found, orphaned]

/-- What is shown by a node depends on the node, on who is alive, and on what is shown by older
nodes. -/
theorem shown_eq_of_older {f g : Forest α} {j : NodeId} (node : g.nodes[j]? = f.nodes[j]?)
    (alive : ∀ i, g.isAlive i = f.isAlive i) (older : ∀ i < j, g.shown i = f.shown i) :
    g.shown j = f.shown j := by
  unfold shown
  simp only [node, alive]
  split
  · rfl
  split
  · rfl
  split
  · rfl
  split
  · rfl
  · rfl
  split
  · rename_i below
    rw [older _ below]
  · rfl

/-- Only the nodes matter for what is shown. -/
theorem shown_congr {f g : Forest α} (h : g.nodes = f.nodes) (j : NodeId) :
    g.shown j = f.shown j := by
  induction j using Nat.strongRecOn with
  | ind j ih =>
      refine shown_eq_of_older (by rw [h]) (fun i => ?_) ih
      rw [isAlive, isAlive, h]

/-- A change that keeps its holders keeps a node alive or not. -/
theorem isAlive_update {f : Forest α} {id : NodeId} {g : Node α → Node α}
    (holders : ∀ n, (g n).holders = n.holders) (j : NodeId) :
    (f.update id g).isAlive j = f.isAlive j := by
  unfold isAlive
  rw [getElem?_update]
  split
  · simp [Option.any_map, holders]
  · rfl

/-- A node that takes over the cells it shows changes nothing of what is shown anywhere. -/
theorem shown_update_cache {f : Forest α} {id : NodeId} {c : Cache} {n : Node α}
    (found : f.nodes[id]? = some n) (fresh : c.isStale = false)
    (same : n.orphaned = false → f.shown id = .ok (c.readSparse n.shape).value) (j : NodeId) :
    (f.update id fun n => { n with cache := c }).shown j = f.shown j := by
  induction j using Nat.strongRecOn with
  | ind j ih =>
      by_cases here : id = j
      · subst here
        have updated : (f.update id fun n => { n with cache := c }).nodes[id]? =
            some { n with cache := c } := by
          rw [getElem?_update, if_pos rfl, found]
          rfl
        cases orphaned : n.orphaned with
        | true => rw [shown_of_orphaned updated orphaned, shown_of_orphaned found orphaned]
        | false =>
            rw [same orphaned, shown_of_isFresh updated orphaned (by simp [Node.isFresh, fresh])]
            rfl
      · refine shown_eq_of_older ?_ (isAlive_update fun _ => rfl) ih
        rw [getElem?_update, if_neg here]

/-! ## Steps of reading -/

/-- Forests that come from a forest by reading: something is noted, an encoding of a node that
holds one is derived, or a stale view takes over the cells of a parent that holds an encoding. -/
inductive Reads (f : Forest α) : Forest α → Prop
  | refl : Reads f f
  | note {g : Forest α} (notes : List Note) : Reads f g → Reads f (g.noteAll notes)
  | derive {g : Forest α} {id : NodeId} {n : Node α} {c : Cache} :
    Reads f g → g.nodes[id]? = some n → n.isFresh = true → c.isStale = false →
      c.Holds n.shape n.cells → Reads f (g.update id fun n => { n with cache := c })
  | takeOver {g : Forest α} {id : NodeId} {n p : Node α} {link : Link} :
    Reads f g → g.nodes[id]? = some n → n.orphaned = false → n.isFresh = false →
      n.role = .view (some link) → g.isAlive link.parent = true →
        g.nodes[link.parent]? = some p → p.orphaned = false → p.isFresh = true →
          Reads f (g.update id fun n => { n with cache := .ofSparse p.cells })

theorem Reads.trans {f g h : Forest α} (fg : f.Reads g) (gh : g.Reads h) : f.Reads h := by
  induction gh with
  | refl => exact fg
  | note notes _ ih => exact ih.note notes
  | derive _ found fresh held holds ih => exact ih.derive found fresh held holds
  | takeOver _ found live stale role alive parent parentLive parentFresh ih =>
      exact ih.takeOver found live stale role alive parent parentLive parentFresh

/-- Reading keeps caches in order. -/
theorem Reads.sound {f g : Forest α} (h : f.Reads g) (sound : f.Sound) : g.Sound := by
  induction h with
  | refl => exact sound
  | note notes _ ih => exact ih.of_nodes_eq rfl
  | @derive g id n c _ found fresh held holds ih =>
      refine ih.update (fun _ => rfl) (fun _ _ h => h) ?_ ?_
      · intro m hm
        obtain rfl : n = m := Option.some.inj (found.symm.trans hm)
        show c.Holds n.shape (c.readSparse n.shape).value
        rwa [Cache.renders_readSparse.value holds held]
      · intro m hm _
        simpa [Node.isFresh] using held
  | @takeOver g id n p link _ found live stale role alive parent parentLive parentFresh ih =>
      obtain ⟨-, q, hq, size⟩ := ih.linked found role
      obtain rfl : p = q := Option.some.inj (parent.symm.trans hq)
      refine ih.update (fun _ => rfl) (fun _ _ h => h) ?_ fun _ _ _ => rfl
      intro m hm
      obtain rfl : n = m := Option.some.inj (found.symm.trans hm)
      have isSet : Sparse.IsSet n.shape.size p.cells := size ▸ (ih.holds parent).isSet
      exact Cache.holds_ofSparse isSet

/-- Reading changes nothing of what is shown. -/
theorem Reads.shown {f g : Forest α} (h : f.Reads g) (sound : f.Sound) (j : NodeId) :
    g.shown j = f.shown j := by
  induction h with
  | refl => rfl
  | note notes _ ih => exact (shown_congr (nodes_noteAll _ notes) j).trans ih
  | @derive g id n c reads found fresh held holds ih =>
      have same : n.orphaned = false → g.shown id = .ok (c.readSparse n.shape).value := by
        intro live
        rw [shown_of_isFresh found live fresh, Cache.renders_readSparse.value holds held]
      rw [← ih]
      exact shown_update_cache found held same j
  | @takeOver g id n p link reads found live stale role alive parent parentLive parentFresh ih =>
      have older := ((reads.sound sound).linked found role).1
      have same : n.orphaned = false →
          g.shown id = .ok ((Cache.ofSparse p.cells).readSparse n.shape).value := by
        intro live
        rw [shown_of_stale found live stale role older alive,
          shown_of_isFresh parent parentLive parentFresh]
        rfl
      rw [← ih]
      exact shown_update_cache found rfl same j

/-- Reading keeps nodes alive or not. -/
theorem Reads.isAlive {f g : Forest α} (h : f.Reads g) (j : NodeId) :
    g.isAlive j = f.isAlive j := by
  induction h with
  | refl => rfl
  | note _ _ ih => exact ih
  | derive _ _ _ _ _ ih =>
      rw [← ih]
      exact isAlive_update (fun _ => by rfl) j
  | takeOver _ _ _ _ _ _ _ _ _ ih =>
      rw [← ih]
      exact isAlive_update (fun _ => by rfl) j

theorem bare_update_cache (f : Forest α) (id : NodeId) (cache : Cache) :
    (f.update id fun n => { n with cache }).nodes.map Node.bare = f.nodes.map Node.bare := by
  refine Array.ext_getElem? fun j => ?_
  rw [Array.getElem?_map, Array.getElem?_map, getElem?_update]
  split
  · cases f.nodes[j]? <;> rfl
  · rfl

/-- Reading changes nothing but caches and the log. -/
theorem Reads.bare {f g : Forest α} (h : f.Reads g) :
    g.trace = f.trace ∧ g.nodes.map Node.bare = f.nodes.map Node.bare := by
  induction h with
  | refl => exact ⟨rfl, rfl⟩
  | note _ _ ih => exact ih
  | derive _ _ _ _ _ ih => exact ⟨ih.1, (bare_update_cache ..).trans ih.2⟩
  | takeOver _ _ _ _ _ _ _ _ _ ih => exact ⟨ih.1, (bare_update_cache ..).trans ih.2⟩

/-- A node after reading: its encodings may be others, but those it had denote the same cells. -/
theorem Reads.node {f g : Forest α} (h : f.Reads g) {id : NodeId} {n : Node α}
    (found : f.nodes[id]? = some n) :
    ∃ m, g.nodes[id]? = some m ∧ m.bare = n.bare ∧
      (n.isFresh = true → m.isFresh = true ∧ m.cells = n.cells) := by
  induction h with
  | refl => exact ⟨n, found, rfl, fun fresh => ⟨fresh, rfl⟩⟩
  | note _ _ ih => exact ih
  | @derive g j k c _ other fresh held holds ih =>
      obtain ⟨m, hm, bare, kept⟩ := ih
      rw [getElem?_update, hm]
      split
      · rename_i here
        subst here
        obtain rfl : k = m := Option.some.inj (other.symm.trans hm)
        refine ⟨_, rfl, bare, fun was => ⟨by simp [Node.isFresh, held], ?_⟩⟩
        rw [← (kept was).2]
        exact Cache.renders_readSparse.value holds held
      · exact ⟨m, rfl, bare, kept⟩
  | @takeOver g j k p link _ other live stale role alive parent parentLive parentFresh ih =>
      obtain ⟨m, hm, bare, kept⟩ := ih
      rw [getElem?_update, hm]
      split
      · rename_i here
        subst here
        obtain rfl : k = m := Option.some.inj (other.symm.trans hm)
        refine ⟨_, rfl, bare, fun was => ?_⟩
        rw [(kept was).1] at stale
        cases stale
      · exact ⟨m, rfl, bare, kept⟩

/-! ## Reads -/

/-- Looking at a node that holds an encoding answers with the rendering of its cells, and touches
no other node. -/
theorem look_eq {f : Forest α} {id : NodeId} {n : Node α}
    {read : Shape → Cache → Cache.Reading β} {render : Shape → Sparse → β}
    (renders : Cache.Renders read render) (sound : f.Sound) (found : f.nodes[id]? = some n)
    (fresh : n.isFresh = true) :
    ∃ g, f.look id read = some (render n.shape n.cells, g) ∧ f.Reads g ∧
      ∀ i, i ≠ id → g.nodes[i]? = f.nodes[i]? := by
  have held : n.cache.isStale = false := by simpa [Node.isFresh] using fresh
  have holds := sound.holds found
  have derived := Reads.refl.derive found fresh (renders.isStale_eq held)
    (renders.holds holds held)
  refine ⟨_, ?_, derived.note (read n.shape n.cache).notes, fun i other => ?_⟩
  · unfold look
    rw [found, Option.map_some, ← renders.value holds held]
  · rw [nodes_noteAll, getElem?_update, if_neg (Ne.symm other)]

/-- What bringing a node up to date may come to: the node has the cells that it shows and no
younger node is touched, or nothing is shown. -/
def Refreshed (f : Forest α) (id : NodeId) : Except Fault (Forest α) → Prop
  | .ok g => f.Reads g ∧ (∀ i, id < i → g.nodes[i]? = f.nodes[i]?) ∧
      ∃ n, g.nodes[id]? = some n ∧ n.orphaned = false ∧ n.isFresh = true ∧
        f.shown id = .ok n.cells
  | .error fault => f.shown id = .error fault

/-- A stale view is brought up to date through its parent. -/
theorem refreshed_of_stale {f : Forest α} (sound : f.Sound) {id : NodeId} {n : Node α}
    {link : Link} (found : f.nodes[id]? = some n) (live : n.orphaned = false)
    (stale : n.isFresh = false) (role : n.role = .view (some link))
    (older : link.parent < id) (alive : f.isAlive link.parent = true) {g : Forest α}
    (parent : f.Refreshed link.parent (.ok g)) :
    ∃ p h, g.look link.parent Cache.readSparse = some (p, h) ∧
      f.Refreshed id (.ok (h.update id fun n => { n with cache := .ofSparse p })) := by
  obtain ⟨reads, younger, p, hp, parentLive, parentFresh, shown⟩ := parent
  obtain ⟨h, looked, again, others⟩ :=
    look_eq Cache.renders_readSparse (reads.sound sound) hp parentFresh
  obtain ⟨q, hq, bare, kept⟩ := again.node hp
  have same : q.cells = p.cells := (kept parentFresh).2
  have untouched : h.nodes[id]? = some n := by
    rw [others id (Nat.ne_of_gt older), younger id older, found]
  refine ⟨_, h, looked, ?_⟩
  rw [← same]
  refine ⟨Reads.takeOver (reads.trans again) untouched live stale role ?_ hq ?_
    (kept parentFresh).1, ?_, ?_⟩
  · rw [again.isAlive, reads.isAlive, alive]
  · rw [← Node.orphaned_bare, bare, Node.orphaned_bare, parentLive]
  · intro i below
    rw [getElem?_update, if_neg (Nat.ne_of_lt below), others i, younger i]
    · exact Nat.lt_trans older below
    · exact Nat.ne_of_gt (Nat.lt_trans older below)
  · rw [getElem?_update, if_pos rfl, untouched]
    refine ⟨_, rfl, live, rfl, ?_⟩
    rw [shown_of_stale found live stale role older alive, shown, ← same]
    rfl

/-- Bringing a node up to date leaves it with the cells that it shows, or fails. -/
theorem refreshed_refresh {f : Forest α} (sound : f.Sound) (id : NodeId) :
    f.Refreshed id (f.refresh id) := by
  induction id using Nat.strongRecOn with
  | ind id ih =>
      -- what is shown is defined by the same cases, so both are split side by side
      have shows := shown.eq_def f id
      unfold refresh
      cases found : f.nodes[id]? with
      | none => rwa [found] at shows
      | some n =>
          simp only [found] at shows
          cases orphaned : n.orphaned with
          | true => simpa [Refreshed, orphaned] using shows
          | false =>
              cases fresh : n.isFresh with
              | true =>
                  have held : n.cache.isStale = false := by simpa [Node.isFresh] using fresh
                  simp only [orphaned, held]
                  exact ⟨.refl, fun _ _ => rfl, n, found, orphaned, fresh,
                    shown_of_isFresh found orphaned fresh⟩
              | false =>
                  have stale : n.cache.isStale = true := by simpa [Node.isFresh] using fresh
                  simp only [orphaned, fresh] at shows
                  simp only [orphaned, stale]
                  cases role : n.role with
                  | canonical => simpa [Refreshed, role] using shows
                  | view link =>
                      simp only [role] at shows
                      cases link with
                      | none => exact shows
                      | some link =>
                          by_cases older : link.parent < id
                          · by_cases alive : f.isAlive link.parent = true
                            · simp only [older, alive] at shows
                              simp only [older, alive]
                              have parent := ih link.parent older
                              cases refreshed : f.refresh link.parent with
                              | error fault =>
                                  rw [refreshed] at parent
                                  exact shows.trans parent
                              | ok g =>
                                  rw [refreshed] at parent
                                  obtain ⟨cells, h, looked, done⟩ := refreshed_of_stale sound
                                    found orphaned fresh role older alive parent
                                  simpa [looked] using done
                            · simpa [Refreshed, older, alive] using shows
                          · simpa [Refreshed, older] using shows

/-- What is shown by a node is a set of cells of its shape. -/
theorem isSet_shown {f : Forest α} (sound : f.Sound) {id : NodeId} {n : Node α} {cells : Sparse}
    (found : f.nodes[id]? = some n) (shows : f.shown id = .ok cells) :
    Sparse.IsSet n.shape.size cells := by
  have spec := refreshed_refresh sound id
  cases refreshed : f.refresh id with
  | error fault =>
      rw [refreshed] at spec
      cases shows.symm.trans spec
  | ok g =>
      rw [refreshed] at spec
      obtain ⟨reads, -, m, hm, -, -, same⟩ := spec
      obtain ⟨k, hk, bare, -⟩ := reads.node found
      obtain rfl : m = k := Option.some.inj (hm.symm.trans hk)
      have shape : m.shape = n.shape := by simpa using congrArg Node.shape bare
      obtain rfl : cells = m.cells := Except.ok.inj (shows.symm.trans same)
      exact shape ▸ ((reads.sound sound).holds hm).isSet

/-- A read of a node that is lent out answers with the rendering of what is shown, and fails
where nothing is shown. -/
theorem read_eq {f : Forest α} (sound : f.Sound) {id : NodeId} {n : Node α}
    (found : f.available? id = some n) {r : Shape → Cache → Cache.Reading β}
    {render : Shape → Sparse → β} (renders : Cache.Renders r render) :
    match f.shown id with
    | .ok cells => ∃ g, read id r f = .ok (render n.shape cells) g ∧ f.Reads g
    | .error fault => read id r f = .error fault f := by
  have spec := refreshed_refresh sound id
  unfold read
  rw [found]
  cases refreshed : f.refresh id with
  | error fault =>
      rw [refreshed] at spec
      rw [show f.shown id = .error fault from spec]
  | ok g =>
      rw [refreshed] at spec
      obtain ⟨reads, -, m, hm, live, fresh, shows⟩ := spec
      obtain ⟨h, looked, again, -⟩ := look_eq renders (reads.sound sound) hm fresh
      obtain ⟨k, hk, bare, -⟩ := reads.node (Option.filter_eq_some_iff.1 found).1
      obtain rfl : m = k := Option.some.inj (hm.symm.trans hk)
      have shape : m.shape = n.shape := by simpa using congrArg Node.shape bare
      rw [shows]
      refine ⟨h, ?_, reads.trans again⟩
      simp [looked, shape]

end Forest

end SparseTensor
