/-
# What listeners read

A listener that hears of an event may read any node, also a view that has not heard of the event
yet.  A read is passed on by stale views to the nearest node upwards that holds an encoding
(`Forest.Passes`), which need not have the cells of the canonical node above it:
`listener_reads_outdated_view` is a run in which a listener reads a value that is not current any
more.

`listener_reads` says exactly when what is read is the value of the canonical node above, and
that it is unless the view, or one above it, is still to hear of an event.
-/
import SparseTensor.Proofs.Coherence

namespace SparseTensor

variable {α G : Type}

namespace Forest

/-! ## Ways up -/

/-- A node is found from another one by going from parent to parent, or is the same. -/
inductive Above (f : Forest α) : NodeId → NodeId → Prop
  | here {id : NodeId} : Above f id id
  | up {id top : NodeId} {n : Node α} {link : Link} :
    f.nodes[id]? = some n → n.role = .view (some link) → Above f link.parent top → Above f id top

/-- A read of a node is passed on to another one above it, or takes place in the node itself. -/
inductive Passes (f : Forest α) : NodeId → NodeId → Prop
  | here {id : NodeId} : Passes f id id
  | up {id place : NodeId} {n : Node α} {link : Link} :
    f.nodes[id]? = some n → n.orphaned = false → n.isFresh = false →
      n.role = .view (some link) → f.isAlive link.parent = true →
        Passes f link.parent place → Passes f id place

variable {f : Forest α}

theorem Above.trans {id a top : NodeId} (h : f.Above id a) (more : f.Above a top) :
    f.Above id top := by
  induction h with
  | here => exact more
  | up found role _ ih => exact .up found role (ih more)

/-- Reads are passed on upwards. -/
theorem Passes.above {id place : NodeId} (h : f.Passes id place) : f.Above id place := by
  induction h with
  | here => exact .here
  | up found _ _ role _ _ ih => exact .up found role ih

/-- A read of a node that holds an encoding is not passed on. -/
theorem Passes.eq_of_isFresh {id place : NodeId} {n : Node α} (h : f.Passes id place)
    (found : f.nodes[id]? = some n) (fresh : n.isFresh = true) : place = id := by
  cases h with
  | here => rfl
  | up hn _ stale _ _ _ =>
      obtain rfl := Option.some.inj (found.symm.trans hn)
      rw [fresh] at stale
      cases stale

/-- The canonical node above a node is above all to which reads of the node are passed on. -/
theorem Passes.above_of_above {id place top : NodeId} {t : Node α} (h : f.Passes id place)
    (above : f.Above id top) (found : f.nodes[top]? = some t) (canonical : t.role = .canonical) :
    f.Above place top := by
  induction h with
  | here => exact above
  | @up id place n link hn _ _ role _ _ ih =>
      refine ih ?_
      cases above with
      | here =>
          obtain rfl : t = n := Option.some.inj (found.symm.trans hn)
          rw [canonical] at role
          cases role
      | up hn' role' above =>
          obtain rfl := Option.some.inj (hn.symm.trans hn')
          rw [role] at role'
          cases role'
          exact above

/-- The cells that are shown are those of the node to which the read is passed on. -/
theorem shown_eq_ok_iff (sound : f.Sound) {id : NodeId} {cells : Sparse} :
    f.shown id = .ok cells ↔ ∃ place m, f.Passes id place ∧ f.nodes[place]? = some m ∧
      m.orphaned = false ∧ m.isFresh = true ∧ m.cells = cells := by
  constructor
  · intro shown
    -- upwards from the node to the first one that is up to date
    induction id using Nat.strongRecOn with
    | ind id ih =>
        obtain ⟨n, found⟩ : ∃ n, f.nodes[id]? = some n := by
          refine Option.ne_none_iff_exists'.1 fun absent => ?_
          simp [Forest.shown.eq_def f id, absent] at shown
        cases orphaned : n.orphaned with
        | true => simp [shown_of_orphaned found orphaned] at shown
        | false =>
            cases fresh : n.isFresh with
            | true =>
                rw [shown_of_isFresh found orphaned fresh] at shown
                exact ⟨id, n, .here, found, orphaned, fresh, Except.ok.inj shown⟩
            | false =>
                rw [Forest.shown.eq_def] at shown
                simp only [found, orphaned, fresh, Bool.false_eq_true, if_false] at shown
                split at shown
                · cases shown
                · cases shown
                · rename_i link role
                  split at shown
                  case isFalse => cases shown
                  split at shown
                  case isFalse => cases shown
                  rename_i older alive
                  obtain ⟨place, m, passes, there⟩ := ih link.parent older shown
                  exact ⟨place, m, .up found orphaned fresh role alive passes, there⟩
  · rintro ⟨place, m, passes, found, live, fresh, rfl⟩
    induction passes with
    | here => exact shown_of_isFresh found live fresh
    | up hn hlive stale role alive _ ih =>
        rw [shown_of_stale hn hlive stale role (sound.linked hn role).1 alive]
        exact ih found

/-- A view that holds no encoding takes over the cells of a parent that holds one. -/
theorem sparse_of_stale {g h : Forest α} {id : NodeId} {n p : Node α} {link : Link}
    {cells shown : Sparse} (found : f.available? id = some n) (live : n.orphaned = false)
    (stale : n.cache.isStale = true) (role : n.role = .view (some link))
    (older : link.parent < id) (alive : f.isAlive link.parent = true)
    (parent : f.nodes[link.parent]? = some p) (parentLive : p.orphaned = false)
    (held : p.cache.isStale = false)
    (looked : f.look link.parent Cache.readSparse = some (cells, g))
    (again : (g.update id fun n => { n with cache := .ofSparse cells }).look id Cache.readSparse =
      some (shown, h)) :
    sparse id f = .ok shown h := by
  have refreshed : f.refresh link.parent = .ok f := by
    unfold refresh
    simp [parent, parentLive, held]
  have there := (Option.filter_eq_some_iff.1 found).1
  unfold sparse read
  rw [found, refresh]
  simp [there, live, stale, role, older, alive, refreshed, looked, again]

/-- The node to which reads of a node are passed on holds an encoding, of the cells of the
canonical node above. -/
def Current (f : Forest α) (id : NodeId) : Prop :=
  ∃ place m top t, f.Passes id place ∧ f.nodes[place]? = some m ∧ m.orphaned = false ∧
    m.isFresh = true ∧ f.Above place top ∧ f.nodes[top]? = some t ∧ t.role = .canonical ∧
      m.cells = t.cells

/-- A listener that reads a node is told the value of the canonical node above it. -/
def ReadsAncestor (react : Reaction α) (f : Forest α) (listener : α) (id : NodeId) : Prop :=
  ∃ top t, f.Above id top ∧ f.nodes[top]? = some t ∧ t.role = .canonical ∧
    (f.step react (.act listener ⟨some id, .read⟩)).1.trace =
      f.trace ++ [.acted listener ⟨some id, .read⟩ (.cells (.ok t.cells))]

/-- A listener that reads a node is told what the node shows. -/
theorem trace_step_read (sound : f.Sound) (react : Reaction α) (listener : α) {id : NodeId}
    {n : Node α} (found : f.available? id = some n) :
    (f.step react (.act listener ⟨some id, .read⟩)).1.trace =
      f.trace ++ [.acted listener ⟨some id, .read⟩ (.cells (f.shown id))] := by
  have spec := read_eq sound found Cache.renders_readSparse
  simp only [step, Option.bind_some, found, Option.map_some, perform]
  cases shown : f.shown id with
  | ok cells =>
      rw [shown] at spec
      obtain ⟨g, read, reads⟩ := spec
      rw [show sparse id f = .ok cells g from read]
      show g.trace ++ _ = _
      rw [reads.bare.1]
  | error fault =>
      rw [shown] at spec
      rw [show sparse id f = .error fault f from spec]
      rfl

/-- What listeners are told is the value of the canonical node above exactly if the node is
current. -/
theorem readsAncestor_iff (sound : f.Sound) (react : Reaction α) (listener : α) {id : NodeId}
    {n : Node α} (found : f.available? id = some n) :
    f.ReadsAncestor react listener id ↔ f.Current id := by
  unfold ReadsAncestor
  rw [trace_step_read sound react listener found]
  constructor
  · rintro ⟨top, t, above, ht, canonical, told⟩
    have shown : f.shown id = .ok t.cells := by
      simpa using told
    obtain ⟨place, m, passes, hm, live, fresh, cells⟩ := (shown_eq_ok_iff sound).1 shown
    exact ⟨place, m, top, t, passes, hm, live, fresh,
      passes.above_of_above above ht canonical, ht, canonical, cells⟩
  · rintro ⟨place, m, top, t, passes, hm, live, fresh, above, ht, canonical, cells⟩
    refine ⟨top, t, passes.above.trans above, ht, canonical, ?_⟩
    rw [(shown_eq_ok_iff sound).2 ⟨place, m, passes, hm, live, fresh, cells⟩]

end Forest

/-! ## Who is still to hear -/

namespace Situation

/-- A node, or one above it, is still to hear of an event as a view. -/
def Awaits (s : Situation α) (id : NodeId) : Prop :=
  ∃ source token child event, s.forest.Above id child ∧
    .deliver source ⟨token, .view child⟩ event ∈ s.tasks

/-- A node above which everybody has heard of all events is current.  Induction goes upwards: a
view that holds an encoding has the cells of its parent, any other reads its parent. -/
theorem Tidy.current {s : Situation α} (h : s.Tidy) {id : NodeId} {n : Node α}
    (found : s.forest.nodes[id]? = some n) (live : n.orphaned = false)
    (present : n.available = true ∨ s.changing = some id) (heard : ¬ s.Awaits id) :
    s.forest.Current id := by
  have sound := h.ordered.forest.sound
  induction id using Nat.strongRecOn generalizing n with
  | ind id ih =>
      cases role : n.role with
      | canonical =>
          exact ⟨id, n, id, n, .here, found, live, sound.canonical found role, .here, found,
            role, rfl⟩
      | view link =>
          cases link with
          | none =>
              -- A view that is neither an orphan nor destroyed has a parent.
              exfalso
              have taken : n.available = false :=
                ((h.linked.unlinked found).1 role).resolve_left (by simp [live])
              have changing : s.changing = some id := present.resolve_left (by simp [taken])
              obtain ⟨m, hm, canonical, -⟩ := h.held.changed changing
              obtain rfl : n = m := Option.some.inj (found.symm.trans hm)
              rw [role] at canonical
              cases canonical
          | some link =>
              obtain ⟨-, -, hook⟩ := h.linked.linked found role
              obtain ⟨p, hp, hook⟩ := hook.resolve_right fun pending =>
                heard ⟨_, _, id, _, .here, pending⟩
              obtain ⟨parentLive, parentPresent, -⟩ := h.linked.hooked hp hook
              have parentHeard : ¬ s.Awaits link.parent := by
                rintro ⟨source, token, child, event, above, pending⟩
                exact heard ⟨source, token, child, event, .up found role above, pending⟩
              obtain ⟨place, m, top, t, passes, hm, placeLive, fresh, above, rest⟩ :=
                ih link.parent (sound.linked found role).1 hp parentLive parentPresent parentHeard
              cases stale : n.isFresh with
              | false =>
                  exact ⟨place, m, top, t, .up found live stale role
                    (h.held.isAlive hp parentPresent) passes, hm, placeLive, fresh, above, rest⟩
              | true =>
                  obtain ⟨parentFresh, cells⟩ :=
                    (h.coherent _ _ p n link.token hp hook found stale).resolve_right
                      fun pending => heard ⟨_, _, id, _, .here, pending⟩
                  obtain rfl := passes.eq_of_isFresh hp parentFresh
                  obtain rfl : p = m := Option.some.inj (hp.symm.trans hm)
                  obtain ⟨ht, canonical, same⟩ := rest
                  exact ⟨id, n, top, t, .here, found, live, stale, .up found role above, ht,
                    canonical, cells.trans same⟩

end Situation

/-- Whatever is allowed to happen can be allowed more freely. -/
theorem Reached.mono [RandomSource G] {allowed freely : Situation α → Move α G → Prop}
    {s : Situation α} (h : Reached allowed s) (more : ∀ s move, allowed s move → freely s move) :
    Reached freely s := by
  induction h with
  | start => exact .start
  | next _ may step ih => exact .next ih (more _ _ may) step

/-- What a listener reads, wherever a run has come to, is the value of the canonical node above
exactly if the node is current; and it is whenever neither the node nor one above it is still to
hear of an event, if listeners and commands leave the registrations of views alone. -/
theorem listener_reads [RandomSource G] [LawfulRandomSource G]
    {allowed : Situation α → Move α G → Prop} {s : Situation α} (h : Reached allowed s)
    (react : Reaction α) (listener : α) {id : NodeId} {n : Node α}
    (found : s.forest.available? id = some n) (live : n.orphaned = false) :
    (s.forest.ReadsAncestor react listener id ↔ s.forest.Current id) ∧
      ((∀ s move, allowed s move → move.Tactful s) → ¬ s.Awaits id →
        s.forest.ReadsAncestor react listener id) := by
  have exactly := Forest.readsAncestor_iff h.ordered.forest.sound react listener found
  refine ⟨exactly, fun tactful heard => exactly.2 ?_⟩
  obtain ⟨found, lent⟩ := Option.filter_eq_some_iff.1 found
  exact (h.mono tactful).tidy.current found live (.inl lent) heard

/-- A run in which a view hears of a change, and then a listener of the view reads it. -/
theorem listener_reads_view_that_heard :
    ∃ s : Situation Unit, Reached (G := Generator) (fun s move => move.Tactful s) s ∧
      s.tasks = [.act () ⟨some 1, .read⟩, .release 1] ∧
        s.forest.ReadsAncestor (fun _ _ _ => []) () 1 := by
  let react : Reaction Unit := fun _ _ _ => [⟨some 1, .read⟩]
  have created : Reached (α := Unit) (G := Generator) (fun s move => move.Tactful s) _ :=
    Reached.start.next (by rintro _ _ ⟨⟩) (.call (.create [4]) rfl)
  have viewed := created.next (by rintro _ _ ⟨⟩) (.call (.view 0) rfl)
  have listened := viewed.next (by rintro _ _ ⟨⟩) (.call (.subscribe 1 ()) rfl)
  have changed := listened.next (by rintro _ _ ⟨⟩) (.call (.mutate 0 (.setSparse [1])) rfl)
  have heard := changed.next (by rintro _ _ ⟨⟩; trivial) (.step react)
  have acts := heard.next (by rintro _ _ ⟨⟩; trivial) (.step react)
  refine ⟨_, acts, rfl, (listener_reads acts _ () rfl rfl).2 (fun _ _ tactful => tactful) ?_⟩
  rintro ⟨source, token, child, event, -, pending⟩
  rcases List.mem_cons.1 pending with pending | pending
  · cases pending
  · cases List.mem_singleton.1 pending

/-- A run in which a listener that was registered before a view reads the view while the view is
still to hear of a change: it is told no cells, while the canonical node has one. -/
theorem listener_reads_outdated_view :
    ∃ s : Situation Unit, Reached (G := Generator) (fun s move => move.Tactful s) s ∧
      s.tasks = [.act () ⟨some 1, .read⟩, .deliver 0 ⟨1, .view 1⟩ .valueChanged] ∧
        (s.forest.available? 1).map Node.orphaned = some false ∧
          ¬ s.forest.ReadsAncestor (fun _ _ _ => []) () 1 := by
  let react : Reaction Unit := fun _ _ _ => [⟨some 1, .read⟩]
  have created : Reached (α := Unit) (G := Generator) (fun s move => move.Tactful s) _ :=
    Reached.start.next (by rintro _ _ ⟨⟩) (.call (.create [4]) rfl)
  have listened := created.next (by rintro _ _ ⟨⟩) (.call (.subscribe 0 ()) rfl)
  have viewed := listened.next (by rintro _ _ ⟨⟩) (.call (.view 0) rfl)
  have asked := viewed.next (by rintro _ _ ⟨⟩) (.call (.ask (.sparse 1))
    (bind_of_ok (bind_of_ok
      (Forest.sparse_of_stale rfl rfl rfl rfl (by decide) rfl rfl rfl rfl rfl rfl))))
  have changed := asked.next (by rintro _ _ ⟨⟩) (.call (.mutate 0 (.setSparse [1])) rfl)
  have heard := changed.next (by rintro _ _ ⟨⟩; trivial) (.step react)
  refine ⟨_, heard, rfl, rfl, fun reads => ?_⟩
  obtain ⟨place, m, top, t, passes, hm, -, -, above, ht, canonical, cells⟩ :=
    (Forest.readsAncestor_iff heard.ordered.forest.sound _ _ rfl).1 reads
  obtain rfl : place = 1 := passes.eq_of_isFresh rfl rfl
  -- The view holds an encoding of no cells; the node above it is the canonical one.
  cases above with
  | here =>
      cases ht
      cases canonical
  | up hn role above =>
      cases hn
      cases role
      cases above with
      | here =>
          cases hm
          cases ht
          cases cells
      | up hn role _ =>
          cases hn
          cases role

end SparseTensor
