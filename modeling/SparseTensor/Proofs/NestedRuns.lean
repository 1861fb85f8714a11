/-
# Listeners that give commands

A listener that hears of something may do more than the deeds that stand on an agenda: until it
returns it may give commands of its own, of every kind.  It may read nodes in any encoding, create
nodes and views, load records, and change nodes, except for those that are being changed already,
which nobody is lent.  The delivery in which the listener hears is paused meanwhile.  Others hear of
what it changes, and they may give commands again, so that any number of deliveries is paused.

`Nesting` is a situation with the deliveries that are paused for it, and `Nested` says which of them
runs can come to.  Caches are in order there as well (`Nested.ordered`), since whatever is done
inside leaves the views that are awaited outside what they are.

`caches_denote_sets` spells out what the caches of all nodes satisfy, and that no stale cache is ever
looked at.
-/
import SparseTensor.Proofs.SoundRuns

namespace SparseTensor

variable {α G : Type}

/-! ## Nested situations -/

/-- What is left to do in a delivery that is paused: its agenda, and the end of the change of a node,
if there is one. -/
structure Pause (α : Type) where
  tasks : List (Task α)
  changing : Option NodeId

/-- A situation, and the deliveries that are paused for it, the last one first. -/
structure Nesting (α : Type) where
  now : Situation α
  pauses : List (Pause α)

/-- What happens next.  A delivery may be paused behind each of its tasks, so in particular while a
listener hears; what goes on then is a run like any other, and the delivery is resumed when nothing
of this is left. -/
inductive Nesting.Next (G : Type) [RandomSource G] : Nesting α → Nesting α → Prop
  | inside {s t : Situation α} {pauses : List (Pause α)} (move : Move α G) :
    SparseTensor.Next move s t → Next G ⟨s, pauses⟩ ⟨t, pauses⟩
  | pause {f : Forest α} {tasks : List (Task α)} {changing : Option NodeId}
      {pauses : List (Pause α)} :
    Next G ⟨⟨f, tasks, changing⟩, pauses⟩ ⟨.quiet f, ⟨tasks, changing⟩ :: pauses⟩
  | resume {f : Forest α} {tasks : List (Task α)} {changing : Option NodeId}
      {pauses : List (Pause α)} :
    Next G ⟨.quiet f, ⟨tasks, changing⟩ :: pauses⟩ ⟨⟨f, tasks, changing⟩, pauses⟩

/-- The nested situations that runs can come to. -/
inductive Nested (G : Type) [RandomSource G] : Nesting α → Prop
  | start : Nested G ⟨.quiet .empty, []⟩
  | next {s t : Nesting α} : Nested G s → Nesting.Next G s t → Nested G t

/-- Runs in which listeners give no commands are among them. -/
theorem Reached.nested [RandomSource G] {allowed : Situation α → Move α G → Prop}
    {s : Situation α} (h : Reached allowed s) : Nested G ⟨s, []⟩ := by
  induction h with
  | start => exact .start
  | @next _ _ move _ _ step ih => exact ih.next (.inside move step)

/-! ## Nested situations in order -/

/-- The situation is in order, and the events that are still to be passed on in deliveries that are
paused are passed on to views. -/
structure Nesting.Ordered (s : Nesting α) : Prop where
  now : s.now.Ordered
  awaited : ∀ pause ∈ s.pauses, ∀ {source : NodeId} {token : Token} {child : NodeId}
    {event : Event}, .deliver source ⟨token, .view child⟩ event ∈ pause.tasks →
      s.now.forest.HasView child

/-- Whatever happens next keeps order. -/
theorem Nesting.Ordered.next [RandomSource G] [LawfulRandomSource G] {s t : Nesting α}
    (h : s.Ordered) (step : Nesting.Next G s t) : t.Ordered := by
  cases step with
  | inside move step =>
      exact ⟨h.now.next step, fun pause hmem _ _ _ _ deliver =>
        h.now.hasView step (h.awaited pause hmem deliver)⟩
  | pause =>
      refine ⟨Situation.ordered_quiet h.now.forest, List.forall_mem_cons.2 ⟨?_, h.awaited⟩⟩
      exact fun deliver => h.now.awaited deliver
  | resume =>
      obtain ⟨first, others⟩ := List.forall_mem_cons.1 h.awaited
      exact ⟨⟨h.now.forest, first⟩, others⟩

/-- Every nested situation that a run comes to is in order. -/
theorem Nested.ordered [RandomSource G] [LawfulRandomSource G] {s : Nesting α} (h : Nested G s) :
    s.Ordered := by
  induction h with
  | start => exact ⟨Situation.ordered_start, List.forall_mem_nil _⟩
  | next _ step ih => exact ih.next step

/-! ## What the caches satisfy -/

namespace Forest

/-- The encodings of every node denote one set each, and a canonical node holds one at least. -/
def CachesDenote (f : Forest α) : Prop :=
  ∀ (id : NodeId) (n : Node α), f.nodes[id]? = some n →
    (∃ S, n.cache.Denotes n.shape S) ∧ (n.role = .canonical → n.cache.isStale = false)

/-- Caches that are in order denote sets. -/
theorem Sound.cachesDenote {f : Forest α} (h : f.Sound) : f.CachesDenote := by
  intro id n found
  refine ⟨⟨_, (h.holds found).denotes⟩, fun isCanonical => ?_⟩
  simpa [Node.isFresh] using h.canonical found isCanonical

/-- While a node is brought up to date and then read, the cache of the node `place` is looked at
in the forest `g`: the cache of the node itself, or one on the way up. -/
inductive Looks (f : Forest α) : NodeId → Forest α → NodeId → Prop
  | own {id : NodeId} {g : Forest α} : f.refresh id = .ok g → Looks f id g id
  | above {id place : NodeId} {g : Forest α} {n : Node α} {link : Link} :
    f.nodes[id]? = some n → n.role = .view (some link) → Looks f link.parent g place →
      Looks f id g place

/-- A cache that is looked at holds an encoding. -/
theorem Sound.looks {f g : Forest α} (h : f.Sound) {id place : NodeId}
    (looks : f.Looks id g place) :
    g.Sound ∧ ∃ n, g.nodes[place]? = some n ∧ n.cache.isStale = false := by
  induction looks with
  | @own id g refreshed =>
      have spec := refreshed_refresh h id
      rw [refreshed] at spec
      obtain ⟨reads, -, n, found, -, fresh, -⟩ := spec
      exact ⟨reads.sound h, n, found, by simpa [Node.isFresh] using fresh⟩
  | above _ _ _ ih => exact ih

end Forest

/-- At every point of every run, also while listeners hear of something and give commands, the
encodings of each node denote one set, a canonical node holds an encoding, and no cache is looked at
that holds none. -/
theorem caches_denote_sets [RandomSource G] [LawfulRandomSource G] {s : Nesting α}
    (h : Nested G s) :
    s.now.forest.CachesDenote ∧
      ∀ (id place : NodeId) (g : Forest α), s.now.forest.Looks id g place →
        g.CachesDenote ∧ ∃ n, g.nodes[place]? = some n ∧ n.cache.isStale = false := by
  have sound := h.ordered.now.forest.sound
  refine ⟨sound.cachesDenote, fun id place g looks => ?_⟩
  obtain ⟨after, fresh⟩ := sound.looks looks
  exact ⟨after.cachesDenote, fresh⟩

/-- A listener hears that a node has changed before a view of the node does.  It creates a view of
this view and changes another node, of which it is about to hear in turn. -/
theorem caches_denote_sets_in_nested_change :
    ∃ s : Nesting Unit, Nested Generator s ∧ s.now.changing = some 1 ∧
      s.now.tasks = [.deliver 1 ⟨0, .listener ()⟩ .valueChanged] ∧
      s.pauses.map Pause.changing = [some 0] ∧
      s.pauses.map Pause.tasks = [[.deliver 0 ⟨1, .view 2⟩ .valueChanged]] ∧
      s.now.forest.CachesDenote := by
  let silent : Reaction Unit := fun _ _ _ => []
  have made : Nested (α := Unit) Generator _ :=
    (Nested.start.next (.inside (.call (.create [4])) (.call (.create [4]) rfl))).next
      (.inside (.call (.create [2, 2])) (.call (.create [2, 2]) rfl))
  have known : Nested (α := Unit) Generator _ :=
    (made.next (.inside (.call (.subscribe 0 ())) (.call (.subscribe 0 ()) rfl))).next
      (.inside (.call (.subscribe 1 ())) (.call (.subscribe 1 ()) rfl))
  have viewed := known.next (.inside (.call (.reshape 0 [2, 2])) (.call (.reshape 0 [2, 2]) rfl))
  have changed := viewed.next
    (.inside (.call (.mutate 0 (.setSparse [1]))) (.call (.mutate 0 (.setSparse [1])) rfl))
  have heard := (changed.next (.inside (.step silent) (.step silent))).next .pause
  have grown := heard.next (.inside (.call (.view 2)) (.call (.view 2) rfl))
  have nested := grown.next (.inside (.call (.mutate 1 (.setDense [0, 0, 1, 0])))
    (.call (.mutate 1 (.setDense [0, 0, 1, 0])) rfl))
  exact ⟨_, nested, rfl, rfl, rfl, rfl, (caches_denote_sets nested).1⟩

end SparseTensor
