/-
# Tact, and nodes that resemble each other

A tactful task or command removes no registration of a view by its token.  What it does to a node
matters to no view that is linked to it: the node goes on to have the same role and, but for a view
that leaves it, the same views registered with it (`Node.Resembles`).
-/
import SparseTensor.Proofs.Holders

namespace SparseTensor

variable {α G : Type}

/-! ## Tact -/

/-- No view is registered with the node under the token. -/
def Forest.Harmless (f : Forest α) (id : NodeId) (token : Token) : Prop :=
  ∀ n child, f.nodes[id]? = some n → ⟨token, .view child⟩ ∉ n.registrations

/-- A task that removes no registration of a view by its token. -/
def Task.Tactful (f : Forest α) : Task α → Prop
  | .act _ ⟨some id, .unsubscribe (some token)⟩ => f.Harmless id token
  | _ => True

/-- A command that removes no registration of a view by its token. -/
def Command.Tactful (f : Forest α) (command : Command α G) : Prop :=
  ∀ id token, command.touch = .leave id token → f.Harmless id token

/-- A move that removes no registration of a view by its token. -/
def Move.Tactful (s : Situation α) : Move α G → Prop
  | .call command => command.Tactful s.forest
  | .step _ => ∀ task tasks, s.tasks = task :: tasks → task.Tactful s.forest
  | _ => True

/-! ## Ties between nodes -/

/-- Tokens are given out in order, each of them once. -/
def Node.TokensOrdered (n : Node α) : Prop :=
  n.registrations.Pairwise (fun a b => a.token < b.token) ∧
    ∀ r ∈ n.registrations, r.token < n.nextToken

/-- No two registrations have one token. -/
theorem Node.TokensOrdered.unique {n : Node α} (h : n.TokensOrdered) {r s : Registration α}
    (hr : r ∈ n.registrations) (hs : s ∈ n.registrations) (same : r.token = s.token) : r = s :=
  List.inj_on_of_nodup_map (List.pairwise_map.2 (h.1.imp Nat.ne_of_lt)) hr hs same

/-- A change of a node that matters to no view, except that one may not be registered any
more. -/
structure Node.Resembles (left : Option NodeId) (n m : Node α) : Prop where
  role : m.role = n.role
  orphaned : m.orphaned = n.orphaned
  available : m.available = n.available
  hooks : ∀ token child, ⟨token, .view child⟩ ∈ m.registrations ↔
    ⟨token, .view child⟩ ∈ n.registrations ∧ left ≠ some child
  tokens : n.TokensOrdered → m.TokensOrdered

theorem Node.Resembles.refl (n : Node α) : n.Resembles none n :=
  ⟨rfl, rfl, rfl, fun _ _ => by simp, fun h => h⟩

/-- A node that is not left by a view may stay as it is. -/
theorem Node.resembles_self {n : Node α} {child : NodeId}
    (nowhere : ∀ token, ⟨token, .view child⟩ ∉ n.registrations) : n.Resembles (some child) n := by
  refine ⟨rfl, rfl, rfl, fun token other => ⟨fun hook => ⟨hook, ?_⟩, And.left⟩, fun h => h⟩
  rintro ⟨⟩
  exact nowhere token hook

/-- A new registration gets a new token. -/
theorem Node.TokensOrdered.subscribe {n : Node α} (h : n.TokensOrdered) (target : Target α) :
    (n.subscribe target).TokensOrdered := by
  refine ⟨List.pairwise_append.2 ⟨h.1, List.pairwise_singleton _ _, fun a ha b hb => ?_⟩, ?_⟩
  · obtain rfl := List.mem_singleton.1 hb
    exact h.2 a ha
  · intro r hr
    rcases List.mem_append.1 hr with hr | hr
    · exact Nat.lt_succ_of_lt (h.2 r hr)
    · obtain rfl := List.mem_singleton.1 hr
      exact Nat.lt_succ_self _

/-- Registering a listener that is no view matters to no view. -/
theorem Node.resembles_subscribe (n : Node α) (listener : α) :
    n.Resembles none (n.subscribe (.listener listener)) := by
  refine ⟨rfl, rfl, rfl, fun token child => ?_, fun ordered => ordered.subscribe _⟩
  simp [subscribe]

/-- Removing a registration matters to nobody but to whom it belongs. -/
theorem Node.resembles_unsubscribe {n : Node α} {token : Token} {left : Option NodeId}
    (own : ∀ child, ⟨token, .view child⟩ ∈ n.registrations → left = some child)
    (others : ∀ other child, ⟨other, .view child⟩ ∈ n.registrations → left = some child →
      other = token) : n.Resembles left (n.unsubscribe token) := by
  refine ⟨rfl, rfl, rfl, fun other child => ?_, fun ⟨sorted, below⟩ => ⟨?_, ?_⟩⟩
  · have removed : ⟨other, .view child⟩ ∈ (n.unsubscribe token).registrations ↔
        ⟨other, .view child⟩ ∈ n.registrations ∧ other ≠ token := by
      simp [unsubscribe]
    rw [removed]
    refine and_congr_right fun hook => not_congr ⟨?_, others other child hook⟩
    rintro rfl
    exact own child hook
  · exact sorted.filter _
  · exact fun r hr => below r (List.mem_of_mem_filter hr)

/-- Forests whose nodes resemble each other, one by one. -/
structure Forest.Resembles (f g : Forest α) : Prop where
  back : ∀ {id : NodeId} {m : Node α}, g.nodes[id]? = some m →
    ∃ n, f.nodes[id]? = some n ∧ n.Resembles none m
  forth : ∀ {id : NodeId} {n : Node α}, f.nodes[id]? = some n →
    ∃ m, g.nodes[id]? = some m ∧ n.Resembles none m

/-- Encodings matter to no view. -/
theorem Forest.resembles_of_bare_eq {f g : Forest α}
    (same : g.nodes.map Node.bare = f.nodes.map Node.bare) : f.Resembles g := by
  have alike : ∀ {n m : Node α}, m.bare = n.bare → n.Resembles none m := by
    intro n m bare
    have registrations : m.registrations = n.registrations :=
      (congrArg Node.registrations bare :)
    have nextToken : m.nextToken = n.nextToken := (congrArg Node.nextToken bare :)
    refine ⟨(congrArg Node.role bare :), (congrArg Node.orphaned bare :),
      (congrArg Node.available bare :), fun token child => ?_, fun ordered => ?_⟩
    · simp [registrations]
    · unfold Node.TokensOrdered
      rw [registrations, nextToken]
      exact ordered
  constructor
  · intro id m hm
    obtain ⟨n, hn, bare⟩ := exists_of_map_eq same hm
    exact ⟨n, hn, alike bare⟩
  · intro id n hn
    obtain ⟨m, hm, bare⟩ := exists_of_map_eq same.symm hn
    exact ⟨m, hm, alike bare.symm⟩

/-- What has happened to listeners matters to no view. -/
theorem Forest.Resembles.record {f g : Forest α} (h : f.Resembles g) (o : Occurrence α) :
    f.Resembles (g.record o) :=
  ⟨h.back, h.forth⟩

/-- A change of one node that matters to no view. -/
theorem Forest.resembles_update {f : Forest α} {id : NodeId} {g : Node α → Node α}
    (h : ∀ n, f.nodes[id]? = some n → n.Resembles none (g n)) : f.Resembles (f.update id g) := by
  constructor
  · intro j m hm
    obtain ⟨n, hn, ⟨rfl, rfl⟩ | ⟨-, rfl⟩⟩ := update_cases hm
    · exact ⟨n, hn, h n hn⟩
    · exact ⟨m, hn, .refl m⟩
  · intro j n hn
    obtain ⟨m, hm, ⟨rfl, rfl⟩ | ⟨-, rfl⟩⟩ := exists_update hn id g
    · exact ⟨g n, hm, h n hn⟩
    · exact ⟨m, hm, .refl m⟩

end SparseTensor
