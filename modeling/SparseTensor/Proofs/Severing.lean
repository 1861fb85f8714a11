/-
# Views that lose their registration

The token of a registration is a number that its node has given out, and other nodes give out the
same numbers.  A node that is asked to remove a registration by a token looks for that number
among its own registrations, whoever has given the token out, and also among those of views
(`Node.unsubscribe_cases`).

So calls that register listeners and remove registrations leave a view with its parent exactly if
none of them names, at the parent, the number under which the view is registered
(`Forest.Attached.after_iff`).  A view that has lost its registration never gets it back, as
numbers are given out once: nothing is told to it any more, so it keeps its cells and is never
orphaned (`Course.severed`).  A view that is not named follows its parent and is orphaned with it.
-/
import SparseTensor.Proofs.Pairings
import SparseTensor.Proofs.Orphans

namespace SparseTensor

variable {α G : Type}

/-! ## Removing by number -/

namespace Node

variable {n : Node α} {token : Token}

/-- Whether a node has a token. -/
theorem hasToken_eq_true_iff : n.hasToken token = true ↔ ∃ r ∈ n.registrations, r.token = token := by
  simp [hasToken]

/-- A node removes nothing if it has no registration of the number, and otherwise this one,
whatever it is the registration of. -/
theorem unsubscribe_cases (ordered : n.TokensOrdered) (token : Token) :
    n.hasToken token = false ∧ (∀ r ∈ n.registrations, r.token ≠ token) ∧
        n.unsubscribe token = n ∨
      n.hasToken token = true ∧ ∃ before r after, r.token = token ∧
        n.registrations = before ++ r :: after ∧
          n.unsubscribe token = { n with registrations := before ++ after } := by
  cases has : n.hasToken token with
  | false =>
      have nobody : ∀ r ∈ n.registrations, r.token ≠ token := fun r hr same => by
        rw [hasToken_eq_true_iff.2 ⟨r, hr, same⟩] at has
        cases has
      have kept : n.registrations.filter (·.token ≠ token) = n.registrations :=
        List.filter_eq_self.2 fun r hr => decide_eq_true (nobody r hr)
      exact .inl ⟨rfl, nobody, by rw [unsubscribe, kept]⟩
  | true =>
      obtain ⟨r, hr, rfl⟩ := hasToken_eq_true_iff.1 has
      obtain ⟨before, after, split⟩ := List.append_of_mem hr
      have sorted := ordered.1
      rw [split, List.pairwise_append] at sorted
      obtain ⟨-, behind, earlier⟩ := sorted
      have first : before.filter (·.token ≠ r.token) = before :=
        List.filter_eq_self.2 fun a ha =>
          decide_eq_true (Nat.ne_of_lt (earlier a ha r List.mem_cons_self))
      have last : after.filter (·.token ≠ r.token) = after :=
        List.filter_eq_self.2 fun a ha =>
          decide_eq_true (Nat.ne_of_gt ((List.pairwise_cons.1 behind).1 a ha))
      have removed : n.registrations.filter (·.token ≠ r.token) = before ++ after := by
        rw [split, List.filter_append, List.filter_cons_of_neg (by simp), first, last]
      exact .inr ⟨rfl, before, r, after, rfl, split, by rw [unsubscribe, removed]⟩

end Node

/-! ## Views to which nothing is told -/

/-- What may become of a view to which nothing is told: it is no more orphaned than it was, and if
it holds an encoding, then one of the same cells. -/
structure Node.Rests (n m : Node α) : Prop where
  orphaned : m.orphaned = n.orphaned
  cells : n.isFresh = true → m.isFresh = true ∧ m.cells = n.cells

theorem Node.Rests.refl (n : Node α) : n.Rests n :=
  ⟨rfl, fun fresh => ⟨fresh, rfl⟩⟩

theorem Node.Rests.trans {n m k : Node α} (nm : n.Rests m) (mk : m.Rests k) : n.Rests k where
  orphaned := mk.orphaned.trans nm.orphaned
  cells fresh := by
    obtain ⟨kept, same⟩ := nm.cells fresh
    exact ⟨(mk.cells kept).1, (mk.cells kept).2.trans same⟩

/-- Encodings are a matter of the cache and the shape. -/
theorem Node.rests_of_eq {n m : Node α} (orphaned : m.orphaned = n.orphaned)
    (shape : m.shape = n.shape) (cache : m.cache = n.cache) : n.Rests m where
  orphaned := orphaned
  cells fresh := by
    unfold Node.isFresh Node.cells at *
    rw [cache, shape]
    exact ⟨fresh, rfl⟩

namespace Forest

/-- A node of a forest rests. -/
def Rests (f g : Forest α) (id : NodeId) : Prop :=
  ∀ n, f.nodes[id]? = some n → ∃ m, g.nodes[id]? = some m ∧ n.Rests m

variable {f g : Forest α} {id : NodeId}

theorem Rests.trans {h : Forest α} (fg : f.Rests g id) (gh : g.Rests h id) : f.Rests h id := by
  intro n hn
  obtain ⟨m, hm, first⟩ := fg n hn
  obtain ⟨k, hk, second⟩ := gh m hm
  exact ⟨k, hk, first.trans second⟩

theorem rests_of_nodes_eq (same : g.nodes = f.nodes) : f.Rests g id :=
  fun n hn => ⟨n, same ▸ hn, .refl n⟩

theorem rests_update {j : NodeId} {k : Node α → Node α}
    (rests : j = id → ∀ n : Node α, n.Rests (k n)) :
    f.Rests (f.update j k) id := by
  intro n hn
  obtain ⟨m, hm, ⟨here, rfl⟩ | ⟨-, rfl⟩⟩ := exists_update hn j k
  · exact ⟨k n, hm, rests here n⟩
  · exact ⟨m, hm, .refl m⟩

theorem rests_push {n : Node α} (nodes : g.nodes = f.nodes.push n) : f.Rests g id :=
  fun m hm => ⟨m, getElem?_of_push nodes hm, .refl m⟩

theorem Reads.rests (reads : f.Reads g) : f.Rests g id := by
  intro n hn
  obtain ⟨m, hm, bare, kept⟩ := reads.node hn
  exact ⟨m, hm, (congrArg Node.orphaned bare :), kept⟩

theorem rests_bury (j : NodeId) (n : Node α) : f.Rests (f.bury j n).1 id := by
  have buried : f.Rests (f.update j Node.buried) id :=
    rests_update fun _ n => Node.rests_of_eq rfl rfl rfl
  exact of_bury (P := fun g => f.Rests g id) buried fun _ =>
    buried.trans (rests_update fun _ n => Node.rests_of_eq rfl rfl rfl)

/-- A task that does not tell a view anything lets it rest. -/
theorem Does.rests {task : Task α} {new : List (Task α)} (does : f.Does task g new)
    (silent : ∀ source token event, task ≠ .deliver source ⟨token, .view id⟩ event) :
    f.Rests g id := by
  cases does with
  | hear actions => exact rests_of_nodes_eq rfl
  | miss _ => exact rests_of_nodes_eq rfl
  | @ripple source child token n _ _ _ =>
      rw [ripple_fst]
      refine rests_update fun here => ?_
      subst here
      exact absurd rfl (silent source token .valueChanged)
  | @orphan source child token n _ _ _ =>
      rw [orphan_fst]
      have cut : f.Rests (f.update child Node.cutOff) id := rests_update fun here => by
        subst here
        exact absurd rfl (silent source token .destroyed)
      exact cut.trans (rests_of_nodes_eq rfl)
  | look outcome _ reads => exact reads.rests.trans (rests_of_nodes_eq rfl)
  | @subscribe j n listener other action _ =>
      have subscribed : f.Rests (f.update j fun n => n.subscribe (.listener other)) id :=
        rests_update fun _ n => Node.rests_of_eq rfl rfl rfl
      exact subscribed.trans (rests_of_nodes_eq rfl)
  | @unsubscribe j n listener token _ =>
      have left : f.Rests (f.update j fun n => n.unsubscribe token) id :=
        rests_update fun _ n => Node.rests_of_eq rfl rfl rfl
      exact left.trans (rests_of_nodes_eq rfl)
  | @destroy j n listener _ => exact rests_bury j n
  | report => exact rests_of_nodes_eq rfl
  | release => exact rests_update fun _ n => Node.rests_of_eq rfl rfl rfl

/-- A command lets views rest. -/
theorem Begins.rests {touch : Touch α} {happening : Happening} {effect : Effect}
    (begins : f.Begins touch happening effect g) (view : f.HasView id) :
    f.Rests (g.begin effect).forest id := by
  cases begins with
  | read reads => exact reads.rests
  | found _ _ nodes => exact rests_push nodes
  | @branch _ parent p shape _ _ _ _ nodes =>
      have subscribed : f.Rests (f.update parent fun p => p.subscribe (.view f.nodes.size)) id :=
        rests_update fun _ n => Node.rests_of_eq rfl rfl rfl
      exact subscribed.trans (rests_push nodes)
  | listen _ => exact rests_update fun _ n => Node.rests_of_eq rfl rfl rfl
  | leave _ => exact rests_update fun _ n => Node.rests_of_eq rfl rfl rfl
  | @store _ j n value cells reads found role _ _ =>
      refine reads.rests.trans (rests_update fun here => ?_)
      -- only canonical nodes are given values
      subst here
      obtain ⟨m, hm, isView⟩ := reads.hasView view
      obtain rfl := Option.some.inj ((Option.filter_eq_some_iff.1 found).1.symm.trans hm)
      rw [role] at isView
      cases isView
  | @bury j n found =>
      simp only [begin, found]
      exact rests_bury j n

end Forest

/-! ## Calls that concern registrations -/

/-- A call that registers a listener or removes a registration. -/
def Command.Registers : Command α G → Prop
  | .subscribe _ _ => True
  | .unsubscribe _ _ => True
  | _ => False

/-- What becomes of a node when registrations come and go: a view stays registered unless the node
is lent out and its number is named. -/
structure Node.Registers (named : Token → Prop) (n m : Node α) : Prop extends n.Rests m where
  role : m.role = n.role
  available : m.available = n.available
  hooks : ∀ token child, ⟨token, .view child⟩ ∈ m.registrations ↔
    ⟨token, .view child⟩ ∈ n.registrations ∧ (n.available = true → ¬ named token)

/-- Where nothing is named nothing changes. -/
theorem Node.registers_self {n : Node α} {named : Token → Prop}
    (nothing : n.available = true → ∀ token, ¬ named token) : n.Registers named n where
  toRests := .refl n
  role := rfl
  available := rfl
  hooks token _ := (and_iff_left fun lent => nothing lent token).symm

namespace Forest

variable {f g : Forest α} {id : NodeId}

section

variable [RandomSource G]

/-- What removing a registration answers and does. -/
theorem call_unsubscribe {n : Node α} (found : f.available? id = some n) (token : Token)
    (react : Reaction α) : Command.call react (.unsubscribe id token : Command α G) f =
      .ok (.removed (n.hasToken token)) (f.update id fun n => n.unsubscribe token) :=
  bind_of_ok (bind_of_ok (lent_of_some found))

/-- What registering a listener answers and does. -/
theorem call_subscribe {n : Node α} (found : f.available? id = some n) (listener : α)
    (react : Reaction α) : Command.call react (.subscribe id listener : Command α G) f =
      .ok (.token n.nextToken) (f.update id fun n => n.subscribe (.listener listener)) :=
  bind_of_ok (bind_of_ok (lent_of_some found))

/-- A change of a node that does to it what another one does. -/
theorem update_eq_update {n : Node α} (found : f.nodes[id]? = some n) {k l : Node α → Node α}
    (same : k n = l n) : f.update id k = f.update id l := by
  have nodes : (f.update id k).nodes = (f.update id l).nodes := by
    refine Array.ext_getElem? fun j => ?_
    rw [getElem?_update, getElem?_update]
    split
    · rename_i here
      rw [← here, found, Option.map_some, Option.map_some, same]
    · rfl
  exact congrArg (fun nodes => { f with nodes }) nodes

/-- A change of a node that leaves it as it is. -/
theorem update_eq_self {n : Node α} (found : f.nodes[id]? = some n) {k : Node α → Node α}
    (same : k n = n) : f.update id k = f := by
  have nodes : (f.update id fun n => n).nodes = f.nodes :=
    Array.ext_getElem? fun j => by simp [getElem?_update]
  have kept : f.update id (fun n => n) = f := congrArg (fun nodes => { f with nodes }) nodes
  exact (update_eq_update found same).trans kept

/-- A node that is asked to remove a number answers whether it has a registration of this number,
and removes this one. -/
theorem call_unsubscribe_cases {n : Node α} (found : f.available? id = some n)
    (ordered : n.TokensOrdered) (token : Token) (react : Reaction α) :
    (∀ r ∈ n.registrations, r.token ≠ token) ∧
        Command.call react (.unsubscribe id token : Command α G) f = .ok (.removed false) f ∨
      ∃ before r after, r.token = token ∧ n.registrations = before ++ r :: after ∧
        Command.call react (.unsubscribe id token : Command α G) f = .ok (.removed true)
          (f.update id fun n => { n with registrations := before ++ after }) := by
  have present := (Option.filter_eq_some_iff.1 found).1
  rw [call_unsubscribe found]
  rcases Node.unsubscribe_cases ordered token with
    ⟨has, nobody, same⟩ | ⟨has, before, r, after, given, split, same⟩
  · exact .inl ⟨nobody, by rw [has, update_eq_self present same]⟩
  · refine .inr ⟨before, r, after, given, split, ?_⟩
    rw [has, update_eq_update present
      (l := fun n => { n with registrations := before ++ after }) same]

/-- A request that is carried out leads where its command does. -/
theorem turn_snd_of_ok {r : Request α G} {answer : Answer G}
    (h : r.command.call r.react f = .ok answer g) : (f.turn r).2 = g := by
  unfold turn
  rw [h]

/-- A request that is refused leads where its command does. -/
theorem turn_snd_of_error {r : Request α G} {fault : Fault}
    (h : r.command.call r.react f = .error fault g) : (f.turn r).2 = g := by
  unfold turn
  rw [h]

/-- What a request that concerns registrations does to a node: it names a number at most. -/
theorem turn_registers {n : Node α} (found : f.nodes[id]? = some n) {r : Request α G}
    (registers : r.command.Registers) : ∃ m, (f.turn r).2.nodes[id]? = some m ∧
      n.Registers (fun token => r.command = .unsubscribe id token) m := by
  obtain ⟨command, react⟩ := r
  cases command with
  | subscribe j listener =>
      have unnamed : ∀ token, (.subscribe j listener : Command α G) ≠ .unsubscribe id token :=
        fun _ => nofun
      cases there : f.available? j with
      | none =>
          rw [turn_snd_of_error (bind_of_error (bind_of_error (lent_of_none there)))]
          exact ⟨n, found, Node.registers_self fun _ => unnamed⟩
      | some p =>
          rw [turn_snd_of_ok (call_subscribe there listener react)]
          obtain ⟨m, hm, ⟨-, rfl⟩ | ⟨-, rfl⟩⟩ := exists_update found j
            fun n => n.subscribe (.listener listener)
          · refine ⟨_, hm, Node.rests_of_eq rfl rfl rfl, rfl, rfl, fun token child => ?_⟩
            simp [Node.subscribe]
          · exact ⟨m, hm, Node.registers_self fun _ => unnamed⟩
  | unsubscribe j other =>
      cases there : f.available? j with
      | none =>
          rw [turn_snd_of_error (bind_of_error (bind_of_error (lent_of_none there)))]
          refine ⟨n, found, Node.registers_self fun lent token named => ?_⟩
          cases named
          -- the node that is named is lent out, so it would have been found
          have lentOut : f.available? id = some n := Option.filter_eq_some_iff.2 ⟨found, lent⟩
          rw [there] at lentOut
          cases lentOut
      | some p =>
          rw [turn_snd_of_ok (call_unsubscribe there other react)]
          obtain ⟨present, lent⟩ := Option.filter_eq_some_iff.1 there
          obtain ⟨m, hm, ⟨rfl, rfl⟩ | ⟨elsewhere, rfl⟩⟩ := exists_update found j
            fun n => n.unsubscribe other
          · obtain rfl := Option.some.inj (present.symm.trans found)
            refine ⟨_, hm, Node.rests_of_eq rfl rfl rfl, rfl, rfl, fun token child => ?_⟩
            have named : (.unsubscribe j other : Command α G) = .unsubscribe j token ↔
                token = other := by
              constructor
              · rintro ⟨⟩
                rfl
              · rintro rfl
                rfl
            simp [Node.unsubscribe, lent, named]
          · refine ⟨m, hm, Node.registers_self fun _ token named => ?_⟩
            cases named
            exact elsewhere rfl
  | _ => exact registers.elim

/-- The forest after requests have been carried out. -/
def after (f : Forest α) (history : List (Request α G)) : Forest α :=
  history.foldl (fun f r => (f.turn r).2) f

/-- What requests that concern registrations do to a node. -/
theorem after_registers {n : Node α} (found : f.nodes[id]? = some n)
    {history : List (Request α G)} (registers : ∀ r ∈ history, r.command.Registers) :
    ∃ m, (f.after history).nodes[id]? = some m ∧
      n.Registers (fun token => ∃ r ∈ history, r.command = .unsubscribe id token) m := by
  induction history generalizing f n with
  | nil => exact ⟨n, found, Node.registers_self fun _ token => by simp⟩
  | cons r rest ih =>
      obtain ⟨first, later⟩ := List.forall_mem_cons.1 registers
      obtain ⟨p, hp, here⟩ := turn_registers found first
      obtain ⟨m, hm, there⟩ := ih hp later
      refine ⟨m, hm, here.toRests.trans there.toRests, there.role.trans here.role,
        there.available.trans here.available, fun token child => ?_⟩
      rw [there.hooks, here.hooks, here.available, and_assoc]
      simp only [List.exists_mem_cons_iff, not_or, ← imp_and]

end

end Forest

/-! ## Severed views -/

/-- A view that has the link, or has dropped it. -/
def Forest.HadLink (f : Forest α) (id : NodeId) (link : Link) : Prop :=
  ∃ v, f.nodes[id]? = some v ∧ (v.role = .view (some link) ∨ v.role = .view none)

/-- A view whose registration is gone: the number of its link is given out and nobody has it, and
nothing is about to be told to the view. -/
structure Situation.Severed (s : Situation α) (id : NodeId) (link : Link) : Prop where
  spent : s.forest.Spent link.parent link.token
  role : s.forest.HadLink id link
  silent : ∀ source token event, .deliver source ⟨token, .view id⟩ event ∉ s.tasks

namespace Situation

variable {s t : Situation α} {id : NodeId} {link : Link}

/-- A view keeps its link or drops it. -/
theorem Passage.hadLink {left : Option NodeId} (p : Passage s t left)
    (h : s.forest.HadLink id link) : t.forest.HadLink id link := by
  obtain ⟨v, hv, role⟩ := h
  obtain ⟨w, hw, ⟨-, kept⟩ | ⟨-, dropped⟩⟩ := p.forth hv
  · exact ⟨w, hw, kept.role ▸ role⟩
  · refine ⟨w, hw, .inr (dropped.role.trans ?_)⟩
    rcases role with role | role <;> rw [role] <;> rfl

/-- A view keeps its link or drops it along passages. -/
theorem Passages.hadLink (p : Passages s t) (h : s.forest.HadLink id link) :
    t.forest.HadLink id link := by
  induction p with
  | refl => exact h
  | tail _ p ih => exact p.hadLink ih

/-- A severed view stays one, whatever happens. -/
theorem Severed.passage {left : Option NodeId} (h : s.Severed id link) (rooted : s.Rooted)
    (p : Passage s t left) : t.Severed id link where
  spent := h.spent.succeeds p.succeeds
  role := p.hadLink h.role
  silent := by
    intro source token event hmem
    rcases p.told hmem with hmem | ⟨n, hn, hook⟩
    · exact h.silent source token event hmem
    -- whoever is registered as this view is so under the number of its link
    · obtain ⟨-, -, v, hv, role⟩ := rooted.hooked hn hook
      obtain ⟨w, hw, linked⟩ := h.role
      obtain rfl := Option.some.inj (hv.symm.trans hw)
      rcases linked with linked | unlinked
      · obtain rfl : (⟨source, token⟩ : Link) = link :=
          Option.some.inj (Role.view.inj (role.symm.trans linked))
        exact h.spent.not_mem hn hook rfl
      · rw [unlinked] at role
        cases role

/-- A severed view stays one along passages. -/
theorem Severed.passages (h : s.Severed id link) (rooted : s.Rooted) (p : Passages s t) :
    t.Severed id link := by
  induction p with
  | refl => exact h
  | tail before p ih => exact ih.passage (before.rooted rooted) p

end Situation

section

variable [RandomSource G] [LawfulRandomSource G] {allowed : Situation α → Move α G → Prop}
  {s t : Situation α} {id : NodeId} {link : Link}

/-- A move lets a view rest to which nothing is about to be told. -/
theorem Next.rests {move : Move α G} (sound : s.forest.Sound) (view : s.forest.HasView id)
    (silent : ∀ source token event, .deliver source ⟨token, .view id⟩ event ∉ s.tasks)
    (step : Next move s t) : s.forest.Rests t.forest id := by
  cases step with
  | call command begun =>
      obtain ⟨_, _, -, -, -, begins⟩ := Forest.begins_of_prelude sound begun
      exact begins.rests view
  | refuse command failed => exact (Forest.reads_of_prelude_error sound failed).2.rests
  | step react =>
      refine (Forest.does_step sound react _).rests fun source token event same => ?_
      exact silent source token event (same ▸ List.mem_cons_self)
  | finish => exact Forest.rests_update fun _ n => Node.rests_of_eq rfl rfl rfl
  | forget => exact Forest.rests_of_nodes_eq rfl

/-- A view keeps its link or drops it along every course. -/
theorem Course.hadLink {news : List (Occurrence α)} (course : Course allowed s news t)
    (first : Reached allowed s) (h : s.forest.HadLink id link) : t.forest.HadLink id link := by
  induction course with
  | stay => exact h
  | next before _ step ih =>
      have reached := before.reached first
      obtain ⟨held, rooted⟩ := reached.rooted
      exact (rooted.passages_next reached.ordered held reached.orderly step).2.hadLink ih

/-- A severed view stays one along every course, and rests. -/
theorem Course.severed {news : List (Occurrence α)} (course : Course allowed s news t)
    (first : Reached allowed s) (h : s.Severed id link) :
    t.Severed id link ∧ s.forest.Rests t.forest id := by
  induction course with
  | stay => exact ⟨h, Forest.rests_of_nodes_eq rfl⟩
  | next before _ step ih =>
      obtain ⟨severed, rests⟩ := ih
      have reached := before.reached first
      have sound := reached.ordered.forest.sound
      obtain ⟨held, rooted⟩ := reached.rooted
      have passages := (rooted.passages_next reached.ordered held reached.orderly step).2
      obtain ⟨v, hv, role⟩ := severed.role
      have view : v.role.isView = true := by rcases role with role | role <;> rw [role] <;> rfl
      exact ⟨severed.passages rooted passages,
        rests.trans (step.rests sound ⟨v, hv, view⟩ severed.silent)⟩

omit [LawfulRandomSource G] in
/-- What a request leads to is reached. -/
theorem Reached.turn {f : Forest α} (h : Reached (fun _ (_ : Move α G) => True) (.quiet f))
    (r : Request α G) : Reached (fun _ (_ : Move α G) => True) (.quiet (f.turn r).2) := by
  cases begun : r.command.prelude f with
  | error fault g =>
      rw [Forest.turn_of_error begun]
      exact h.next trivial (.refuse r.command begun)
  | ok result g =>
      obtain ⟨answer, effect⟩ := result
      obtain ⟨t, leads, turned⟩ := Forest.turn_of_ok begun
      have reached := (h.next trivial (.call r.command begun)).leads leads
      rw [turned]
      cases changing : (g.begin effect).changing with
      | none =>
          rw [changing] at reached
          exact reached
      | some id =>
          rw [changing] at reached
          exact reached.next trivial .finish

omit [LawfulRandomSource G] in
/-- What requests lead to is reached. -/
theorem Reached.after {f : Forest α} (h : Reached (fun _ (_ : Move α G) => True) (.quiet f))
    (history : List (Request α G)) :
    Reached (fun _ (_ : Move α G) => True) (.quiet (f.after history)) := by
  induction history generalizing f with
  | nil => exact h
  | cons r rest ih => exact ih (h.turn r)

end

/-! ## Who follows -/

namespace Forest

/-- The parent of a view is there, and the view is registered with it under the token of the
link. -/
def Attached (f : Forest α) (id : NodeId) (link : Link) : Prop :=
  ∃ p, f.available? link.parent = some p ∧ ⟨link.token, .view id⟩ ∈ p.registrations

/-- A node shows the cells of the canonical node above it. -/
def Follows (f : Forest α) (id : NodeId) : Prop :=
  ∃ top t, f.Above id top ∧ f.nodes[top]? = some t ∧ t.role = .canonical ∧
    f.shown id = .ok t.cells

variable {f : Forest α} {id : NodeId}

/-- A node that is current follows. -/
theorem Current.follows (h : f.Current id) (sound : f.Sound) : f.Follows id := by
  obtain ⟨place, m, top, t, passes, hm, live, fresh, above, ht, canonical, cells⟩ := h
  exact ⟨top, t, passes.above.trans above, ht, canonical,
    (shown_eq_ok_iff sound).2 ⟨place, m, passes, hm, live, fresh, cells⟩⟩

end Forest

namespace Situation

variable {f : Forest α} {id : NodeId} {link : Link} {v : Node α}

/-- Between two commands a view that has a link is attached or severed. -/
theorem Rooted.severed (h : (quiet f).Rooted) (found : f.nodes[id]? = some v)
    (role : v.role = .view (some link)) (detached : ¬ f.Attached id link) :
    (quiet f).Severed id link where
  spent := by
    obtain ⟨-, -, p, hp, given, only⟩ := h.granted found role
    refine ⟨p, hp, given, fun r hr same => detached ?_⟩
    obtain ⟨token, target⟩ := r
    obtain rfl : target = .view id := only _ hr same
    obtain rfl : token = link.token := same
    obtain ⟨-, present, -⟩ := h.hooked hp hr
    exact ⟨p, Option.filter_eq_some_iff.2 ⟨hp, present.resolve_right nofun⟩, hr⟩
  role := ⟨v, found, .inl role⟩
  silent _ _ _ hmem := absurd hmem List.not_mem_nil

/-- Between two commands of a tactful run a view that is there is an orphan, or it is attached and
follows. -/
theorem Tidy.follows (h : (quiet f).Tidy) (found : f.available? id = some v)
    (live : v.orphaned = false) (role : v.role = .view (some link)) :
    f.Attached id link ∧ f.Follows id := by
  obtain ⟨hv, lent⟩ := Option.filter_eq_some_iff.1 found
  obtain ⟨p, parent, -, hook⟩ := h.linked.exists_parent hv role
  have current : f.Current id := h.current hv live (.inl lent) fun ⟨_, _, _, _, _, pending⟩ =>
    absurd pending List.not_mem_nil
  exact ⟨⟨p, parent, hook⟩, current.follows h.ordered.forest.sound⟩

end Situation

section

variable [RandomSource G] {allowed : Situation α → Move α G → Prop} {f : Forest α} {id : NodeId}
  {v : Node α} {link : Link} {history : List (Request α G)}

/-- Of all calls that concern registrations only those detach a view that name its number at its
parent. -/
theorem Forest.Attached.after_iff (attached : f.Attached id link)
    (registers : ∀ r ∈ history, r.command.Registers) :
    (f.after history).Attached id link ↔
      ∀ r ∈ history, r.command ≠ .unsubscribe link.parent link.token := by
  obtain ⟨p, found, hook⟩ := attached
  obtain ⟨hp, lent⟩ := Option.filter_eq_some_iff.1 found
  obtain ⟨q, hq, registered⟩ := Forest.after_registers hp registers
  have there : (f.after history).available? link.parent = some q :=
    Option.filter_eq_some_iff.2 ⟨hq, registered.available.trans lent⟩
  have hooked : ⟨link.token, .view id⟩ ∈ q.registrations ↔
      ∀ r ∈ history, r.command ≠ .unsubscribe link.parent link.token := by
    rw [registered.hooks]
    simp [hook, lent]
  rw [← hooked]
  constructor
  · rintro ⟨q', hq', hook'⟩
    obtain rfl := Option.some.inj (there.symm.trans hq')
    exact hook'
  · exact fun hook' => ⟨q, there, hook'⟩

variable [LawfulRandomSource G]

/-- A view that calls have detached is never orphaned, and keeps the cells that it holds. -/
theorem Reached.rests (h : Reached allowed (.quiet f)) (found : f.nodes[id]? = some v)
    (role : v.role = .view (some link)) (registers : ∀ r ∈ history, r.command.Registers)
    (detached : ¬ (f.after history).Attached id link) {news : List (Occurrence α)}
    {t : Situation α}
    (course : Course (fun _ (_ : Move α G) => True) (.quiet (f.after history)) news t) :
    ∃ w, t.forest.nodes[id]? = some w ∧ w.orphaned = false ∧
      (v.isFresh = true → w.isFresh = true ∧ w.cells = v.cells) := by
  obtain ⟨-, live, -⟩ := h.rooted.2.granted found role
  obtain ⟨u, hu, registered⟩ := Forest.after_registers found registers
  have reached := h.anyhow.after history
  have severed := reached.rooted.2.severed hu (registered.role.trans role) detached
  obtain ⟨w, hw, rests⟩ := (course.severed reached severed).2 u hu
  have whole := registered.toRests.trans rests
  exact ⟨w, hw, whole.orphaned.trans live, whole.cells⟩

/-- Where no view is named each is an orphan, or it is attached and follows. -/
theorem Reached.follows (h : Reached allowed (.quiet f))
    (tactful : ∀ s move, allowed s move → move.Tactful s) (found : f.nodes[id]? = some v)
    (role : v.role = .view (some link)) {news : List (Occurrence α)} {g : Forest α}
    (course : Course allowed (.quiet f) news (.quiet g)) {w : Node α}
    (there : g.available? id = some w) :
    w.orphaned = true ∧ g.shown id = .error .orphaned ∨
      w.orphaned = false ∧ w.role = .view (some link) ∧ g.Attached id link ∧ g.Follows id := by
  have tidy := ((course.reached h).mono tactful).tidy
  obtain ⟨hw, lent⟩ := Option.filter_eq_some_iff.1 there
  cases orphaned : w.orphaned with
  | true => exact .inl ⟨rfl, Forest.shown_of_orphaned hw orphaned⟩
  | false =>
      obtain ⟨w', hw', linked | unlinked⟩ := course.hadLink h ⟨v, found, .inl role⟩
      · obtain rfl := Option.some.inj (hw.symm.trans hw')
        exact .inr ⟨rfl, linked, tidy.follows there orphaned linked⟩
      · obtain rfl := Option.some.inj (hw.symm.trans hw')
        have ended := (tidy.linked.unlinked hw).1 unlinked
        simp [orphaned, lent] at ended

/-- A node removes the registration of a number that it is given, if it has one, whoever has given
the number out.  So of all calls that concern registrations only those detach a view that name its
number at its parent; a view that is detached rests for good; and where no view is named, each is
attached and follows, or it is an orphan. -/
theorem views_follow_unless_named (h : Reached allowed (.quiet f)) :
    (∀ (id : NodeId) (n : Node α) (token : Token) (react : Reaction α),
      f.available? id = some n →
        (∀ r ∈ n.registrations, r.token ≠ token) ∧
            Command.call react (.unsubscribe id token : Command α G) f = .ok (.removed false) f ∨
          ∃ before r after, r.token = token ∧ n.registrations = before ++ r :: after ∧
            Command.call react (.unsubscribe id token : Command α G) f = .ok (.removed true)
              (f.update id fun n => { n with registrations := before ++ after })) ∧
      (∀ (id : NodeId) (v : Node α) (link : Link) (history : List (Request α G)),
        f.nodes[id]? = some v → v.role = .view (some link) →
          (∀ r ∈ history, r.command.Registers) →
            (f.Attached id link → ((f.after history).Attached id link ↔
              ∀ r ∈ history, r.command ≠ .unsubscribe link.parent link.token)) ∧
              (¬ (f.after history).Attached id link → ∀ news t,
                Course (fun _ (_ : Move α G) => True) (.quiet (f.after history)) news t →
                  ∃ w, t.forest.nodes[id]? = some w ∧ w.orphaned = false ∧
                    (v.isFresh = true → w.isFresh = true ∧ w.cells = v.cells))) ∧
        ((∀ s move, allowed s move → move.Tactful s) → ∀ news g,
          Course allowed (.quiet f) news (.quiet g) → ∀ (id : NodeId) (v w : Node α) (link : Link),
            f.nodes[id]? = some v → v.role = .view (some link) → g.available? id = some w →
              w.orphaned = true ∧ g.shown id = .error .orphaned ∨
                w.orphaned = false ∧ w.role = .view (some link) ∧ g.Attached id link ∧
                  g.Follows id) := by
  refine ⟨fun id n token react found => ?_, fun id v link history found role registers => ?_, ?_⟩
  · have present := (Option.filter_eq_some_iff.1 found).1
    exact Forest.call_unsubscribe_cases found (h.orderly.tokens present) token react
  · exact ⟨fun attached => attached.after_iff registers,
      fun detached _ _ course => h.rests found role registers detached course⟩
  · exact fun tactful _ _ course _ _ _ _ found role there =>
      h.follows tactful found role course there

end

/-- Two canonical nodes and a view of the second one, which has been read. -/
def viewOfSecond : Forest Unit :=
  let four : Shape := ⟨[4], by decide, by simp, by decide⟩
  let second : Node Unit :=
    { (Node.canonical four : Node Unit) with nextToken := 1, registrations := [⟨0, .view 2⟩] }
  ⟨#[.canonical four, second, { (Node.view four ⟨1, 0⟩ : Node Unit) with cache := .ofSparse [] }], [], []⟩

theorem reached_viewOfSecond :
    Reached (fun s (move : Move Unit Generator) => move.Tactful s) (.quiet viewOfSecond) := by
  have created : Reached (α := Unit) (G := Generator) (fun s move => move.Tactful s) _ :=
    Reached.start.next (by rintro _ _ ⟨⟩) (.call (.create [4]) rfl)
  have again := created.next (by rintro _ _ ⟨⟩) (.call (.create [4]) rfl)
  have viewed := again.next (by rintro _ _ ⟨⟩) (.call (.view 1) rfl)
  have asked := viewed.next (by rintro _ _ ⟨⟩) (.call (.ask (.sparse 2))
    (bind_of_ok (bind_of_ok
      (Forest.sparse_of_stale rfl rfl rfl rfl (by decide) rfl rfl rfl rfl rfl rfl))))
  exact asked.next (by trivial) .forget

/-- The view stays with its parent if the number under which it is registered is named at another
node, and not if it is named at its parent. -/
theorem views_follow_unless_named_view_of_second :
    let named (id : NodeId) : Request Unit Generator := ⟨.unsubscribe id 0, fun _ _ _ => []⟩
    viewOfSecond.Attached 2 ⟨1, 0⟩ ∧ viewOfSecond.Follows 2 ∧
      (viewOfSecond.after [named 0]).Attached 2 ⟨1, 0⟩ ∧
        ¬ (viewOfSecond.after [named 1]).Attached 2 ⟨1, 0⟩ := by
  intro named
  obtain ⟨-, registering, following⟩ := views_follow_unless_named reached_viewOfSecond
  obtain ⟨-, linked, attached, follows⟩ : _ ∧ _ :=
    (following (fun _ _ tactful => tactful) [] _ .stay 2 _ _ ⟨1, 0⟩ rfl rfl rfl).resolve_left nofun
  have registers : ∀ id, ∀ r ∈ [named id], r.command.Registers := fun id r hr => by
    rw [List.mem_singleton.1 hr]
    trivial
  have exactly := fun id => (registering 2 _ ⟨1, 0⟩ [named id] rfl rfl (registers id)).1 attached
  refine ⟨attached, follows, (exactly 0).2 fun r hr same => ?_, fun left => ?_⟩
  · rw [List.mem_singleton.1 hr] at same
    cases same
  · exact (exactly 1).1 left _ List.mem_cons_self rfl

/-- A token of the first node, given to the second one, removes the registration of a view: the view
goes on to show no cells when its parent has one, and it is no orphan when its parent is
destroyed. -/
theorem token_of_another_node_detaches_view :
    let silent : Reaction Unit := fun _ _ _ => []
    ∃ f g h k : Forest Unit,
      Command.call silent (.subscribe 0 () : Command Unit Generator) viewOfSecond =
          .ok (.token 0) f ∧ f.Attached 2 ⟨1, 0⟩ ∧
        Command.call silent (.unsubscribe 1 0 : Command Unit Generator) f = .ok (.removed true) g ∧
          (g.nodes[1]?.map Node.registrations) = some [] ∧
        Command.call silent (.mutate 1 (.setSparse [1]) : Command Unit Generator) g = .ok .done h ∧
          h.shown 1 = .ok [1] ∧ h.shown 2 = .ok [] ∧
        Command.call silent (.destroy 1 : Command Unit Generator) h = .ok .done k ∧
          (k.available? 2).map Node.orphaned = some false := by
  intro silent
  let f := viewOfSecond.update 0 fun n => n.subscribe (.listener ())
  let g := f.update 1 fun n => n.unsubscribe 0
  let h := (g.update 1 fun n => { n with cache := .ofSparse [1], available := false }).update 1
    fun n => { n with available := true }
  -- nobody hears of the change, as nobody is registered any more
  have changed : Command.call silent (.mutate 1 (.setSparse [1]) : Command Unit Generator) g =
      .ok .done h := by
    have begun : (.mutate 1 (.setSparse [1]) : Command Unit Generator).prelude g =
        .ok (.done, .store 1 (.ofSparse [1])) g := rfl
    rw [Command.call_eq, bind_of_ok begun]
    have stored : g.carryOut silent (.store 1 (.ofSparse [1])) = h := by
      rw [Forest.carryOut_eq]
      show Situation.finish ⟨Forest.run silent _ [], [], some 1⟩ = h
      rw [Forest.run]
      rfl
    rw [← stored]
    rfl
  have parent : h.shown 1 = .ok [1] := (@Forest.shown_of_isFresh _ h 1 _ rfl rfl rfl :)
  have view : h.shown 2 = .ok [] := (@Forest.shown_of_isFresh _ h 2 _ rfl rfl rfl :)
  have loose : h.Loose 1 := ⟨_, rfl, rfl, rfl⟩
  exact ⟨f, g, h, h.update 1 Node.gone, rfl, ⟨_, rfl, List.mem_cons_self⟩, rfl, rfl, changed,
    parent, view, bind_of_ok (Forest.destroy_of_loose loose silent), rfl⟩

end SparseTensor
