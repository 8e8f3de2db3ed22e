import GuardElision.Proofs.Elimination.Awaited

namespace GuardElision

namespace Walk

variable {config : EliminationConfig} {method : Option MethodId} {w w' w₀ : Walk} {stage next : Stage}
  {states past : List (Stage × Walk)} {bound : Nat}

/-- The states that a walk goes through, the latest first. -/
inductive Passes (config : EliminationConfig) (method : Option MethodId) (w₀ : Walk) : List (Stage × Walk) → Prop where
  | start : Passes config method w₀ [(.descend Graph.start, w₀)]
  | step {stage next : Stage} {w w' : Walk} {past : List (Stage × Walk)} :
    Passes config method w₀ ((stage, w) :: past) → stage ≠ .done → advance config method stage w = .ok next w' →
      Passes config method w₀ ((next, w') :: (stage, w) :: past)

/-- The nodes that were entered, the latest first. -/
def entered (states : List (Stage × Walk)) : List NodeId :=
  states.filterMap fun
    | (.descend node, _) => some node
    | _ => none

/-- An origin was given out in a transition at `d`. -/
def PushedAt (states : List (Stage × Walk)) (d : NodeId) (o : Origin) : Prop :=
  ∃ before after : Stage × Walk, [after, before] <:+: states ∧ (before.1 = .descend d ∨ before.1 = .process d) ∧
    before.2.facts.nextSeq ≤ o.seq ∧ o.seq < after.2.facts.nextSeq

theorem PushedAt.cons {d : NodeId} {o : Origin} (h : PushedAt states d o) (s : Stage × Walk) :
    PushedAt (s :: states) d o := by
  obtain ⟨before, after, hin, hd⟩ := h
  exact ⟨before, after, hin.trans (List.suffix_cons s states).isInfix, hd⟩

/-- What is known in each scope was learnt at the nodes that were open then. -/
inductive Scoped (pushed : NodeId → Origin → Prop) : List NodeId → Known → List Known → Prop where
  | nil {known : Known} : known.Credits (fun _ => False) → Scoped pushed [] known []
  | cons {v : NodeId} {vs : List NodeId} {known inner : Known} {outer : List Known} :
    inner.Credits (fun o => ∃ d ∈ v :: vs, pushed d o) → Scoped pushed vs known outer →
      Scoped pushed (v :: vs) inner (known :: outer)

namespace Scoped

variable {pushed pushed' : NodeId → Origin → Prop} {v : NodeId} {vs : List NodeId} {known : Known} {outer : List Known}

theorem credits (h : Scoped pushed vs known outer) : known.Credits fun o => ∃ d ∈ vs, pushed d o := by
  cases h with
  | nil hc => exact hc.mono fun _ => False.elim
  | cons hc _ => exact hc

theorem mono (h : Scoped pushed vs known outer) (hp : ∀ d o, pushed d o → pushed' d o) :
    Scoped pushed' vs known outer := by
  induction h with
  | nil hc => exact .nil hc
  | cons hc _ ih => exact .cons (hc.mono fun o ⟨d, hd, ho⟩ => ⟨d, hd, hp d o ho⟩) ih

theorem enter (h : Scoped pushed vs known outer) (v : NodeId) : Scoped pushed (v :: vs) known (known :: outer) :=
  .cons (h.credits.mono fun _ ⟨d, hd, ho⟩ => ⟨d, List.mem_cons_of_mem v hd, ho⟩) h

theorem cons_inv {inner : Known} (h : Scoped pushed (v :: vs) inner outer) :
    inner.Credits (fun o => ∃ d ∈ v :: vs, pushed d o) ∧
      ∃ known rest, outer = known :: rest ∧ Scoped pushed vs known rest := by
  cases h with
  | cons hc hrest => exact ⟨hc, _, _, rfl, hrest⟩

/-- Facts that are learnt at the innermost node belong to its scope. -/
theorem grows {f f' : Facts} (h : Scoped pushed (v :: vs) f.known f.outer) (G : f.Grows f')
    (hpushed : ∀ o : Origin, f.nextSeq ≤ o.seq → o.seq < f'.nextSeq → pushed v o) :
    Scoped pushed (v :: vs) f'.known f'.outer := by
  obtain ⟨hc, known, rest, ho, hrest⟩ := h.cons_inv
  rw [G.outer, ho]
  refine .cons ((G.credits _ hc).mono ?_) hrest
  rintro o (ho | ⟨hlo, hhi⟩)
  · exact ho
  · exact ⟨v, List.mem_cons_self, hpushed o hlo hhi⟩

theorem exitScope {f : Facts} (h : Scoped pushed (v :: vs) f.known f.outer) :
    Scoped pushed vs f.exitScope.known f.exitScope.outer := by
  obtain ⟨_, known, rest, ho, hrest⟩ := h.cons_inv
  obtain ⟨hnil, _⟩ | ⟨_, _, ho', hknown, houter, _⟩ := f.exitScope_cases
  · simp [Facts.outer, hnil, Known.unwind] at ho
  · obtain ⟨rfl, rfl⟩ := List.cons.inj (ho.symm.trans ho')
    rw [hknown, houter]
    exact hrest

end Scoped

/-- The graph is sound enough to go on, and small enough to come to an end. The open nodes, innermost
first, are reached, and each is strictly dominated by those after it. -/
structure Nested (bound : Nat) (visited nodes : List NodeId) (g : Graph) : Prop where
  linked : g.Linked
  start : ∃ n, g.get? Graph.start = some n
  weight : g.capacity + g.guardCount ≤ bound
  inside : ∀ c ∈ visited, c < g.capacity
  reached : ∀ v ∈ nodes, g.Reach v
  chain : nodes.Pairwise fun inner outer => g.StrictDom outer inner

namespace Nested

variable {g h k : Graph} {visited nodes : List NodeId} {u : NodeId}

theorem sameFlow (N : Nested bound visited nodes g) (H : h.Linked) (S : g.SameFlow h) :
    Nested bound visited nodes h := by
  obtain ⟨n, hn⟩ := N.start
  refine ⟨H, S.start n hn, ?_, fun c hc => S.capacity ▸ N.inside c hc, fun v hv => S.reach (N.reached v hv),
    N.chain.imp S.strictDom⟩
  rw [S.capacity]
  exact Nat.le_trans (Nat.add_le_add_left (Graph.guardCount_le S.guard) _) N.weight

theorem aside (N : Nested bound visited nodes g) (A : g.Aside h) : Nested bound visited nodes h :=
  N.sameFlow (N.linked.lighter A.toLighter) (A.sameFlow N.linked)

theorem enter (N : Nested bound visited nodes g) (hu : g.Reach u) (hdom : ∀ v ∈ nodes, g.StrictDom v u) :
    Nested bound (u :: visited) (u :: nodes) g :=
  ⟨N.linked, N.start, N.weight, List.forall_mem_cons.mpr ⟨hu.lt, N.inside⟩,
    List.forall_mem_cons.mpr ⟨hu, N.reached⟩, List.pairwise_cons.mpr ⟨hdom, N.chain⟩⟩

/-- Edges of the innermost node may be cut when it is left. The other open nodes are reached around it. -/
theorem leave (N : Nested bound visited (u :: nodes) g) (C : g.CutAt u h) (K : h.Kept k)
    (hweight : k.capacity + k.guardCount ≤ bound) : Nested bound visited nodes k := by
  obtain ⟨hdom, hchain⟩ := List.pairwise_cons.mp N.chain
  have hreach : ∀ v ∈ nodes, h.Reach v := fun v hv => C.reach (hdom v hv).avoids
  obtain ⟨n, hn⟩ := N.start
  obtain ⟨m, hm⟩ := C.start n hn
  refine ⟨K.linked, K.flow.start m hm, hweight, fun c hc => ?_, fun v hv => K.flow.reach (hreach v hv), ?_⟩
  · rw [K.flow.capacity]
    exact Nat.lt_of_lt_of_le (N.inside c hc) C.capacity
  · exact hchain.imp_of_mem fun ha _ hd => K.flow.strictDom (C.strictDom hd (hreach _ ha))

end Nested

theorem Trades.weight_le {u : NodeId} {deferred : Option DeferredEdit} {g h : Graph} (T : Trades u deferred g h)
    (N : g.NoNewGuard h) (hat : ∀ q reason, deferred = some (.strengthen q reason) → q ∈ g.guardsAt u) :
    h.capacity + h.guardCount ≤ g.capacity + g.guardCount := by
  rcases T with hcap | ⟨hcap, q, reason, hq, hgone⟩
  · exact hcap ▸ Nat.add_le_add_left (Graph.guardCount_le N) _
  · obtain ⟨m, hm, hg, _⟩ := Graph.mem_guardsAt.mp (hat q reason hq)
    have hlt := Graph.guardCount_lt N hm hg (hgone (hat q reason hq))
    omega

/-- The next stage of a walk is the first, or it goes on with the innermost visit. The lists of children to be entered
agree with the tree then, with the child that was just taken put back, and with none for a visit not yet processed. -/
inductive IsNext (w : Walk) : Stage → Prop where
  | start : w.visits = [] → w.visited = [] → IsNext w (.descend Graph.start)
  | descend {c : NodeId} {v : Visit} {outer : List Visit} : w.visits = v :: outer →
      Awaited w False ({ v with pending := c :: v.pending } :: outer) → IsNext w (.descend c)
  | process {node : NodeId} {outer : List Visit} : w.visits = { node } :: outer → Awaited w False outer →
      IsNext w (.process node)
  | ascend {v : Visit} {outer : List Visit} : w.visits = v :: outer → v.pending = [] → Awaited w False (v :: outer) →
      IsNext w (.ascend v.node)
  | done : w.visits = [] → IsNext w .done

/-- A node that was entered and not yet processed has one transition more to come. -/
def owed : Stage → Nat
  | .process _ => 1
  | _ => 0

theorem nextStage_isNext (hawaited : Awaited w False w.visits) (h : w.nextStage = (stage, w')) :
    IsNext w' stage ∧ owed stage = 0 := by
  obtain ⟨hnil, rfl, rfl⟩ | ⟨v, outer, hv, ⟨hp, rfl, rfl⟩ | ⟨c, pending, hp, rfl, rfl⟩⟩ := nextStage_cases h
  · exact ⟨.done hnil, rfl⟩
  · exact ⟨.ascend hv hp (hv ▸ hawaited), rfl⟩
  · refine ⟨.descend rfl ?_, rfl⟩
    rw [hv] at hawaited
    change Awaited _ False ({ v with pending := c :: pending } :: outer)
    rw [← hp]
    exact hawaited.congr id rfl fun _ _ => rfl

/-- What holds between two transitions. -/
structure Steady (bound : Nat) (past : List (Stage × Walk)) (stage : Stage) (w : Walk) : Prop where
  nested : Nested bound w.visited (w.visits.map (·.node)) w.graph
  nodup : w.visited.Nodup
  tree : stage ≠ .done → w.graph.Current w.dominators
  -- Only the innermost visit can end with a trap, as nothing below it is entered.
  free : ∀ u ∈ w.visits.tail, ¬Trapped u
  trap : ∀ v ∈ w.visits, ∀ q reason, v.deferred = some (.strengthen q reason) → q ∈ w.graph.guardsAt v.node
  scopes : Scoped (PushedAt ((stage, w) :: past)) (w.visits.map (·.node)) w.facts.known w.facts.outer
  next : IsNext w stage
  entered : entered past = w.visited
  -- A visit takes three transitions, and an open one has its last to come.
  count : past.length + w.visits.length + owed stage = 3 * w.visited.length

namespace Steady

theorem nodes_ne {v : Visit} {outer : List Visit} (I : Steady bound past stage w) (hv : w.visits = v :: outer) :
    ∀ u ∈ outer, u.node ≠ v.node := by
  have hchain := I.nested.chain
  simp only [hv, List.map_cons, List.pairwise_cons, List.forall_mem_map] at hchain
  exact fun u hu => (hchain.1 u hu).1

/-- The node to be entered is new, and the open visits dominate it. -/
theorem fresh {node : NodeId} (I : Steady bound past (.descend node) w) :
    node ∉ w.visited ∧ w.graph.Reach node ∧ ∀ v ∈ w.visits, w.graph.StrictDom v.node node ∧ ¬Trapped v := by
  cases I.next with
  | start hvisits hvisited =>
    obtain ⟨n, hn⟩ := I.nested.start
    simp [hvisits, hvisited, Graph.Reach.start (Graph.lt_capacity hn)]
  | @descend _ v outer hv hawaited =>
    have hlist : node :: v.pending = _ := hawaited.1.eq id
    obtain ⟨hfree, hchild, hnew, _⟩ := mem_childrenToEnter.mp (hlist ▸ List.mem_cons_self)
    have hd := (I.tree (by simp)).dominated v.node node hchild
    refine ⟨hnew, Graph.Dom.reach hd.2, ?_⟩
    have hchain := I.nested.chain
    simp only [hv, List.map_cons, List.pairwise_cons, List.forall_mem_map] at hchain
    have hothers := I.free
    rw [hv] at hothers ⊢
    exact List.forall_mem_cons.mpr ⟨⟨hd, hfree⟩, fun u hu => ⟨(hchain.1 u hu).trans hd, hothers u hu⟩⟩

theorem descend {node : NodeId} (I : Steady bound past (.descend node) w)
    (h : Walk.descend node w = .ok next w') : Steady bound ((.descend node, w) :: past) next w' := by
  obtain ⟨rfl, W⟩ := descend_within h
  obtain ⟨hnew, hreach, hopen⟩ := I.fresh
  have T := I.tree (by simp)
  have hvisits : w'.visits = { node } :: w.visits := W.visits
  have hvisited : w'.visited = node :: w.visited := W.visited
  have hnested : Nested bound w'.visited (w'.visits.map (·.node)) w'.graph := by
    rw [hvisits, hvisited]
    exact (I.nested.enter hreach (by simpa using fun v hv => (hopen v hv).1)).aside W.aside
  have hnodup : w'.visited.Nodup := by
    rw [hvisited]
    exact List.nodup_cons.mpr ⟨hnew, I.nodup⟩
  have T' : w'.graph.Current w'.dominators := by
    rw [W.dominators]
    exact T.sameFlow (W.aside.sameFlow I.nested.linked)
  have hawaited : Awaited w' False w.visits := by
    cases I.next with
    | start hnil => exact hnil ▸ trivial
    | descend hv hawaited =>
      have hne := I.nodes_ne hv
      rw [hv]
      exact hawaited.enter T T' I.nested.start hnested.start W.dominators rfl hne hvisited W.excluded
  have hopened : Scoped (PushedAt ((.process node, w') :: (.descend node, w) :: past)) (node :: w.visits.map (·.node))
      w.facts.enterScope.known w.facts.enterScope.outer := by
    rw [Facts.enterScope_outer]
    exact (I.scopes.mono fun d o ho => ho.cons _).enter node
  have hpushed : ∀ o : Origin, w.facts.nextSeq ≤ o.seq → o.seq < w'.facts.nextSeq →
      PushedAt ((.process node, w') :: (.descend node, w) :: past) node o := fun o hlo hhi =>
    ⟨(.descend node, w), (.process node, w'), (List.prefix_append _ past).isInfix, .inl rfl, hlo, hhi⟩
  refine ⟨hnested, hnodup, fun _ => T', ?_, ?_, hvisits ▸ hopened.grows W.facts hpushed, .process hvisits hawaited,
    ?_, ?_⟩
  · rw [hvisits]
    exact fun u hu => (hopen u hu).2
  · rw [hvisits]
    exact List.forall_mem_cons.mpr ⟨nofun, fun u hu q reason hq => absurd ⟨q, reason, hq⟩ (hopen u hu).2⟩
  · rw [hvisited, ← I.entered]
    rfl
  · have hcount := I.count
    simp only [owed] at hcount
    simp only [hvisits, hvisited, owed, List.length_cons]
    omega

theorem visits_of_ascend {node : NodeId} (I : Steady bound past (.ascend node) w) :
    ∃ v outer, w.visits = v :: outer ∧ v.pending = [] ∧ Awaited w False (v :: outer) := by
  cases I.next with
  | ascend hv hp hawaited => exact ⟨_, _, hv, hp, hawaited⟩

theorem visits_of_done (I : Steady bound past .done w) : w.visits = [] := by
  cases I.next with
  | done hnil => exact hnil

theorem visits_of_process {node : NodeId} (I : Steady bound past (.process node) w) :
    ∃ outer, w.visits = { node } :: outer ∧ Awaited w False outer := by
  cases I.next with
  | process hv hawaited => exact ⟨_, hv, hawaited⟩

/-- The walk goes on from a state where the lists are as they should be. -/
theorem goOn {before : Stage × Walk} (hnested : Nested bound w.visited (w.visits.map (·.node)) w.graph)
    (hnodup : w.visited.Nodup) (htree : w.visits ≠ [] → w.graph.Current w.dominators)
    (hfree : ∀ u ∈ w.visits.tail, ¬Trapped u)
    (htrap : ∀ v ∈ w.visits, ∀ q reason, v.deferred = some (.strengthen q reason) → q ∈ w.graph.guardsAt v.node)
    (hscopes : ∀ visits, Scoped (PushedAt ((next, { w with visits }) :: before :: past)) (w.visits.map (·.node))
      w.facts.known w.facts.outer)
    (hawaited : Awaited w False w.visits) (hentered : Walk.entered (before :: past) = w.visited)
    (hcount : (before :: past).length + w.visits.length = 3 * w.visited.length) (h : w.nextStage = (next, w')) :
    Steady bound (before :: past) next w' := by
  obtain ⟨hnext, howed⟩ := nextStage_isNext hawaited h
  obtain ⟨visits, rfl, hcore⟩ := nextStage_ok h
  have hnodes := Visit.nodes_eq hcore
  refine ⟨hnodes ▸ hnested, hnodup, fun hstage => htree fun hnil => ?_, ?_, ?_, hnodes ▸ hscopes visits, hnext, hentered,
    ?_⟩
  · rw [nextStage, hnil] at h
    exact hstage (Prod.mk.inj h).1.symm
  · have htail : visits.tail.map Visit.core = w.visits.tail.map Visit.core := by
      rw [List.map_tail, List.map_tail, hcore]
    exact Visit.forall_of_core (P := fun _ d => ¬∃ q reason, d = some (.strengthen q reason)) htail hfree
  · exact Visit.forall_of_core (P := fun node d => ∀ q reason, d = some (.strengthen q reason) →
      q ∈ w.graph.guardsAt node) hcore htrap
  · rw [howed, Nat.add_zero, ← hcount]
    simpa using congrArg List.length hcore

theorem process {node : NodeId} (I : Steady bound past (.process node) w)
    (h : Walk.process config method node w = .ok next w') : Steady bound ((.process node, w) :: past) next w' := by
  obtain ⟨outer, hv, hawaited⟩ := I.visits_of_process
  obtain ⟨w₁, deferred, W, hvisits, hnext, hexcluded, hdue⟩ := process_within (v := { node }) hv h
  have T := I.tree (by simp)
  have hvisited : w₁.visited = w.visited := W.visited
  have hnested : Nested bound w₁.visited (w₁.visits.map (·.node)) w₁.graph := by
    have N := I.nested.aside W.aside
    rw [hv] at N
    rwa [hvisits, hvisited]
  have T' : w₁.graph.Current w₁.dominators := by
    rw [W.dominators]
    exact T.sameFlow (W.aside.sameFlow I.nested.linked)
  have hlists : Awaited w₁ False w₁.visits := by
    rw [hvisits]
    refine ⟨waits_of_eq rfl, ?_⟩
    rcases hexcluded with hexcluded | ⟨truth, arm, hdeferred, hexcluded⟩
    · exact hawaited.congr False.elim hexcluded fun u _ =>
        childrenToEnter_congr T T' I.nested.start hnested.start W.dominators W.visited hexcluded u
    · refine hawaited.exclude (.inr ⟨truth, hdeferred⟩) hexcluded fun u _ => ?_
      exact childrenToEnter_without T T' I.nested.start hnested.start W.dominators
        (by simp [hexcluded, hvisited, or_left_comm]) u
  have hothers : ∀ u ∈ outer, ¬Trapped u := by
    have hfree := I.free
    rwa [hv] at hfree
  refine goOn hnested (hvisited ▸ I.nodup) (fun _ => T') ?_ ?_ (fun visits => ?_) hlists ?_ ?_ hnext
  · rwa [hvisits]
  · rw [hvisits]
    exact List.forall_mem_cons.mpr ⟨hdue, fun u hu q reason hq => absurd ⟨q, reason, hq⟩ (hothers u hu)⟩
  · have hbefore := I.scopes.mono fun d o ho => ho.cons (next, { w₁ with visits })
    rw [hv] at hbefore
    rw [hvisits]
    refine hbefore.grows W.facts fun o hlo hhi => ?_
    exact ⟨(.process node, w), (next, { w₁ with visits }), (List.prefix_append _ past).isInfix, .inr rfl, hlo, hhi⟩
  · exact I.entered.trans hvisited.symm
  · have hcount := I.count
    simp only [hv, owed, List.length_cons] at hcount
    simp only [hvisits, hvisited, List.length_cons]
    omega

theorem ascend {node : NodeId} (I : Steady bound past (.ascend node) w)
    (h : Walk.ascend method w = .ok next w') : Steady bound ((.ascend node, w) :: past) next w' := by
  obtain ⟨v, outer, hv, _, hawaited⟩ := I.visits_of_ascend
  obtain ⟨w₁, L, hnext⟩ := ascend_left hv I.nested.linked (I.nested.reached v.node (by simp [hv])) h
  obtain ⟨k, C, K, htree⟩ := L.cut
  have hnodes := Visit.nodes_eq L.visits
  have hat : ∀ q reason, v.deferred = some (.strengthen q reason) → q ∈ w.graph.guardsAt v.node :=
    I.trap v (hv ▸ List.mem_cons_self)
  have hothers : ∀ u ∈ w₁.visits, ¬Trapped u := by
    have hfree := I.free
    rw [hv] at hfree
    exact Visit.forall_of_core (P := fun _ d => ¬∃ q reason, d = some (.strengthen q reason)) L.visits hfree
  have hnested : Nested bound w₁.visited (w₁.visits.map (·.node)) w₁.graph := by
    have N := I.nested
    rw [hv] at N
    rw [hnodes, L.visited]
    exact N.leave C K (Nat.le_trans (L.trades.weight_le (C.guard.trans K.flow.guard) hat) N.weight)
  have T := I.tree (by simp)
  have hcurrent : w₁.visits ≠ [] → w₁.graph.Current w₁.dominators := by
    intro hopen
    obtain rfl | ⟨hnew, _⟩ | ⟨hold, _, _, hkeep⟩ := htree
    · exact absurd (List.map_eq_nil_iff.mp L.visits) hopen
    · rw [hnew]
      exact w₁.graph.current_dominators
    · rw [hold]
      exact (T.cutAt C hkeep).sameFlow K.flow
  have hlists : Awaited w₁ False w₁.visits := by
    obtain rfl | ⟨_, hrefilled⟩ | ⟨hold, hsame, hfolds, _⟩ := htree
    · rw [List.map_eq_nil_iff.mp L.visits]
      trivial
    · refine .of_eq fun u hu => ?_
      have hfree := mt traps_iff.mp (hothers u hu)
      obtain ⟨u, _, rfl⟩ := List.mem_map.mp (hrefilled ▸ hu)
      unfold refill childrenToEnter at *
      split at hfree <;> simp_all
    · rw [hsame]
      refine hawaited.2.congr (Or.rec id hfolds) L.excluded fun u hu => ?_
      have hopen : w₁.visits ≠ [] := hsame ▸ List.ne_nil_of_mem hu
      exact childrenToEnter_congr T (hcurrent hopen) I.nested.start hnested.start hold L.visited L.excluded u
  refine goOn hnested (L.visited ▸ I.nodup) hcurrent (fun u hu => hothers u (List.mem_of_mem_tail hu))
    (fun u hu q reason hq => absurd ⟨q, reason, hq⟩ (hothers u hu)) (fun visits => ?_) hlists
    (I.entered.trans L.visited.symm) ?_ hnext
  · have hbefore := I.scopes.mono fun d o ho => ho.cons (next, { w₁ with visits })
    rw [hv] at hbefore
    have hafter := hbefore.exitScope
    rwa [← L.facts, ← hnodes] at hafter
  · have hcount := I.count
    have hlength : w₁.visits.length = outer.length := by simpa using congrArg List.length L.visits
    simp only [hv, owed, List.length_cons] at hcount
    simp only [hlength, L.visited, List.length_cons]
    omega

theorem advance (I : Steady bound past stage w) (hstage : stage ≠ .done)
    (h : Walk.advance config method stage w = .ok next w') : Steady bound ((stage, w) :: past) next w' := by
  cases stage with
  | descend => exact I.descend h
  | process => exact I.process h
  | ascend => exact I.ascend h
  | done => exact absurd rfl hstage

end Steady

theorem steady_ofGraph {g : Graph} (H : g.Linked) (hstart : ∃ n, g.get? Graph.start = some n) (log : EventLog)
    (tally : Tally) : Steady (g.capacity + g.guardCount) [] (.descend Graph.start) (.ofGraph g log tally) := by
  have hnested : Nested (g.capacity + g.guardCount) [] [] g :=
    ⟨H, hstart, Nat.le_refl _, List.forall_mem_nil _, List.forall_mem_nil _, .nil⟩
  have hnothing : Known.Credits (fun _ => False) {} := ⟨by simp, by simp⟩
  exact ⟨hnested, .nil, fun _ => g.current_dominators, List.forall_mem_nil _, List.forall_mem_nil _, .nil hnothing,
    .start rfl rfl, rfl, rfl⟩

theorem Passes.steady (h : Passes config method w₀ states) (I : Steady bound [] (.descend Graph.start) w₀) :
    ∀ stage w past, states = (stage, w) :: past → Steady bound past stage w := by
  induction h with
  | start =>
    intro stage w past he
    cases he
    exact I
  | step _ hstage hadvance ih =>
    intro stage w past he
    cases he
    exact (ih _ _ _ rfl).advance hstage hadvance

/-- Three transitions for each node, and each node at most once. -/
theorem Steady.length_lt (I : Steady bound past stage w) : past.length < 3 * bound + 1 := by
  have hvisited : w.visited.length ≤ w.graph.capacity := by
    have hsub : w.visited ⊆ List.range w.graph.capacity := fun c hc => List.mem_range.mpr (I.nested.inside c hc)
    simpa using (List.subperm_of_subset I.nodup hsub).length_le
  have hcount := I.count
  have hweight := I.nested.weight
  omega

/-- A walk ends when it is done, or with a transition that fails. -/
def Ends (config : EliminationConfig) (method : Option MethodId) (w₀ : Walk) : EStateM.Result Fault Walk Unit → Prop
  | .ok _ w => ∃ past, Passes config method w₀ ((.done, w) :: past)
  | .error e w => ∃ stage w₁ past, Passes config method w₀ ((stage, w₁) :: past) ∧ stage ≠ .done ∧
    advance config method stage w₁ = .error e w

theorem stages_succ (config : EliminationConfig) (method : Option MethodId) (bound : Nat) (hstage : stage ≠ .done) :
    stages config method (bound + 1) stage = advance config method stage >>= stages config method bound := by
  cases stage with
  | done => exact absurd rfl hstage
  | _ => rfl

/-- A budget that no walk exceeds is enough to bring the walk to its end. -/
theorem stages_ends {limit : Nat}
    (hlimit : ∀ stage w past, Passes config method w₀ ((stage, w) :: past) → past.length < limit)
    (h : Passes config method w₀ ((stage, w) :: past)) (hbound : limit ≤ past.length + bound) :
    Ends config method w₀ (stages config method bound stage w) := by
  induction bound generalizing stage w past with
  | zero => exact absurd (hlimit stage w past h) (Nat.not_lt.mpr hbound)
  | succ bound ih =>
    by_cases hstage : stage = .done
    · subst hstage
      exact ⟨past, h⟩
    · rw [stages_succ config method bound hstage]
      cases hadvance : advance config method stage w with
      | ok next w' =>
        have hrest := ih (h.step hstage hadvance) (by simp only [List.length_cons]; omega)
        simpa only [bind, EStateM.bind, hadvance] using hrest
      | error e w' =>
        simp only [bind, EStateM.bind, hadvance]
        exact ⟨stage, w, past, h, hstage, hadvance⟩

theorem IsNext.taken {v : Visit} {outer : List Visit} (h : IsNext w stage) (hv : w.visits = v :: outer) :
    (∀ c, stage = .descend c → c :: v.pending = w.childrenToEnter v) ∧
      ∀ a, stage = .ascend a → w.childrenToEnter v = [] := by
  cases h with
  | start hnil => cases hnil.symm.trans hv
  | descend hu hawaited =>
    obtain ⟨rfl, rfl⟩ := List.cons.inj (hu.symm.trans hv)
    refine ⟨fun c hc => ?_, nofun⟩
    obtain rfl := Stage.descend.inj hc
    exact hawaited.1.eq id
  | process => exact ⟨nofun, nofun⟩
  | ascend hu hp hawaited =>
    obtain ⟨rfl, rfl⟩ := List.cons.inj (hu.symm.trans hv)
    exact ⟨nofun, fun _ _ => (hawaited.1.eq id).symm.trans hp⟩
  | done hnil => cases hnil.symm.trans hv

theorem IsNext.waiting (h : IsNext w stage) :
    ∀ v ∈ w.visits.tail, v.pending.filter (!w.excluded.contains ·) = w.childrenToEnter v := by
  have houter : ∃ folding, Awaited w folding w.visits.tail := by
    cases h with
    | start hnil => exact ⟨False, hnil ▸ trivial⟩
    | descend hv hawaited =>
      rw [hv]
      exact ⟨_, hawaited.2⟩
    | process hv hawaited =>
      rw [hv]
      exact ⟨False, hawaited⟩
    | ascend hv _ hawaited =>
      rw [hv]
      exact ⟨_, hawaited.2⟩
    | done hnil => exact ⟨False, hnil ▸ trivial⟩
  obtain ⟨_, hawaited⟩ := houter
  intro v hv
  obtain ⟨_, hwaits⟩ := hawaited.waits v hv
  exact hwaits.children

end Walk

end GuardElision
