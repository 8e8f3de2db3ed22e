import GuardElision.Elimination.Run
import GuardElision.Proofs.Elimination.Nesting
import GuardElision.Proofs.Idempotence.Settle

namespace GuardElision

namespace Graph

variable {g h : Graph} {c : NodeId}

/-- Control never splits, and it gets to every control node. -/
structure Straight (g : Graph) : Prop where
  linked : g.Linked
  start : ∃ n, g.get? Graph.start = some n ∧ n.predecessors = []
  branch : ∀ c n, g.get? c = some n → n.kind ≠ .branch
  reached : ∀ c n, g.get? c = some n → n.kind.isControl = true → g.Reach c

namespace Straight

variable (S : g.Straight)

include S

theorem exists_control (hr : g.Reach c) : ∃ n, g.get? c = some n ∧ n.kind.isControl = true := by
  obtain ⟨m, hm, -⟩ := S.start
  obtain ⟨n, hn⟩ := hr.exists_node ⟨m, hm⟩
  exact ⟨n, hn, S.linked.isControl hr hn⟩

theorem exists_node (C : SameControl g h) (hr : g.Reach c) :
    ∃ n, h.get? c = some n ∧ n.kind.isControl = true ∧ n.kind ≠ .branch := by
  obtain ⟨m, hm, hk⟩ := S.exists_control hr
  obtain ⟨n, hn, hkind, -⟩ := C.forth c m hm hk
  exact ⟨n, hn, hkind ▸ hk, hkind ▸ S.branch c m hm⟩

/-- There is no arm to learn from. -/
theorem armCondition? (C : SameControl g h) (hr : g.Reach c) : Walk.armCondition? h c = .ok none := by
  obtain ⟨m, hm, hk⟩ := S.exists_control hr
  obtain ⟨n, hn, -, -, -, hpred⟩ := C.forth c m hm hk
  simp only [Walk.armCondition?, node_eq_ok_iff.mpr hn, bind, Except.bind, hpred]
  split
  next split hp =>
    have hc : c ≠ Graph.start := by
      rintro rfl
      obtain ⟨l, hl, hnil⟩ := S.start
      cases hm.symm.trans hl
      rw [hnil] at hp
      cases hp
    obtain ⟨a, hr', hs⟩ := hr.exists_step hc
    obtain rfl : a = split := by simpa [hp] using S.linked.mem_predecessors hs hm
    obtain ⟨l, hl, -, hb⟩ := S.exists_node C hr'
    rw [node_eq_ok_iff.mpr hl]
    simp only [hb, ↓reduceIte]
    rfl
  next => rfl

theorem liveForwardPredecessors (C : SameControl g h) (hr : g.Reach c) (hc : c ≠ Graph.start) :
    Graph.liveForwardPredecessors h c ≠ [] := by
  obtain ⟨m, hm, hk⟩ := S.exists_control hr
  obtain ⟨n, hn, -, -, -, hpred⟩ := C.forth c m hm hk
  obtain ⟨a, -, hs⟩ := hr.exists_step hc
  have hmem := S.linked.mem_predecessors hs hm
  obtain ⟨l, hl, hlk, hend, -⟩ := hs
  obtain ⟨l', hl', hkind, -⟩ := C.forth a l hl hlk
  have hforward : a ∈ h.liveForwardPredecessors c := by
    refine List.mem_filter.mpr ⟨?_, isLive_iff.mpr ⟨l', hl'⟩⟩
    unfold forwardPredecessors
    rw [hn]
    refine List.mem_filter.mpr ⟨hpred ▸ hmem, ?_⟩
    simp [kind?, hl', hkind, hend]
  exact List.ne_nil_of_mem hforward

end Straight

theorem EditsAt.manned {a b : NodeId} {ps : List Post} {rest : List NodeId} (E : EditsAt b g h) (O : g.OverValues)
    (hab : a ≠ b) (M : g.Manned a ps rest) : h.Manned a ps rest :=
  ⟨by rw [E.guardsAt_eq hab, M.guards], fun p hp => E.hasPost O hab (M.posts p hp)⟩

end Graph

namespace Walk

open GuardElision.Graph (EditsAt SameControl)

variable {config : EliminationConfig} {method : Option MethodId} {V : Valuation} {stamp : NodeId → Stamp} {g : Graph}
  {w w' : Walk} {stage next : Stage} {node : NodeId} {outer : List Visit} {v : Visit} {past : List (Stage × Walk)}
  {bound : Nat}

/-- The walk with a node entered. -/
def enter (w : Walk) (node : NodeId) : Walk :=
  { w with visited := node :: w.visited, facts := w.facts.enterScope, visits := { node } :: w.visits }

/-- The walk with its innermost visit closed. -/
def close (w : Walk) (outer : List Visit) : Walk :=
  { w with visits := outer, facts := w.facts.exitScope }

/-- The walk with the innermost visit processed and nothing that has to wait. -/
def list (w : Walk) (node : NodeId) (outer : List Visit) : Walk :=
  { w with visits := { node, pending := w.childrenToEnter { node } } :: outer }

theorem descend_enters (h : armCondition? w.graph node = .ok none) :
    descend node w = .ok (.process node) (w.enter node) := by
  have hlearn : learnArm node (w.enter node) = .ok () (w.enter node) :=
    Attempt.bind_ok.mpr ⟨none, _, Attempt.ask_ok.mpr ⟨h, rfl⟩, Attempt.pure_ok.mpr ⟨rfl, rfl⟩⟩
  refine Attempt.bind_ok.mpr ⟨(), w.enter node, Attempt.modify_ok.mpr rfl, ?_⟩
  exact Attempt.bind_ok.mpr ⟨(), _, hlearn, Attempt.pure_ok.mpr ⟨rfl, rfl⟩⟩

theorem ascend_closes (hv : w.visits = v :: outer) (hnone : v.deferred = none)
    (hnext : (w.close outer).nextStage = (next, w')) : ascend method w = .ok next w' := by
  have hleave : leave method v outer w = .ok () (w.close outer) := by
    refine Attempt.bind_ok.mpr ⟨(), w.close outer, Attempt.modify_ok.mpr rfl, ?_⟩
    rw [hnone]
    exact Attempt.pure_ok.mpr ⟨rfl, rfl⟩
  refine Attempt.bind_ok.mpr ⟨w, w, Attempt.get_ok.mpr ⟨rfl, rfl⟩, ?_⟩
  rw [hv]
  exact Attempt.bind_ok.mpr ⟨(), _, hleave, Attempt.modifyGet_ok.mpr hnext⟩

/-- A node whose guards leave nothing to wait for, and that is no branch, leaves nothing to wait for. -/
theorem process_eq {n : Node} {w₁ : Walk} (hv : w.visits = { node } :: outer) (hn : w.graph.get? node = some n)
    (hb : n.kind ≠ .branch) (hguards : processGuards config method node (w.graph.guardsAt node) w = .ok none w₁)
    (hvisits : w₁.visits = w.visits) (hnext : (w₁.list node outer).nextStage = (next, w')) :
    process config method node w = .ok next w' := by
  refine Attempt.bind_ok.mpr ⟨n, w, Attempt.ask_ok.mpr ⟨Graph.node_eq_ok_iff.mpr hn, rfl⟩, ?_⟩
  refine Attempt.bind_ok.mpr ⟨w, w, Attempt.get_ok.mpr ⟨rfl, rfl⟩, ?_⟩
  refine Attempt.bind_ok.mpr ⟨none, w₁, hguards, ?_⟩
  rw [if_neg (by simp [hb])]
  refine Attempt.bind_ok.mpr ⟨none, w₁, Attempt.pure_ok.mpr ⟨rfl, rfl⟩, ?_⟩
  refine Attempt.bind_ok.mpr ⟨(), w₁.list node outer, Attempt.modify_ok.mpr ?_, Attempt.modifyGet_ok.mpr hnext⟩
  rw [hvisits, hv]
  rfl

/-- What holds throughout a walk over straight code, from the graph `g` on. -/
structure Calm (V : Valuation) (stamp : NodeId → Stamp) (g : Graph) (w : Walk) : Prop where
  control : SameControl g w.graph
  guards : ∀ q n, w.graph.get? q = some n → n.kind.isGuard = true →
    ∃ m, g.get? q = some m ∧ m.kind.isGuard = true ∧ m.anchor = n.anchor
  dominators : w.dominators = g.dominators
  overValues : w.graph.OverValues
  passes : w.graph.GuardsPass V stamp
  sameClasses : w.graph.classes = g.classes
  classes : w.facts.classes = V.classes
  fits : ∀ k ∈ w.facts.scopes, k.Fits V
  waiting : ∀ v ∈ w.visits, v.node ∈ w.visited ∧ v.deferred = none
  excluded : w.excluded = []
  edited : w.edited = false

/-- The transitions of such a walk. -/
inductive Moves (V : Valuation) (stamp : NodeId → Stamp) : Stage → Walk → Stage → Walk → Prop where
  | descend {node : NodeId} {w : Walk} :
    node ∉ w.visited → Moves V stamp (.descend node) w (.process node) (w.enter node)
  | process {node : NodeId} {outer : List Visit} {w w₁ w' : Walk} {next : Stage} {ps : List Post}
    {all : List (Assertion × NodeId)} :
    w.visits = { node } :: outer → SameCourse w w₁ → EditsAt node w.graph w₁.graph →
      Settling V stamp w.facts node ps all [] w₁ → (w₁.list node outer).nextStage = (next, w') →
      Moves V stamp (.process node) w next w'
  | ascend {node : NodeId} {v : Visit} {outer : List Visit} {w w' : Walk} {next : Stage} :
    w.visits = v :: outer → v.deferred = none → w.childrenToEnter v = [] → (w.close outer).nextStage = (next, w') →
      Moves V stamp (.ascend node) w next w'

namespace Calm

theorem ofGraph (hclasses : V.classes = g.classes) (O : g.OverValues) (P : g.GuardsPass V stamp) (log : EventLog)
    (tally : Tally) : Calm V stamp g (.ofGraph g log tally) := by
  have hempty : Known.Fits V {} := ⟨by simp, by simp⟩
  exact ⟨.refl g, fun q n hn hk => ⟨n, hn, hk, rfl⟩, rfl, O, P, rfl, hclasses.symm,
    List.forall_mem_singleton.mpr hempty, by simp [Walk.ofGraph], rfl, rfl⟩

theorem reach_iff (E : Calm V stamp g w) (hg : g.Straight) {c : NodeId} : w.graph.Reach c ↔ g.Reach c := by
  unfold Graph.Reach
  rw [E.control.forwardFlow_eq hg.linked]

/-- A walk over straight code moves like this. -/
theorem moves (E : Calm V stamp g w) (hg : g.Straight) (hV : ∀ x, V.Admits ⟨x, stamp x⟩)
    (I : Steady bound past stage w) (hstage : stage ≠ .done) (h : advance config method stage w = .ok next w') :
    Moves V stamp stage w next w' := by
  cases stage with
  | descend node =>
    obtain ⟨hnew, hreach, -⟩ := I.fresh
    have henter : Walk.descend node w = _ := descend_enters (hg.armCondition? E.control ((E.reach_iff hg).mp hreach))
    obtain ⟨rfl, rfl⟩ := EStateM.Result.ok.inj (henter.symm.trans h)
    exact .descend hnew
  | process node =>
    obtain ⟨outer, hv, -⟩ := I.visits_of_process
    have hreach : w.graph.Reach node := I.nested.reached node (by simp [hv])
    obtain ⟨n, hn, -, hb⟩ := hg.exists_node E.control ((E.reach_iff hg).mp hreach)
    obtain ⟨_, -, hrest⟩ := Attempt.ask_bind_ok.mp h
    have hrest := Attempt.get_bind_ok.mp hrest
    obtain ⟨r, w₁, hguards, -⟩ := Attempt.bind_ok.mp hrest
    have S : Settling V stamp w.facts node [] [] (w.graph.guardsAt node) w :=
      ⟨E.overValues, E.passes, ⟨rfl, by simp⟩, .nil, rfl, trivial, by simp, List.nil_sublist _⟩
    obtain ⟨rfl, hcourse, hedits, ps, all, S'⟩ := S.processGuards hV E.classes (E.fits _ List.mem_cons_self) hguards
    have hprocess : Walk.process config method node w = _ := process_eq hv hn hb hguards hcourse.visits rfl
    obtain ⟨rfl, rfl⟩ := EStateM.Result.ok.inj (hprocess.symm.trans h)
    exact .process hv hcourse hedits S' rfl
  | ascend node =>
    obtain ⟨v, outer, hv, -⟩ := I.visits_of_ascend
    have hnone := (E.waiting v (hv ▸ List.mem_cons_self)).2
    have hclose : Walk.ascend method w = _ := ascend_closes hv hnone rfl
    obtain ⟨rfl, rfl⟩ := EStateM.Result.ok.inj (hclose.symm.trans h)
    exact .ascend hv hnone ((I.next.taken hv).2 node rfl) rfl
  | done => exact absurd rfl hstage

end Calm

theorem Moves.calm (M : Moves V stamp stage w next w') (hV : ∀ x, V.Admits ⟨x, stamp x⟩) (E : Calm V stamp g w) :
    Calm V stamp g w' := by
  cases M with
  | descend =>
    have hfits : ∀ k ∈ w.facts.enterScope.scopes, k.Fits V := by
      rw [Facts.scopes_enterScope]
      exact List.forall_mem_cons.mpr ⟨E.fits _ List.mem_cons_self, E.fits⟩
    refine ⟨E.control, E.guards, E.dominators, E.overValues, E.passes, E.sameClasses, E.classes, hfits, ?_, E.excluded,
      E.edited⟩
    refine List.forall_mem_cons.mpr ⟨⟨List.mem_cons_self, rfl⟩, fun v hv => ?_⟩
    obtain ⟨hvisited, hnone⟩ := E.waiting v hv
    exact ⟨List.mem_cons_of_mem _ hvisited, hnone⟩
  | @process _ outer _ w₁ _ _ _ _ hv hcourse hedits S hnext =>
    obtain ⟨visits, rfl, hcore⟩ := nextStage_ok hnext
    obtain ⟨hknown, houter⟩ := List.forall_mem_cons.mp E.fits
    refine ⟨E.control.trans hedits.sameControl, fun q n hn hk => ?_, hcourse.dominators.trans E.dominators,
      S.overValues, S.passes, hedits.classes.trans E.sameClasses, ?_, ?_, ?_, hcourse.excluded.trans E.excluded,
      hcourse.edited.trans E.edited⟩
    · obtain ⟨m, hm, hguard, hanchor⟩ := hedits.back q n hn
      obtain ⟨l, hl, hlk, ha⟩ := E.guards q m hm (hguard ▸ hk)
      exact ⟨l, hl, hlk, ha.trans hanchor.symm⟩
    · show w₁.facts.classes = V.classes
      rw [S.facts, Facts.pushAll_classes, E.classes]
    · show ∀ k ∈ w₁.facts.scopes, k.Fits V
      rw [S.facts, Facts.scopes, Facts.pushAll_outer]
      exact List.forall_mem_cons.mpr ⟨Facts.pushAll_fits hV hknown S.asserted S.registers, houter⟩
    · have hwaiting := E.waiting
      rw [hv, ← hcourse.visited] at hwaiting
      refine Visit.forall_of_core (P := fun node deferred => node ∈ w₁.visited ∧ deferred = none) hcore ?_
      exact List.forall_mem_cons.mpr (List.forall_mem_cons.mp hwaiting)
  | @ascend _ v outer _ _ _ hv _ _ hnext =>
    obtain ⟨visits, rfl, hcore⟩ := nextStage_ok hnext
    have hfits : ∀ k ∈ w.facts.exitScope.scopes, k.Fits V := by
      rw [Facts.scopes_exitScope]
      split
      next => exact E.fits
      next => exact fun k hk => E.fits k (List.mem_cons_of_mem _ hk)
    refine ⟨E.control, E.guards, E.dominators, E.overValues, E.passes, E.sameClasses,
      w.facts.exitScope_classes.trans E.classes, hfits, ?_, E.excluded, E.edited⟩
    refine Visit.forall_of_core (P := fun node deferred => node ∈ w.visited ∧ deferred = none) hcore fun u hu => ?_
    exact E.waiting u (hv ▸ List.mem_cons_of_mem v hu)

end Walk

end GuardElision
