import GuardElision.Proofs.Idempotence.Tidy
import GuardElision.Proofs.Pipeline.Unchanged

namespace GuardElision

/-- The truth of a condition under values for its operands. -/
def Canonical.truth (V : Valuation) : Canonical → Bool
  | .constant value => value
  | .predicate c => c.conditionTruth (V.truth c.test)

namespace Graph

variable {V : Valuation} {g h : Graph}

/-- A node that is no guard, or a guard that the values pass. -/
def letsPass (g : Graph) (V : Valuation) (n : Node) : Bool :=
  match n.kind with
  | .guard negated _ => n.inputs.head?.any fun x => (g.condition x).toOption.any fun r => r.truth V = !negated
  | _ => true

/-- The values fit the stamps of all nodes, and get past every guard. -/
structure PassedBy (V : Valuation) (g : Graph) : Prop where
  classes : V.classes = g.classes
  fits : ∀ x n, g.get? x = some n → V.Admits ⟨x, n.stamp⟩
  guards : ∀ q n, g.get? q = some n → g.letsPass V n = true

namespace PassedBy

variable (P : g.PassedBy V)

include P

theorem admits (x : NodeId) : V.Admits ⟨x, g.stamp x⟩ := by
  unfold stamp
  cases hn : g.get? x with
  | none => trivial
  | some n => exact P.fits x n hn

theorem truth_eq {q x : NodeId} {n : Node} {negated : Bool} {reason : Reason} {r : Canonical} (hn : g.get? q = some n)
    (hk : n.kind = .guard negated reason) (hx : n.inputs.head? = some x) (hr : g.condition x = .ok r) :
    r.truth V = !negated := by
  have hpass := P.guards q n hn
  simpa only [letsPass, hk, hx, hr, Option.any_some, Except.toOption, decide_eq_true_eq] using hpass

theorem guardsPass : g.GuardsPass V g.stamp := by
  intro q n negated reason x hn hk hx
  refine ⟨fun value hv => P.truth_eq hn hk hx hv, fun c hc => ⟨condition_matched hc, ?_, ?_⟩⟩
  · intro o ho
    obtain ⟨_, _, _, hoperands⟩ := condition_operands hc
    obtain ⟨y, -, rfl⟩ := hoperands o ho
    rfl
  · have htruth := P.truth_eq hn hk hx hc
    simp only [Canonical.truth, Condition.conditionTruth, Condition.testTruth] at htruth ⊢
    rw [← htruth]
    simp

end PassedBy

theorem straight_of_checkStructure (hstart : g.kind? Graph.start = some .start) (haccepted : g.checkStructure = .ok ())
    (hbranch : ∀ c n, g.get? c = some n → n.kind ≠ .branch)
    (hreached : ∀ c n, g.get? c = some n → n.kind.isControl = true → g.Reach c) : g.Straight := by
  obtain ⟨n, hn, hk⟩ := kind?_eq_some_iff.mp hstart
  have hlinked : g.Linked := linked_of_checkStructure (fun m hm => by cases hn.symm.trans hm; exact hk) haccepted
  exact ⟨hlinked, ⟨n, hn, predecessors_of_start haccepted hn hk⟩, hbranch, hreached⟩

/-- Where control is the same, a walk is as possible as before. -/
theorem Straight.checkWalkable (S : g.Straight) (C : SameControl g h) (hwalkable : g.checkWalkable = .ok ()) :
    h.checkWalkable = .ok () := by
  obtain ⟨_, hcycle, -⟩ := except_bind_ok.mp hwalkable
  refine except_bind_ok.mpr ⟨(), ?_, except_forM_of_forall fun c hc => ?_⟩
  · rw [C.forwardFlow_eq S.linked]
    exact hcycle
  · obtain ⟨n, hn, hk⟩ := mem_select.mp hc
    refine except_bind_ok.mpr ⟨n, node_eq_ok_iff.mpr hn, ensure_ok.mpr ?_⟩
    by_cases hstart : c = Graph.start
    · simp [hstart]
    · obtain ⟨m, hm, hkind, -⟩ := C.back c n hn hk
      have hpred := S.liveForwardPredecessors C (S.reached c m hm (hkind ▸ hk)) hstart
      simpa [hstart] using hpred

end Graph

namespace Walk

theorem Calm.settled {V : Valuation} {stamp : NodeId → Stamp} {g : Graph} {w : Walk} (E : Calm V stamp g w)
    (hg : g.Straight) (hanchor : ∀ q n, g.get? q = some n → n.kind.isGuard = true → ∃ a, n.anchor = some a ∧ g.Reach a)
    (hsettled : ∀ a, g.Reach a → w.graph.SettledAt g.classes a) : w.graph.Settled := by
  refine ⟨E.overValues, fun c n hn hk => ?_, fun q n hn hk => ?_⟩
  · obtain ⟨m, hm, hkind, -⟩ := E.control.back c n hn (by rw [hk]; rfl)
    exact hg.branch c m hm (hkind.trans hk)
  · obtain ⟨m, hm, hmk, hsame⟩ := E.guards q n hn hk
    obtain ⟨a, ha, hreach⟩ := hanchor q m hm hmk
    obtain ⟨ps, M, hopen⟩ := hsettled a hreach
    have hmem : q ∈ ps.map Post.guard := by
      rw [← List.append_nil (ps.map Post.guard), ← M.guards]
      exact Graph.mem_guardsAt.mpr ⟨n, hn, hk, hsame ▸ ha⟩
    obtain ⟨p, hp, rfl⟩ := List.mem_map.mp hmem
    exact ⟨a, p, rfl, M.posts p hp, E.sameClasses ▸ hopen p hp⟩

end Walk

namespace Draft

open GuardElision.Graph (SameControl)

variable {config : EliminationConfig} {method : Option MethodId} {V : Valuation} {g : Graph} {log : EventLog}
  {tally : Tally} {d d' : Draft} {bound : Nat}

theorem walks_straight (hg : g.Straight) (O : g.OverValues) (P : g.PassedBy V)
    (h : walks config method (bound + 1) {} ⟨g, log⟩ = .ok tally d') :
    g.checkWalkable = .ok () ∧
      ∃ w, Walk.run config method (.ofGraph g log { walks := 1 }) = .ok () w ∧ d' = ⟨w.graph, w.log⟩ := by
  obtain ⟨⟨t, edited⟩, d₁, hwalk, h⟩ := Attempt.bind_ok.mp h
  obtain ⟨_, hwalkable, hwalk⟩ := Attempt.ask_bind_ok.mp hwalk
  refine ⟨hwalkable, ?_⟩
  split at hwalk
  next w hrun =>
    obtain ⟨hr, rfl⟩ := EStateM.Result.ok.inj hwalk
    obtain ⟨rfl, rfl⟩ := Prod.mk.inj hr
    obtain ⟨E, -⟩ := Walk.run_settles hg P.admits P.classes O P.guardsPass hrun
    obtain ⟨_, d₂, hcheck, h⟩ := Attempt.bind_ok.mp h
    obtain rfl := check_ok hcheck
    rw [E.edited] at h
    obtain ⟨-, rfl⟩ := Attempt.pure_ok.mp h
    exact ⟨w, hrun, rfl⟩
  next => cases hwalk

theorem walks_again (hchecks : config.checkStructure = false ∧ config.checkPlacement = false) {w : Walk}
    (hwalkable : d.graph.checkWalkable = .ok ())
    (hrun : Walk.run config method (.ofGraph d.graph d.log { walks := 1 }) = .ok () w) (hgraph : w.graph = d.graph)
    (hlog : w.log = d.log) (htally : w.tally = { walks := 1 }) (hedited : w.edited = false) :
    walks config method (bound + 1) {} d = .ok { walks := 1 } d := by
  have hwalk : walk config method { walks := 1 } d = .ok ({ walks := 1 }, false) d := by
    refine Attempt.bind_ok.mpr ⟨(), d, Attempt.ask_ok.mpr ⟨hwalkable, rfl⟩, ?_⟩
    rw [hrun]
    simp only [hgraph, hlog, htally, hedited]
  have hcheck : check config d = .ok () d := by
    unfold check
    rw [hchecks.1, hchecks.2]
    rfl
  refine Attempt.bind_ok.mpr ⟨_, d, hwalk, Attempt.bind_ok.mpr ⟨(), d, hcheck, ?_⟩⟩
  exact Attempt.pure_ok.mpr ⟨rfl, rfl⟩

/-- Elimination is idempotent on straight code that some values get through: without checks in between,
what one run returns the next run returns as it is, and reports no change. -/
theorem eliminate_idempotent (config : EliminationConfig) (method : Option MethodId) (g : Graph) (log : EventLog)
    (hchecks : config.checkStructure = false ∧ config.checkPlacement = false)
    (hstart : g.kind? Graph.start = some .start) (haccepted : g.checkStructure = .ok ())
    (hbranch : ∀ c n, g.get? c = some n → n.kind ≠ .branch)
    (hreached : ∀ c n, g.get? c = some n → n.kind.isControl = true → g.Reach c) (hvalues : g.OverValues)
    (hpassed : ∃ V, g.PassedBy V) (h : eliminate config method ⟨g, log⟩ = .ok tally d') :
    ∃ tally', eliminate config method d' = .ok tally' d' ∧ tally'.changed = false := by
  obtain ⟨V, P⟩ := hpassed
  have hg := Graph.straight_of_checkStructure hstart haccepted hbranch hreached
  have hanchor : ∀ q n, g.get? q = some n → n.kind.isGuard = true → ∃ a, n.anchor = some a ∧ g.Reach a := by
    intro q n hn hk
    obtain ⟨a, m, ha, hm, hmk⟩ := Graph.guard_anchor haccepted hn hk
    exact ⟨a, ha, hreached a m hm hmk⟩
  obtain ⟨bound, hbound⟩ : ∃ n, max config.maxWalks 1 = n + 1 := ⟨max config.maxWalks 1 - 1, by omega⟩
  obtain ⟨t, d₁, hwalks, h⟩ := Attempt.bind_ok.mp h
  rw [hbound] at hwalks
  obtain ⟨hwalkable, w, hrun, rfl⟩ := walks_straight hg hvalues P hwalks
  obtain ⟨E, hsettled⟩ := Walk.run_settles hg P.admits P.classes hvalues P.guardsPass hrun
  suffices hend : SameControl w.graph d'.graph ∧ d'.graph.classes = w.graph.classes ∧ w.graph.NoNewGuard d'.graph ∧
      (∀ a ps, w.graph.Manned a ps [] → (∀ p ∈ ps, Known.lookup? g.classes {} p.claim.condition = none) →
        d'.graph.Manned a ps []) ∧ (config.finalCleanup = true → d'.graph.AtRest) by
    obtain ⟨C, hclasses, N, hstand, hrest⟩ := hend
    have C' := E.control.trans C
    have N' : g.NoNewGuard d'.graph := by
      refine Graph.NoNewGuard.trans (fun q n hn hk => ?_) N
      obtain ⟨m, hm, hmk, -⟩ := E.guards q n hn hk
      exact ⟨m, hm, hmk⟩
    obtain ⟨w₂, hrun₂, hgraph, hlog, htally, hedited⟩ := Walk.run_again hg P.admits P.classes hvalues P.guardsPass
      hrun C' (hclasses.trans E.sameClasses) N' hstand d'.log { walks := 1 }
    have hwalks₂ : walks config method (bound + 1) {} d' = .ok { walks := 1 } d' :=
      walks_again hchecks (hg.checkWalkable C' hwalkable) hrun₂ hgraph hlog htally hedited
    refine ⟨{ walks := 1 }, Attempt.bind_ok.mpr ⟨{ walks := 1 }, d', hbound ▸ hwalks₂, ?_⟩, rfl⟩
    split
    next hcleanup =>
      exact Attempt.bind_ok.mpr ⟨{}, d', canonicalize_stays (hrest hcleanup), Attempt.pure_ok.mpr ⟨rfl, rfl⟩⟩
    next => exact Attempt.pure_ok.mpr ⟨rfl, rfl⟩
  split at h
  next hcleanup =>
    obtain ⟨changes, d₂, hcanonicalize, h⟩ := Attempt.bind_ok.mp h
    obtain ⟨-, rfl⟩ := Attempt.pure_ok.mp h
    obtain ⟨k, F, W, R⟩ := canonicalize_tidies (E.settled hg hanchor hsettled) hcanonicalize
    have S := F.sameRigid.trans W.sameRigid
    refine ⟨S.sameControl, S.classes, S.noNewGuard, fun a ps M hopen => ?_, fun _ => R⟩
    rw [← E.sameClasses] at hopen
    exact W.manned (F.manned E.overValues M hopen)
  next hcleanup =>
    obtain ⟨-, rfl⟩ := Attempt.pure_ok.mp h
    exact ⟨.refl _, rfl, .refl _, fun _ _ M _ => M, fun hc => absurd hc hcleanup⟩

/-- Three guards of one value: the second takes the place of the first, and the third goes. -/
theorem eliminate_idempotent_less :
    let g : Graph :=
      ⟨#[{ kind := .start, successors := [8] }, { kind := .parameter 0, stamp := .int .full },
        { kind := .constant (.int 10), stamp := .int (.constant 10) },
        { kind := .constant (.int 5), stamp := .int (.constant 5) },
        { kind := .compare .lt, inputs := [1, 2], stamp := .logic },
        { kind := .compare .lt, inputs := [1, 3], stamp := .logic },
        { kind := .guard false .boundsCheck, inputs := [4], anchor := some 0 },
        { kind := .guard false .boundsCheck, inputs := [5], anchor := some 0 },
        { kind := .begin, predecessors := [0], successors := [10] },
        { kind := .guard false .unreached, inputs := [4], anchor := some 8 },
        { kind := .ret, predecessors := [8] }], .root⟩
    ∃ tally d' tally', eliminate {} none ⟨g, {}⟩ = .ok tally d' ∧ tally.guardsEliminated = 2 ∧
      eliminate {} none d' = .ok tally' d' ∧ tally'.changed = false := by
  intro g
  let V : Valuation :=
    ⟨.root, [], fun x => if x = 1 then .int 3 else if x = 2 then .int 10 else if x = 3 then .int 5 else .bool true⟩
  have hbranch : ∀ c < 11, ∀ n ∈ g.get? c, n.kind ≠ .branch := by decide +kernel
  have hreached : ∀ c < 11, ∀ n ∈ g.get? c, n.kind.isControl = true → g.dominators.isReachable c = true := by
    decide +kernel
  have hvalues : ∀ id < 11, ∀ n ∈ g.get? id, n.kind.isLogic = true ∨ n.kind = .pi → ∀ i ∈ n.inputs, ∀ m ∈ g.get? i,
      m.kind.isGuard = false ∧ m.kind.isLogic = false := by decide +kernel
  have hfits : ∀ x < 11, ∀ n ∈ g.get? x, n.stamp.admits V.classes V.heap (V.value x) = true := by decide +kernel
  have hpass : ∀ q < 11, ∀ n ∈ g.get? q, g.letsPass V n = true := by decide +kernel
  have hpassed : g.PassedBy V := ⟨rfl, fun x n hn => Stamp.admits_iff.mp (hfits x (Graph.lt_capacity hn) n hn),
    fun q n hn => hpass q (Graph.lt_capacity hn) n hn⟩
  have hcount : (eliminate {} none).result ⟨g, {}⟩ =
      .ok { guardsEliminated := 2, walks := 1, nodesCanonicalized := 2 } := by decide +kernel
  obtain ⟨d', hrun⟩ := Attempt.result_eq_ok.mp hcount
  obtain ⟨tally', hagain, hchanged⟩ := eliminate_idempotent {} none g {} ⟨rfl, rfl⟩ rfl (by decide +kernel)
    (fun c n hn => hbranch c (Graph.lt_capacity hn) n hn)
    (fun c n hn hk => (g.forwardFlow.dominators_isReachable _ c).mp (hreached c (Graph.lt_capacity hn) n hn hk))
    (fun id n hn => hvalues id (Graph.lt_capacity hn) n hn) ⟨V, hpassed⟩ hrun
  exact ⟨_, d', tally', hrun, rfl, hagain, hchanged⟩

/-- Values that get through are needed. No values pass all guards here. The first run folds the guard of
node 8 into that of node 9, and without the lesson of node 8 the second run decides the last guard. -/
theorem eliminate_again_of_contradiction :
    let test (op : Comparison) (a b : NodeId) : Node := { kind := .compare op, inputs := [a, b], stamp := .logic }
    let guard (reason : Reason) (x : NodeId) : Node := { kind := .guard false reason, inputs := [x], anchor := some 0 }
    let g : Graph :=
      ⟨#[{ kind := .start, successors := [19] }, { kind := .parameter 0, stamp := .int ⟨some 0, some 1⟩ },
        { kind := .parameter 1, stamp := .int .full }, { kind := .parameter 2, stamp := .int ⟨some 0, some 50⟩ },
        { kind := .parameter 3, stamp := .int .full }, { kind := .constant (.int 1), stamp := .int (.constant 1) },
        { kind := .constant (.int 50), stamp := .int (.constant 50) }, test .lt 1 5, test .lt 2 5, test .below 2 1,
        test .le 3 2, test .below 4 3, test .lt 4 6, guard .unreached 7, guard .boundsCheck 8, guard .boundsCheck 9,
        guard .unreached 10, guard .boundsCheck 11, guard .unreached 12,
        { kind := .ret, inputs := [4], predecessors := [0] }], .root⟩
    let twice : Attempt Draft (Nat × Nat × Bool) := do
      let first ← eliminate {} none
      let second ← eliminate {} none
      pure (first.guardsEliminated, second.guardsEliminated, second.changed)
    g.checkStructure = .ok () ∧ twice.result ⟨g, {}⟩ = .ok (1, 1, true) := by
  decide +kernel

end Draft

end GuardElision
