import GuardElision.Elimination.Walk
import GuardElision.Proofs.Attempt
import GuardElision.Proofs.Graph.Lookup

namespace GuardElision

namespace Graph

variable {g h : Graph}

/-- A guard becomes a trap in three steps: the trap is added, control is turned to it, and guards go. -/
theorem strengthenGuard_steps {anchor guard : NodeId} {reason : Reason} {s : Strengthened}
    (hs : g.strengthenGuard anchor guard reason = .ok (s, h)) :
    ∃ k, ((∃ old, (g.add { kind := .deoptimize reason, synthetic := true }).2.redirectEdge anchor old g.capacity = .ok k) ∨
        (g.add { kind := .deoptimize reason, synthetic := true }).2.addEdge anchor g.capacity = .ok k) ∧
      s.removed = (k.guardsAt anchor).filter (guard ≤ ·) ∧ h = s.removed.foldl Graph.delete k := by
  obtain ⟨n, _, hs⟩ := except_bind_ok.mp hs
  dsimp only at hs
  split at hs
  next old _ =>
    obtain ⟨k, hedge, hs⟩ := except_bind_ok.mp hs
    obtain ⟨rfl, rfl⟩ := Prod.mk.inj (Except.ok.inj hs)
    exact ⟨k, Or.inl ⟨old, hedge⟩, rfl, rfl⟩
  next =>
    obtain ⟨k, hedge, hs⟩ := except_bind_ok.mp hs
    obtain ⟨rfl, rfl⟩ := Prod.mk.inj (Except.ok.inj hs)
    exact ⟨k, Or.inr hedge, rfl, rfl⟩

theorem get?_dropGuard (g : Graph) (q o j : NodeId) :
    ((g.replaceGuard q (some o)).delete q).get? j = if j = q then none
      else (g.get? j).map fun n => { n with guard := if n.guard = some q then some o else n.guard } := by
  rw [get?_delete, get?_replaceGuard]

theorem get?_dropGuard_iff {q o j : NodeId} {n : Node} : ((g.replaceGuard q (some o)).delete q).get? j = some n ↔
    j ≠ q ∧ ∃ m, g.get? j = some m ∧ n = { m with guard := if m.guard = some q then some o else m.guard } := by
  rw [get?_dropGuard]
  by_cases hj : j = q
  · simp [hj]
  · simp [hj, eq_comm]

theorem moveTest_ok {carrier weaker : NodeId} (hm : Walk.moveTest g carrier weaker = .ok h) :
    ∃ n, g.get? carrier = some n ∧ h.classes = g.classes ∧ h.capacity = g.capacity ∧
      ∀ j, h.get? j = if j = carrier then none else (g.get? j).map fun m =>
        { m with
          kind := if j = weaker then n.kind else m.kind
          inputs := if j = weaker then n.inputs else m.inputs
          guard := if m.guard = some carrier then some weaker else m.guard } := by
  unfold Walk.moveTest at hm
  cases hn : g.node carrier with
  | error e => simp [hn, bind, Except.bind] at hm
  | ok n =>
    simp only [hn, bind, Except.bind, pure, Except.pure, Except.ok.injEq] at hm
    subst hm
    refine ⟨n, node_eq_ok_iff.mp hn, rfl, ?_, fun j => ?_⟩
    · rw [capacity_delete, replaceGuard, capacity_mapLive, setKind, capacity_modify]
    · rw [get?_delete, get?_replaceGuard, get?_setKind, Option.map_map]
      congr 2
      funext m
      simp only [Function.comp_apply]
      split_ifs <;> rfl

end Graph

namespace Visit

/-- A visit but for its pending children. -/
def core (v : Visit) : NodeId × Option DeferredEdit :=
  (v.node, v.deferred)

variable {vs us : List Visit}

theorem nodes_eq (h : vs.map core = us.map core) : vs.map (·.node) = us.map (·.node) := by
  have hfst := congrArg (List.map Prod.fst) h
  rw [List.map_map, List.map_map] at hfst
  exact hfst

theorem forall_of_core {P : NodeId → Option DeferredEdit → Prop} (h : vs.map core = us.map core)
    (hP : ∀ u ∈ us, P u.node u.deferred) : ∀ v ∈ vs, P v.node v.deferred := by
  intro v hv
  obtain ⟨u, hu, he⟩ := List.mem_map.mp (h ▸ List.mem_map_of_mem hv)
  obtain ⟨hnode, hdeferred⟩ := Prod.mk.inj he
  exact hnode ▸ hdeferred ▸ hP u hu

end Visit

namespace Walk

variable {g : Graph} {w w' : Walk} {stage : Stage}

theorem learnArm_cases {arm : NodeId} {a : Unit} (h : learnArm arm w = .ok a w') :
    w' = w ∨ ∃ c truth tally, w' = { w with facts := (w.facts.push c truth arm).2, tally } := by
  obtain ⟨condition?, _, h⟩ := Attempt.ask_bind_ok.mp h
  cases condition? with
  | none =>
    obtain ⟨_, rfl⟩ := Attempt.pure_ok.mp h
    exact Or.inl rfl
  | some condition =>
    obtain rfl := Attempt.modify_ok.mp h
    exact Or.inr ⟨_, _, _, rfl⟩

theorem guardParts_ok {q x : NodeId} {negated : Bool} {reason : Reason}
    (h : guardParts g q = .ok (negated, reason, x)) :
    ∃ n, g.get? q = some n ∧ n.kind = .guard negated reason ∧ n.inputs.head? = some x := by
  unfold guardParts at h
  obtain ⟨n, hn, h⟩ := except_bind_ok.mp h
  split at h
  next negated' reason' hk =>
    obtain ⟨y, hy, h⟩ := except_bind_ok.mp h
    cases Except.ok.inj h
    exact ⟨n, Graph.node_eq_ok_iff.mp hn, hk, expect_ok.mp hy⟩
  next => cases h

theorem le_getLast? {l : List NodeId} (hl : l.Pairwise (· < ·)) {m : NodeId} (hm : l.getLast? = some m) :
    ∀ s ∈ l, s ≤ m := by
  intro s hs
  obtain ⟨ys, rfl⟩ := List.getLast?_eq_some_iff.mp hm
  rcases List.mem_append.mp hs with hs | hs
  · exact Nat.le_of_lt ((List.pairwise_append.mp hl).2.2 s hs m List.mem_cons_self)
  · exact Nat.le_of_eq (List.mem_singleton.mp hs)

theorem redundantNeighbour?_ok {anchor later earlier : NodeId} {reason : Reason} {c : Condition} {truth : Bool}
    (h : redundantNeighbour? g anchor later reason c truth = .ok (some earlier)) :
    ∃ n negated y d, earlier ∈ g.guardsAt anchor ∧ earlier < later ∧
      (∀ s ∈ g.guardsAt anchor, s < later → s ≤ earlier) ∧
      g.get? earlier = some n ∧ n.kind = .guard negated reason ∧ n.inputs.head? = some y ∧
      g.condition y = .ok (.predicate d) ∧
      Facts.implies g.classes c truth d (d.testTruth !negated) = true := by
  unfold redundantNeighbour? at h
  split at h
  next => cases h
  next earlier' hlast =>
    obtain ⟨n, hn, h⟩ := except_bind_ok.mp h
    split at h
    next negated other hk =>
      split at h
      next he =>
        obtain ⟨y, hy, h⟩ := except_bind_ok.mp h
        obtain ⟨r, hr, h⟩ := except_bind_ok.mp h
        split at h
        next => cases h
        next d =>
          split at h
          next himp =>
            obtain rfl := Option.some.inj (Except.ok.inj h)
            subst he
            obtain ⟨hmem, hlt⟩ := List.mem_filter.mp (List.mem_of_getLast? hlast)
            refine ⟨n, negated, y, d, hmem, of_decide_eq_true hlt, fun s hs hlt => ?_, Graph.node_eq_ok_iff.mp hn, hk,
              expect_ok.mp hy, hr, himp⟩
            refine le_getLast? ((Graph.select_sorted g _).filter _) hlast s ?_
            exact List.mem_filter.mpr ⟨hs, decide_eq_true hlt⟩
          next => cases h
      next => cases h
    next => cases h

theorem onGraph_ok {α : Type} {f : Graph → Except Fault (α × Graph)} {a : α} {w w' : Walk} :
    onGraph f w = .ok a w' ↔ ∃ g, f w.graph = .ok (a, g) ∧ w' = { w with graph := g } := by
  unfold onGraph
  rw [Attempt.stepWith_ok, except_bind_ok]
  constructor
  · rintro ⟨⟨b, g⟩, hf, h⟩
    cases Except.ok.inj h
    exact ⟨g, hf, rfl⟩
  · rintro ⟨g, hf, rfl⟩
    exact ⟨(a, g), hf, rfl⟩

/-- A guard stays where it is, or the guard before it takes over its test and is folded in turn. -/
theorem foldIntoEarlier_cases {method : Option MethodId} {anchor carrier last : NodeId} {reason : Reason} {c : Condition}
    {truth : Bool} {bound : Nat} (h : foldIntoEarlier method anchor reason c truth (bound + 1) carrier w = .ok last w') :
    (redundantNeighbour? w.graph anchor carrier reason c truth = .ok none ∧ last = carrier ∧ w' = w) ∨
      ∃ weaker g tally log, redundantNeighbour? w.graph anchor carrier reason c truth = .ok (some weaker) ∧
        moveTest w.graph carrier weaker = .ok g ∧
        (tally = { w.tally with guardsEliminated := w.tally.guardsEliminated + 1 } ∧
          ∃ e : Event, e.kind = .guardEliminated ∧ log = w.log.record e) ∧
        foldIntoEarlier method anchor reason c truth bound weaker { w with graph := g, tally, log } = .ok last w' := by
  obtain ⟨weaker?, hneighbour, h⟩ := Attempt.ask_bind_ok.mp h
  cases weaker? with
  | none =>
    obtain ⟨rfl, rfl⟩ := Attempt.pure_ok.mp h
    exact Or.inl ⟨hneighbour, rfl, rfl⟩
  | some weaker =>
    obtain ⟨_, w₁, hmove, h⟩ := Attempt.bind_ok.mp h
    obtain ⟨k, hk, rfl⟩ := onGraph_ok.mp hmove
    obtain ⟨g, hg, he⟩ := except_bind_ok.mp hk
    obtain rfl := (Prod.mk.inj (Except.ok.inj he)).2
    have h := Attempt.modify_bind_ok.mp h
    have h := Attempt.modify_bind_ok.mp h
    exact Or.inr ⟨weaker, g, _, _, hneighbour, hg, ⟨rfl, _, rfl, rfl⟩, h⟩

section Guards

variable {config : EliminationConfig} {method : Option MethodId} {anchor guard : NodeId} {r : Option DeferredEdit}

/-- A guard that is decided to pass goes, and one that is decided to fail stays, with its trap waiting where
traps are wanted. -/
theorem settleGuard_cases {reason : Reason} {holds : Bool} {source : Source}
    (h : settleGuard config method anchor guard reason holds source w = .ok r w') :
    (holds = true ∧ r = none ∧ w' = w.eliminateGuard method anchor guard source) ∨
    (holds = false ∧ w' = w ∧ (r = none ∨ r = some (.strengthen guard reason) ∧ config.strengthenGuards = true)) := by
  unfold settleGuard at h
  split at h
  next hyes =>
    have h := Attempt.modify_bind_ok.mp h
    obtain ⟨rfl, rfl⟩ := Attempt.pure_ok.mp h
    exact Or.inl ⟨hyes, rfl, rfl⟩
  next hno =>
    have hfails : holds = false := by simpa using hno
    split at h
    next hs =>
      obtain ⟨rfl, rfl⟩ := Attempt.pure_ok.mp h
      exact Or.inr ⟨hfails, rfl, Or.inr ⟨rfl, hs⟩⟩
    next =>
      obtain ⟨rfl, rfl⟩ := Attempt.pure_ok.mp h
      exact Or.inr ⟨hfails, rfl, Or.inl rfl⟩

/-- A guard is decided by a constant or by what is known, or it is folded into earlier ones and learnt. -/
theorem processGuard_cases (h : processGuard config method anchor guard w = .ok r w') :
    ∃ n negated reason x, w.graph.get? guard = some n ∧ n.kind = .guard negated reason ∧ n.inputs.head? = some x ∧
      ((∃ value, w.graph.condition x = .ok (.constant value) ∧
        settleGuard config method anchor guard reason (value = !negated) .stamp w = .ok r w') ∨
      ∃ c, w.graph.condition x = .ok (.predicate c) ∧
        ((∃ e, w.facts.lookup? c = some e ∧
          settleGuard config method anchor guard reason (e.truth = c.testTruth !negated) e.source w = .ok r w') ∨
        w.facts.lookup? c = none ∧ r = none ∧ ∃ carrier w₁,
          foldIntoEarlier method anchor reason c (c.testTruth !negated) w.graph.capacity guard w = .ok carrier w₁ ∧
          w' = { w₁ with facts := (w₁.facts.push c (c.testTruth !negated) carrier).2 })) := by
  obtain ⟨⟨negated, reason, x⟩, hparts, h⟩ := Attempt.ask_bind_ok.mp h
  obtain ⟨n, hn, hk, hx⟩ := guardParts_ok hparts
  refine ⟨n, negated, reason, x, hn, hk, hx, ?_⟩
  obtain ⟨canonical, hcanonical, h⟩ := Attempt.ask_bind_ok.mp h
  cases canonical with
  | constant value => exact Or.inl ⟨value, hcanonical, h⟩
  | predicate c =>
    refine Or.inr ⟨c, hcanonical, ?_⟩
    have h := Attempt.get_bind_ok.mp h
    cases hl : w.facts.lookup? c with
    | some e =>
      rw [hl] at h
      exact Or.inl ⟨e, rfl, h⟩
    | none =>
      rw [hl] at h
      have h := Attempt.get_bind_ok.mp h
      obtain ⟨carrier, w₁, hfold, h⟩ := Attempt.bind_ok.mp h
      have h := Attempt.modify_bind_ok.mp h
      obtain ⟨rfl, rfl⟩ := Attempt.pure_ok.mp h
      exact Or.inr ⟨rfl, rfl, carrier, w₁, hfold, rfl⟩

/-- What each guard that leaves nothing to wait for hands on to the next: all guards are processed, or the
last one that is has an edit waiting. -/
theorem processGuards_cases {P : List NodeId → Walk → Prop} {guards : List NodeId}
    (hstep : ∀ q rest w w', P (q :: rest) w → processGuard config method anchor q w = .ok none w' → P rest w')
    (hw : P guards w) (h : processGuards config method anchor guards w = .ok r w') :
    (r = none ∧ P [] w') ∨ ∃ q rest w₁ edit, r = some edit ∧ P (q :: rest) w₁ ∧
      (∃ before, guards = before ++ q :: rest) ∧ processGuard config method anchor q w₁ = .ok (some edit) w' := by
  induction guards generalizing w with
  | nil =>
    obtain ⟨rfl, rfl⟩ := Attempt.pure_ok.mp h
    exact Or.inl ⟨rfl, hw⟩
  | cons q rest ih =>
    obtain ⟨edit?, w₁, hguard, h⟩ := Attempt.bind_ok.mp h
    cases edit? with
    | some edit =>
      obtain ⟨rfl, rfl⟩ := Attempt.pure_ok.mp h
      exact Or.inr ⟨q, rest, w, edit, rfl, hw, ⟨[], rfl⟩, hguard⟩
    | none =>
      rcases ih (hstep q rest w w₁ hw hguard) h with hdone | ⟨q', rest', w₂, edit, hr, hP, ⟨before, he⟩, hq'⟩
      · exact Or.inl hdone
      · exact Or.inr ⟨q', rest', w₂, edit, hr, hP, ⟨q :: before, by rw [he]; rfl⟩, hq'⟩

end Guards

theorem processBranch_cases {config : EliminationConfig} {split : NodeId} {r : Option DeferredEdit}
    (h : processBranch config split w = .ok r w') : (r = none ∧ w' = w) ∨
      ∃ truth arm, r = some (.foldBranch truth) ∧ w' = { w with excluded := arm :: w.excluded } := by
  unfold processBranch at h
  split at h
  next =>
    obtain ⟨⟨truth?, yes, no⟩, _, h⟩ := Attempt.ask_bind_ok.mp h
    cases truth? with
    | none =>
      obtain ⟨rfl, rfl⟩ := Attempt.pure_ok.mp h
      exact .inl ⟨rfl, rfl⟩
    | some truth =>
      have h := Attempt.modify_bind_ok.mp h
      obtain ⟨rfl, rfl⟩ := Attempt.pure_ok.mp h
      exact .inr ⟨truth, _, rfl, rfl⟩
  next =>
    obtain ⟨rfl, rfl⟩ := Attempt.pure_ok.mp h
    exact .inl ⟨rfl, rfl⟩

theorem nextStage_cases (h : w.nextStage = (stage, w')) : (w.visits = [] ∧ stage = .done ∧ w' = w) ∨
    ∃ v outer, w.visits = v :: outer ∧ ((v.pending = [] ∧ stage = .ascend v.node ∧ w' = w) ∨
      ∃ c pending, v.pending = c :: pending ∧ stage = .descend c ∧
        w' = { w with visits := { v with pending } :: outer }) := by
  unfold nextStage at h
  split at h
  next hv =>
    obtain ⟨rfl, rfl⟩ := Prod.mk.inj h
    exact .inl ⟨hv, rfl, rfl⟩
  next v outer hv =>
    refine .inr ⟨v, outer, hv, ?_⟩
    split at h
    next hp =>
      obtain ⟨rfl, rfl⟩ := Prod.mk.inj h
      exact .inl ⟨hp, rfl, rfl⟩
    next c pending hp =>
      obtain ⟨rfl, rfl⟩ := Prod.mk.inj h
      exact .inr ⟨c, pending, hp, rfl, rfl⟩

theorem nextStage_ne_process (h : w.nextStage = (stage, w')) (a : NodeId) : stage ≠ .process a := by
  obtain ⟨_, rfl, _⟩ | ⟨_, _, _, ⟨_, rfl, _⟩ | ⟨_, _, _, rfl, _⟩⟩ := nextStage_cases h <;> nofun

/-- Going on changes nothing but the list of what is still to be entered. -/
theorem nextStage_ok (h : w.nextStage = (stage, w')) :
    ∃ visits, w' = { w with visits } ∧ visits.map Visit.core = w.visits.map Visit.core := by
  obtain ⟨_, _, rfl⟩ | ⟨v, outer, hv, ⟨_, _, rfl⟩ | ⟨c, pending, _, _, rfl⟩⟩ := nextStage_cases h
  · exact ⟨w'.visits, rfl, rfl⟩
  · exact ⟨w'.visits, rfl, rfl⟩
  · exact ⟨_, rfl, hv ▸ rfl⟩

theorem nextStage_cons {v : Visit} {outer : List Visit} (h : w.nextStage = (stage, w')) (hv : w.visits = v :: outer) :
    ∃ pending, w' = { w with visits := { v with pending } :: outer } := by
  obtain ⟨hnil, _⟩ | ⟨u, outer', hu, hcases⟩ := nextStage_cases h
  · cases hnil.symm.trans hv
  · obtain ⟨rfl, rfl⟩ := List.cons.inj (hu.symm.trans hv)
    rcases hcases with ⟨_, _, rfl⟩ | ⟨c, pending, _, _, rfl⟩
    · exact ⟨u.pending, by rw [← hv]⟩
    · exact ⟨pending, rfl⟩

theorem defer_ok {v : Visit} {outer : List Visit} (hv : w.visits = v :: outer) {deferred : Option DeferredEdit}
    (h : defer deferred w = .ok stage w') :
    nextStage { w with visits :=
      { v with deferred, pending := w.childrenToEnter { v with deferred } } :: outer } = (stage, w') := by
  have h := Attempt.modifyGet_ok.mp (Attempt.modify_bind_ok.mp h)
  rw [hv] at h
  exact h

/-- Processing settles the guards of a node first, and a branch only if no guard always fails. -/
theorem process_cases {config : EliminationConfig} {method : Option MethodId} {node : NodeId}
    (h : process config method node w = .ok stage w') :
    ∃ ofGuards w₁ deferred excluded, processGuards config method node (w.graph.guardsAt node) w = .ok ofGuards w₁ ∧
      defer deferred { w₁ with excluded } = .ok stage w' ∧ ((deferred = ofGuards ∧ excluded = w₁.excluded) ∨
        ofGuards = none ∧ ∃ truth arm, deferred = some (.foldBranch truth) ∧ excluded = arm :: w₁.excluded) := by
  obtain ⟨n, _, h⟩ := Attempt.ask_bind_ok.mp h
  have h := Attempt.get_bind_ok.mp h
  obtain ⟨ofGuards, w₁, hguards, h⟩ := Attempt.bind_ok.mp h
  split at h
  next hnone =>
    have hnothing : ofGuards = none := by simpa using And.left (by simpa using hnone)
    obtain ⟨deferred, w₂, hb, hdefer⟩ := Attempt.bind_ok.mp h
    rcases processBranch_cases hb with ⟨rfl, rfl⟩ | ⟨truth, arm, rfl, rfl⟩
    · exact ⟨ofGuards, w₂, none, _, hguards, hdefer, .inl ⟨hnothing.symm, rfl⟩⟩
    · exact ⟨ofGuards, w₁, _, _, hguards, hdefer, .inr ⟨hnothing, truth, arm, rfl, rfl⟩⟩
  next =>
    obtain ⟨deferred, w₂, hp, hdefer⟩ := Attempt.bind_ok.mp h
    obtain ⟨rfl, rfl⟩ := Attempt.pure_ok.mp hp
    exact ⟨ofGuards, w₁, ofGuards, _, hguards, hdefer, .inl ⟨rfl, rfl⟩⟩

section Leaving

variable {method : Option MethodId}

/-- An edit turns control to a trap or folds a branch. -/
theorem applyEdit_cases {u : NodeId} {edit : DeferredEdit} {changed : List NodeId} {moved : Bool}
    (h : applyEdit method u edit w = .ok (changed, moved) w') :
    ∃ k tally e, w' = { w with graph := k, tally, log := w.log.record e } ∧
      ((∃ q reason s, edit = .strengthen q reason ∧ w.graph.strengthenGuard u q reason = .ok (s, k) ∧
        changed = s.removed ++ s.detached.toList ∧ moved = s.detached.isSome ∧ e.kind = .guardStrengthened ∧
        tally = { w.tally with guardsStrengthened := w.tally.guardsStrengthened + 1 }) ∨
      ∃ truth folded, edit = .foldBranch truth ∧ w.graph.foldBranch u truth = .ok (folded, k) ∧
        changed = [u, folded.dead] ∧ moved = true ∧ e.kind = .branchFolded ∧
        tally = { w.tally with branchesFolded := w.tally.branchesFolded + 1 }) := by
  cases edit with
  | strengthen q reason =>
    obtain ⟨s, w₁, hgraph, h⟩ := Attempt.bind_ok.mp h
    obtain ⟨k, hk, rfl⟩ := onGraph_ok.mp hgraph
    have h := Attempt.modify_bind_ok.mp h
    have h := Attempt.modify_bind_ok.mp h
    obtain ⟨hr, rfl⟩ := Attempt.pure_ok.mp h
    obtain ⟨rfl, rfl⟩ := Prod.mk.inj hr
    exact ⟨k, _, _, rfl, Or.inl ⟨q, reason, s, rfl, hk, rfl, rfl, rfl, rfl⟩⟩
  | foldBranch truth =>
    obtain ⟨folded, w₁, hgraph, h⟩ := Attempt.bind_ok.mp h
    obtain ⟨k, hk, rfl⟩ := onGraph_ok.mp hgraph
    have h := Attempt.modify_bind_ok.mp h
    have h := Attempt.modify_bind_ok.mp h
    obtain ⟨hr, rfl⟩ := Attempt.pure_ok.mp h
    obtain ⟨rfl, rfl⟩ := Prod.mk.inj hr
    exact ⟨k, _, _, rfl, Or.inr ⟨truth, folded, rfl, hk, rfl, rfl, rfl, rfl⟩⟩

/-- Leaving a node closes its scope. An edit that waited is made then and cleaned up after, and the tree is
computed anew where edges are gone. -/
theorem leave_cases {v : Visit} {outer : List Visit} {a : Unit} (h : leave method v outer w = .ok a w') :
    (v.deferred = none ∧ w' = { w with visits := outer, facts := w.facts.exitScope }) ∨
    ∃ edit changed moved w₁ changes k, v.deferred = some edit ∧
      applyEdit method v.node edit { w with visits := outer, facts := w.facts.exitScope } = .ok (changed, moved) w₁ ∧
      w₁.graph.cleanUp changed = .ok changes k ∧
      w' = if (moved || changes.edgeRemoved) && !outer.isEmpty then
          rebuild method { w₁ with graph := k, edited := true }
        else { w₁ with graph := k, edited := true } := by
  have h := Attempt.modify_bind_ok.mp h
  cases hedit : v.deferred with
  | none =>
    rw [hedit] at h
    obtain ⟨_, rfl⟩ := Attempt.pure_ok.mp h
    exact Or.inl ⟨rfl, rfl⟩
  | some edit =>
    rw [hedit] at h
    obtain ⟨⟨changed, moved⟩, w₂, happly, h⟩ := Attempt.bind_ok.mp h
    obtain ⟨changes, w₃, hclean, h⟩ := Attempt.bind_ok.mp h
    obtain ⟨k, hk, rfl⟩ := Attempt.onPart_ok.mp hclean
    have h := Attempt.modify_bind_ok.mp h
    refine Or.inr ⟨edit, changed, moved, w₂, changes, k, rfl, happly, hk, ?_⟩
    split at h
    next hmoved =>
      rw [if_pos hmoved]
      exact (Attempt.modify_ok.mp h).symm
    next hmoved =>
      rw [if_neg hmoved]
      exact (Attempt.pure_ok.mp h).2.symm

theorem refill_core (w : Walk) (v : Visit) : (w.refill v).core = v.core := by
  unfold refill
  split <;> rfl

theorem rebuild_core (method : Option MethodId) (w : Walk) :
    (w.rebuild method).visits.map Visit.core = w.visits.map Visit.core :=
  (List.map_map ..).trans (List.map_congr_left fun v _ => refill_core _ v)

theorem ascend_cases {v : Visit} {outer : List Visit} (hv : w.visits = v :: outer)
    (h : ascend method w = .ok stage w') :
    ∃ w₁, leave method v outer w = .ok () w₁ ∧ w₁.nextStage = (stage, w') := by
  have h := Attempt.get_bind_ok.mp h
  rw [hv] at h
  obtain ⟨_, w₁, hleave, h⟩ := Attempt.bind_ok.mp h
  exact ⟨w₁, hleave, Attempt.modifyGet_ok.mp h⟩

end Leaving

end Walk

end GuardElision
