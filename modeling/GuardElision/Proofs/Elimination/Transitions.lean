import GuardElision.Proofs.Cleanup.Reached
import GuardElision.Proofs.Elimination.Steps
import GuardElision.Proofs.Facts.Origin

namespace GuardElision

namespace Facts

/-- Facts were learnt, and no scope was opened or closed. -/
structure Grows (f f' : Facts) : Prop where
  outer : f'.outer = f.outer
  nextSeq : f.nextSeq ≤ f'.nextSeq
  credits : ∀ P : Origin → Prop, f.known.Credits P →
    f'.known.Credits fun o => P o ∨ f.nextSeq ≤ o.seq ∧ o.seq < f'.nextSeq

theorem Grows.refl (f : Facts) : f.Grows f :=
  ⟨rfl, Nat.le_refl _, fun _ h => h.mono fun _ => .inl⟩

theorem Grows.trans {f f' f'' : Facts} (h : f.Grows f') (h' : f'.Grows f'') : f.Grows f'' := by
  refine ⟨h'.outer.trans h.outer, Nat.le_trans h.nextSeq h'.nextSeq, fun P hP => ?_⟩
  refine (h'.credits _ (h.credits P hP)).mono ?_
  have hle := h.nextSeq
  have hle' := h'.nextSeq
  rintro o ((ho | ⟨hlo, hhi⟩) | ⟨hlo, hhi⟩)
  · exact .inl ho
  · exact .inr ⟨hlo, by omega⟩
  · exact .inr ⟨by omega, hhi⟩

/-- What is learnt is credited to the guard it comes from. -/
theorem push_credits {f : Facts} {P : Origin → Prop} (hP : f.known.Credits P) {guard : NodeId}
    (hguard : ∀ seq, P ⟨guard, seq⟩) (c : Condition) (truth : Bool) : (f.push c truth guard).2.known.Credits P := by
  unfold push
  split
  next => exact hP
  next => exact hP.learn (hguard _) c truth

theorem push_grows (f : Facts) (c : Condition) (truth : Bool) (guard : NodeId) : f.Grows (f.push c truth guard).2 := by
  cases hl : f.lookup? c with
  | some e =>
    rw [push_of_some hl]
    exact .refl f
  | none =>
    refine ⟨f.push_outer c truth guard, ?_, fun P hP => ?_⟩
    · exact (f.push_nextSeq c truth guard).1
    · rw [push_of_none hl]
      exact (hP.mono fun _ => .inl).learn (.inr ⟨Nat.le_refl _, Nat.lt_succ_self _⟩) c truth

end Facts

namespace Graph

variable {g h : Graph} (N : NoNewGuard g h)

include N

theorem guards_subset : h.select (·.kind.isGuard) ⊆ g.select (·.kind.isGuard) := by
  intro q hq
  obtain ⟨n, hn, hg⟩ := mem_select.mp hq
  exact mem_select.mpr (N q n hn hg)

theorem guardCount_le : h.guardCount ≤ g.guardCount :=
  (List.subperm_of_subset ((select_sorted h _).imp Nat.ne_of_lt) (guards_subset N)).length_le

theorem guardCount_lt {q : NodeId} {m : Node} (hm : g.get? q = some m) (hg : m.kind.isGuard = true)
    (hgone : ∀ n, h.get? q = some n → n.kind.isGuard = false) : h.guardCount < g.guardCount := by
  have hq : q ∉ h.select (·.kind.isGuard) := by
    intro hq
    obtain ⟨n, hn, hg⟩ := mem_select.mp hq
    rw [hgone n hn] at hg
    cases hg
  have hnodup : (q :: h.select (·.kind.isGuard)).Nodup :=
    List.nodup_cons.mpr ⟨hq, (select_sorted h _).imp Nat.ne_of_lt⟩
  refine (List.subperm_of_subset hnodup (List.cons_subset.mpr ⟨?_, guards_subset N⟩)).length_le
  exact mem_select.mpr ⟨m, hm, hg⟩

end Graph

namespace Walk

variable {config : EliminationConfig} {method : Option MethodId} {w w' w'' : Walk} {anchor guard : NodeId}

/-- What may happen while a node is visited. -/
structure Within (w w' : Walk) : Prop where
  aside : w.graph.Aside w'.graph
  facts : w.facts.Grows w'.facts
  visits : w'.visits = w.visits
  visited : w'.visited = w.visited
  excluded : w'.excluded = w.excluded
  dominators : w'.dominators = w.dominators

theorem Within.refl (w : Walk) : Within w w :=
  ⟨.refl _, .refl _, rfl, rfl, rfl, rfl⟩

theorem Within.trans (h : Within w w') (h' : Within w' w'') : Within w w'' :=
  ⟨h.aside.trans h'.aside, h.facts.trans h'.facts, h'.visits.trans h.visits, h'.visited.trans h.visited,
    h'.excluded.trans h.excluded, h'.dominators.trans h.dominators⟩

/-- A live node of this id is a guard. -/
def GuardIn (g : Graph) (id : NodeId) : Prop :=
  ∀ n, g.get? id = some n → n.kind.isGuard = true

theorem sameSort_guard {k l : Kind} (hk : k.isGuard = true) (hl : l.isGuard = true) : Graph.SameSort k l := by
  cases k <;> cases l <;> simp_all [Kind.isGuard]
  exact ⟨rfl, by simp, by simp, by simp, rfl⟩

theorem GuardIn.lighter {g h : Graph} (hg : GuardIn g guard) (L : g.Lighter h) : GuardIn h guard := by
  intro n hn
  obtain ⟨m, hm, hsort, _⟩ := L.node guard n hn
  exact hsort.guard.trans (hg m hm)

/-- Nodes that a guard protects can rely on something else, and the guard can go. -/
theorem GuardIn.aside {g : Graph} (hg : GuardIn g guard) (source : Option NodeId) :
    g.Aside ((g.replaceGuard guard source).delete guard) := by
  have A := Graph.Aside.replaceGuard g guard source
  exact A.trans (.delete fun n hn => Kind.isControl_of_isGuard ((hg.lighter A.toLighter) n hn))

theorem moveTest_aside {g h : Graph} {carrier weaker : NodeId} (hc : GuardIn g carrier) (hw : GuardIn g weaker)
    (hm : moveTest g carrier weaker = .ok h) : g.Aside h := by
  obtain ⟨n, hn, hm⟩ := except_bind_ok.mp hm
  obtain rfl := Except.ok.inj hm
  have hguard := hc n (Graph.node_eq_ok_iff.mp hn)
  have A : g.Aside (g.setKind weaker n.kind n.inputs) := .setKind fun m hm => sameSort_guard (hw m hm) hguard
  exact A.trans ((hc.lighter A.toLighter).aside (some weaker))

theorem learnArm_within {arm : NodeId} {a : Unit} (h : learnArm arm w = .ok a w') : Within w w' := by
  rcases learnArm_cases h with rfl | ⟨_, _, _, rfl⟩
  · exact .refl w'
  · exact ⟨.refl _, Facts.push_grows _ _ _ _, rfl, rfl, rfl, rfl⟩

theorem foldIntoEarlier_within {reason : Reason} {c : Condition} {truth : Bool} {bound : Nat} {carrier p : NodeId}
    (hc : GuardIn w.graph carrier) (h : foldIntoEarlier method anchor reason c truth bound carrier w = .ok p w') :
    Within w w' := by
  induction bound generalizing w carrier with
  | zero =>
    obtain ⟨_, rfl⟩ := Attempt.pure_ok.mp h
    exact .refl w
  | succ bound ih =>
    rcases foldIntoEarlier_cases h with ⟨_, _, rfl⟩ | ⟨weaker, k, tally, log, hneighbour, hmove, _, h⟩
    · exact .refl w'
    · obtain ⟨n, negated, _, _, _, _, _, hn, hkind, _⟩ := redundantNeighbour?_ok hneighbour
      have hw : GuardIn w.graph weaker := by
        intro m hm
        cases hn.symm.trans hm
        simp [hkind, Kind.isGuard]
      have A := moveTest_aside hc hw hmove
      have W : Within w { w with graph := k, tally, log } := ⟨A, .refl _, rfl, rfl, rfl, rfl⟩
      exact W.trans (ih (hw.lighter A.toLighter) h)

theorem settleGuard_within {reason : Reason} {holds : Bool} {source : Source} {r : Option DeferredEdit}
    (hg : GuardIn w.graph guard) (h : settleGuard config method anchor guard reason holds source w = .ok r w') :
    Within w w' ∧ (r = none ∨ r = some (.strengthen guard reason) ∧ w' = w) := by
  rcases settleGuard_cases h with ⟨_, rfl, rfl⟩ | ⟨_, rfl, rfl | ⟨rfl, _⟩⟩
  · exact ⟨⟨hg.aside _, .refl _, rfl, rfl, rfl, rfl⟩, .inl rfl⟩
  · exact ⟨.refl w', .inl rfl⟩
  · exact ⟨.refl w', .inr ⟨rfl, rfl⟩⟩

theorem processGuard_within {r : Option DeferredEdit} (h : processGuard config method anchor guard w = .ok r w') :
    Within w w' ∧ (r = none ∨ ∃ reason n, r = some (.strengthen guard reason) ∧ w'.graph.get? guard = some n ∧
      n.kind.isGuard = true) := by
  obtain ⟨n, negated, reason, x, hn, hkind, _, hcases⟩ := processGuard_cases h
  have hguard : n.kind.isGuard = true := by simp [hkind, Kind.isGuard]
  have hg : GuardIn w.graph guard := by
    intro m hm
    cases hn.symm.trans hm
    exact hguard
  have hsettle : ∀ holds source, settleGuard config method anchor guard reason holds source w = .ok r w' →
      Within w w' ∧ (r = none ∨ ∃ reason n, r = some (.strengthen guard reason) ∧ w'.graph.get? guard = some n ∧
        n.kind.isGuard = true) := by
    intro holds source h
    obtain ⟨hwithin, hr | ⟨hr, rfl⟩⟩ := settleGuard_within hg h
    · exact ⟨hwithin, .inl hr⟩
    · exact ⟨hwithin, .inr ⟨reason, n, hr, hn, hguard⟩⟩
  rcases hcases with ⟨_, _, h⟩ | ⟨c, _, ⟨e, _, h⟩ | ⟨_, rfl, carrier, w₁, hfold, rfl⟩⟩
  · exact hsettle _ _ h
  · exact hsettle _ _ h
  · exact ⟨(foldIntoEarlier_within hg hfold).trans ⟨.refl _, Facts.push_grows _ _ _ _, rfl, rfl, rfl, rfl⟩, .inl rfl⟩

theorem processGuards_within {guards : List NodeId} {r : Option DeferredEdit}
    (h : processGuards config method anchor guards w = .ok r w') :
    Within w w' ∧ (r = none ∨ ∃ q ∈ guards, ∃ reason n, r = some (.strengthen q reason) ∧ w'.graph.get? q = some n ∧
      n.kind.isGuard = true) := by
  rcases processGuards_cases (P := fun _ => Within w)
    (fun q _ _ _ hwithin hq => hwithin.trans (processGuard_within hq).1) (.refl w) h with
    ⟨rfl, hwithin⟩ | ⟨q, rest, w₁, edit, rfl, hwithin, ⟨before, rfl⟩, hq⟩
  · exact ⟨hwithin, .inl rfl⟩
  · obtain ⟨hwithin', hedit⟩ := processGuard_within hq
    obtain ⟨reason, n, hr, hn⟩ := hedit.resolve_left (by simp)
    exact ⟨hwithin.trans hwithin', .inr ⟨q, by simp, reason, n, hr, hn⟩⟩

theorem descend_within {node : NodeId} {stage : Stage} (h : descend node w = .ok stage w') :
    stage = .process node ∧ Within { w with
      visited := node :: w.visited
      facts := w.facts.enterScope
      visits := { node } :: w.visits } w' := by
  have h := Attempt.modify_bind_ok.mp h
  obtain ⟨_, w₂, hlearn, h⟩ := Attempt.bind_ok.mp h
  obtain ⟨rfl, rfl⟩ := Attempt.pure_ok.mp h
  exact ⟨rfl, learnArm_within hlearn⟩

theorem process_guards {node : NodeId} {stage : Stage} (h : process config method node w = .ok stage w') :
    ∃ deferred w₁, processGuards config method node (w.graph.guardsAt node) w = .ok deferred w₁ ∧
      w'.graph = w₁.graph ∧ w'.facts = w₁.facts ∧
      ∀ v outer, w.visits = v :: outer → ∃ noted pending, w'.visits = { v with pending, deferred := noted } :: outer ∧
        ∀ q reason, noted = some (.strengthen q reason) ↔ deferred = some (.strengthen q reason) := by
  obtain ⟨ofGuards, w₁, noted, excluded, hguards, hdefer, hnoted⟩ := process_cases h
  have hnext := Attempt.modifyGet_ok.mp (Attempt.modify_bind_ok.mp hdefer)
  refine ⟨ofGuards, w₁, hguards, ?_, ?_, fun v outer hv => ?_⟩
  · obtain ⟨_, rfl, _⟩ := nextStage_ok hnext
    dsimp only
    split <;> rfl
  · obtain ⟨_, rfl, _⟩ := nextStage_ok hnext
    dsimp only
    split <;> rfl
  · obtain ⟨pending, rfl⟩ := nextStage_cons
      (defer_ok (w := { w₁ with excluded }) ((processGuards_within hguards).1.visits.trans hv) hdefer) rfl
    refine ⟨noted, pending, rfl, fun q reason => ?_⟩
    rcases hnoted with ⟨rfl, _⟩ | ⟨rfl, truth, arm, rfl, _⟩
    · exact Iff.rfl
    · simp

/-- Processing a node settles its guards and its branch. What has to wait is noted with the visit, and so are the
children to be entered; of a branch that is going to be folded one arm is excluded before. -/
theorem process_within {v : Visit} {outer : List Visit} (hv : w.visits = v :: outer) {stage : Stage}
    (h : process config method v.node w = .ok stage w') :
    ∃ (w₁ : Walk) (deferred : Option DeferredEdit),
      Within w { w₁ with excluded := w.excluded, visits := w.visits } ∧
      w₁.visits = { v with deferred, pending := w₁.childrenToEnter { v with deferred } } :: outer ∧
      w₁.nextStage = (stage, w') ∧
      (w₁.excluded = w.excluded ∨ ∃ truth arm, deferred = some (.foldBranch truth) ∧ w₁.excluded = arm :: w.excluded) ∧
      ∀ q reason, deferred = some (.strengthen q reason) → q ∈ w₁.graph.guardsAt v.node := by
  obtain ⟨ofGuards, w₁, deferred, excluded, hguards, hdefer, hnoted⟩ := process_cases h
  obtain ⟨W, hdue⟩ := processGuards_within hguards
  have hnext := defer_ok (w := { w₁ with excluded }) (W.visits.trans hv) hdefer
  have W' : Within w { w₁ with excluded := w.excluded, visits := w.visits } :=
    ⟨W.aside, W.facts, rfl, W.visited, rfl, W.dominators⟩
  let pending := childrenToEnter { w₁ with excluded } { v with deferred }
  refine ⟨{ w₁ with excluded, visits := { v with deferred, pending } :: outer }, deferred, W', rfl, hnext, ?_,
    fun q reason hq => ?_⟩
  · rcases hnoted with ⟨_, rfl⟩ | ⟨_, truth, arm, rfl, rfl⟩
    · exact .inl W.excluded
    · exact .inr ⟨truth, arm, rfl, congrArg (arm :: ·) W.excluded⟩
  · rcases hnoted with ⟨rfl, _⟩ | ⟨_, truth, arm, rfl, _⟩
    · obtain ⟨q', hq', reason', m, hr, hm, hg⟩ := hdue.resolve_left (by simp [hq])
      cases hq.symm.trans hr
      obtain ⟨m', hm', _, hanchor, _⟩ := W.aside.node q m hm
      obtain ⟨l, hl, _, ha⟩ := Graph.mem_guardsAt.mp hq'
      cases hm'.symm.trans hl
      exact Graph.mem_guardsAt.mpr ⟨m, hm, hg, hanchor.trans ha⟩
    · cases hq

/-- The graph grows by a trap at most, and only with the loss of the guard that always fails. -/
def Trades (u : NodeId) (deferred : Option DeferredEdit) (g h : Graph) : Prop :=
  h.capacity = g.capacity ∨ h.capacity = g.capacity + 1 ∧ ∃ q reason, deferred = some (.strengthen q reason) ∧
    (q ∈ g.guardsAt u → ∀ n, h.get? q = some n → n.kind.isGuard = false)

theorem Trades.sameFlow {u : NodeId} {deferred : Option DeferredEdit} {g h k : Graph} (T : Trades u deferred g h)
    (S : h.SameFlow k) : Trades u deferred g k := by
  refine T.imp S.capacity.trans ?_
  rintro ⟨hcap, q, reason, hq, hgone⟩
  refine ⟨S.capacity.trans hcap, q, reason, hq, fun hat n hn => Bool.not_eq_true _ ▸ fun hg => ?_⟩
  obtain ⟨m, hm, hg⟩ := S.guard q n hn hg
  rw [hgone hat m hm] at hg
  cases hg

theorem Trades.strengthenGuard {u q : NodeId} {reason : Reason} {g h : Graph} {r : Strengthened} (H : g.Linked)
    (hs : g.strengthenGuard u q reason = .ok (r, h)) : Trades u (some (.strengthen q reason)) g h := by
  obtain ⟨_, _, _, hcap, _, hremoved, hgone⟩ := Graph.strengthenGuard_new H hs
  refine .inr ⟨hcap, q, reason, rfl, fun hq n hn => ?_⟩
  rw [hgone q ((hremoved q).mpr ⟨hq, Nat.le_refl _⟩)] at hn
  cases hn

/-- An edit cuts edges at its node. If none was moved, all steps are kept. -/
theorem applyEdit_cutAt {u : NodeId} {edit : DeferredEdit} {changed : List NodeId} {moved : Bool} (H : w.graph.Linked)
    (hu : ∀ n, w.graph.get? u = some n → n.kind.isControl = true)
    (h : applyEdit method u edit w = .ok (changed, moved) w') :
    (∃ k tally log, w' = { w with graph := k, tally, log }) ∧
      w'.graph.Linked ∧ w.graph.CutAt u w'.graph ∧ (∀ c ∈ changed, w'.graph.Loose c) ∧
      (moved = false → (∀ truth, edit ≠ .foldBranch truth) ∧ ∀ c s, w.graph.Step c s → w'.graph.Step c s) ∧
      Trades u (some edit) w.graph w'.graph := by
  obtain ⟨k, tally, e, rfl, hcases⟩ := applyEdit_cases h
  rcases hcases with ⟨q, reason, r, rfl, hk, rfl, rfl, _⟩ | ⟨truth, folded, rfl, hk, rfl, rfl, _⟩
  · refine ⟨⟨k, tally, _, rfl⟩, Graph.strengthenGuard_linked H hk, Graph.strengthenGuard_cutAt H hk,
      Graph.strengthenGuard_loose H hk hu, fun hmoved => ⟨fun _ => nofun, fun c s => ?_⟩, .strengthenGuard H hk⟩
    exact Graph.strengthenGuard_keep H hk (.inr (by simpa using hmoved))
  · obtain ⟨hloose, hdead, _⟩ := Graph.foldBranch_loose H hk
    obtain ⟨_, k', _, _, _, hcap, _, A, _⟩ := Graph.foldBranch_steps hk
    have hchanged : ∀ c ∈ [u, folded.dead], k.Loose c := by simp [hloose, hdead]
    exact ⟨⟨k, tally, _, rfl⟩, Graph.foldBranch_linked H hk, Graph.foldBranch_cutAt H hk, hchanged, by simp,
      .inl (A.capacity.trans hcap)⟩

/-- A visit whose branch is going to be folded. -/
def Folds (v : Visit) : Prop :=
  ∃ truth, v.deferred = some (.foldBranch truth)

/-- What leaving the innermost visit does. The tree and what is still to be entered are left alone only if no edge
is lost and no branch was folded. -/
structure Left (v : Visit) (outer : List Visit) (w w' : Walk) : Prop where
  visits : w'.visits.map Visit.core = outer.map Visit.core
  visited : w'.visited = w.visited
  excluded : w'.excluded = w.excluded
  facts : w'.facts = w.facts.exitScope
  cut : ∃ h, w.graph.CutAt v.node h ∧ h.Kept w'.graph ∧
    (outer = [] ∨ (w'.dominators = w'.graph.dominators ∧ w'.visits = outer.map w'.refill) ∨
      w'.dominators = w.dominators ∧ w'.visits = outer ∧ ¬Folds v ∧ ∀ c s, w.graph.Step c s → h.Step c s)
  trades : Trades v.node v.deferred w.graph w'.graph

theorem leave_left {v : Visit} {outer : List Visit} {a : Unit} (H : w.graph.Linked)
    (hv : ∀ n, w.graph.get? v.node = some n → n.kind.isControl = true) (h : leave method v outer w = .ok a w') :
    Left v outer w w' := by
  rcases leave_cases h with ⟨hnone, rfl⟩ | ⟨edit, changed, moved, w₁, changes, k, hedit, happly, hk, hw'⟩
  · have hfolds : ¬Folds v := fun ⟨truth, ht⟩ => by cases hnone.symm.trans ht
    exact ⟨rfl, rfl, rfl, rfl, ⟨_, .refl _ _, ⟨H, .refl _⟩, .inr (.inr ⟨rfl, rfl, hfolds, fun _ _ => id⟩)⟩, .inl rfl⟩
  · obtain ⟨⟨k', tally, log, rfl⟩, H', C, hloose, hkeep, T⟩ :=
      applyEdit_cutAt (w := { w with visits := outer, facts := w.facts.exitScope }) H hv happly
    have K := Graph.cleanUp_kept H' hloose hk
    have T' : Trades v.node v.deferred w.graph k := hedit ▸ T.sameFlow K.flow
    split at hw'
    next =>
      subst hw'
      exact ⟨rebuild_core method _, rfl, rfl, rfl, ⟨_, C, K, .inr (.inl ⟨rfl, rfl⟩)⟩, T'⟩
    next hno =>
      subst hw'
      refine ⟨rfl, rfl, rfl, rfl, ⟨_, C, K, ?_⟩, T'⟩
      cases outer with
      | nil => exact .inl rfl
      | cons =>
        obtain ⟨hfold, hkeep⟩ := hkeep (by simp_all)
        refine .inr (.inr ⟨rfl, rfl, fun ⟨truth, ht⟩ => ?_, hkeep⟩)
        exact hfold truth (Option.some.inj (hedit.symm.trans ht))

theorem ascend_left {v : Visit} {outer : List Visit} {stage : Stage} (hv : w.visits = v :: outer) (H : w.graph.Linked)
    (hr : w.graph.Reach v.node) (h : ascend method w = .ok stage w') :
    ∃ w₁, Left v outer w w₁ ∧ w₁.nextStage = (stage, w') := by
  obtain ⟨w₁, hleave, hnext⟩ := ascend_cases hv h
  exact ⟨w₁, leave_left H (fun _ hn => H.isControl hr hn) hleave, hnext⟩

end Walk

end GuardElision
