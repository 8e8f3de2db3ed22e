import GuardElision.Elimination.Run
import GuardElision.Proofs.Effects.Cleaning
import GuardElision.Proofs.Elimination.Rounds
import Mathlib.Logic.Relation

namespace GuardElision

/-- The edit may be made: the configuration asks for it, and a trap has one of the reasons given. -/
def DeferredEdit.Allowed (config : EliminationConfig) (E : Extent) : DeferredEdit → Prop
  | .strengthen _ reason => config.strengthenGuards = true ∧ E.reasons reason
  | .foldBranch _ => config.foldBranches = true

namespace Walk

/-- One change of the graph with what is logged and counted for it, or something counted that changes
nothing. -/
inductive Effect (config : EliminationConfig) (E : Extent) : Draft × Tally → Draft × Tally → Prop
  | count {d : Draft} {t : Tally} (deadArms walks : Nat) : Effect config E (d, t) (d, { t with deadArms, walks })
  | rebuild {d : Draft} {t : Tally} {e : Event} (rebuilds : Nat) (hconfig : config.changesControlFlow = true)
      (he : e.kind = .dominatorRebuilt) : Effect config E (d, t) (⟨d.graph, d.log.record e⟩, { t with rebuilds })
  | drop {d : Draft} {t : Tally} {guard : NodeId} {n : Node} {e : Event} (new : NodeId)
      (hn : d.graph.get? guard = some n) (hk : n.kind.isGuard = true) (he : e.kind = .guardEliminated) :
      Effect config E (d, t) (⟨(d.graph.replaceGuard guard (some new)).delete guard, d.log.record e⟩,
        { t with guardsEliminated := t.guardsEliminated + 1 })
  | move {d : Draft} {t : Tally} {carrier weaker : NodeId} {n m : Node} {negated negated' : Bool} {reason : Reason}
      {e : Event} {h : Graph} (hn : d.graph.get? carrier = some n) (hk : n.kind = .guard negated reason)
      (hm : d.graph.get? weaker = some m) (hk' : m.kind = .guard negated' reason) (hne : carrier ≠ weaker)
      (hmove : moveTest d.graph carrier weaker = .ok h) (he : e.kind = .guardEliminated) :
      Effect config E (d, t) (⟨h, d.log.record e⟩, { t with guardsEliminated := t.guardsEliminated + 1 })
  | trap {d : Draft} {t : Tally} {anchor guard : NodeId} {reason : Reason} {s : Strengthened} {k h : Graph}
      {changed : List NodeId} {changes : Changes} {e : Event} (hconfig : config.strengthenGuards = true)
      (hreason : E.reasons reason) (hs : d.graph.strengthenGuard anchor guard reason = .ok (s, k))
      (hclean : Graph.cleanUp changed k = .ok changes h) (he : e.kind = .guardStrengthened) :
      Effect config E (d, t) (⟨h, d.log.record e⟩, { t with guardsStrengthened := t.guardsStrengthened + 1 })
  | fold {d : Draft} {t : Tally} {split : NodeId} {truth : Bool} {folded : FoldedBranch} {k h : Graph}
      {changed : List NodeId} {changes : Changes} {e : Event} (hconfig : config.foldBranches = true)
      (hfold : d.graph.foldBranch split truth = .ok (folded, k)) (hclean : Graph.cleanUp changed k = .ok changes h)
      (he : e.kind = .branchFolded) :
      Effect config E (d, t) (⟨h, d.log.record e⟩, { t with branchesFolded := t.branchesFolded + 1 })

def Effects (config : EliminationConfig) (E : Extent) : Draft × Tally → Draft × Tally → Prop :=
  Relation.ReflTransGen (Effect config E)

variable {config : EliminationConfig} {method : Option MethodId} {E : Extent} {p q : Draft × Tally} {w w' w'' : Walk}

theorem Effect.mayBecome (W : p.1.graph.Within E) (h : Effect config E p q) : p.1.graph.MayBecome E q.1.graph := by
  cases h with
  | count => exact .refl E _
  | rebuild => exact .refl E _
  | drop new hn hk => exact .dropGuard hn hk new
  | move hn hk hm hk' _ hmove => exact .moveTest hn hk hm hk' hmove
  | trap _ hreason hs hclean =>
    have A := Graph.MayBecome.strengthenGuard (W.passes_new (Nat.le_refl _)) hreason hs
    exact A.trans (Graph.cleanUp_mayBecome (A.within W) hclean)
  | fold _ hfold hclean =>
    have A := Graph.MayBecome.foldBranch (E := E) hfold
    exact A.trans (Graph.cleanUp_mayBecome (A.within W) hclean)

theorem Effects.mayBecome (W : p.1.graph.Within E) (h : Effects config E p q) : p.1.graph.MayBecome E q.1.graph := by
  induction h with
  | refl => exact .refl E _
  | tail _ heffect ih => exact ih.trans (heffect.mayBecome (ih.within W))

def progress (w : Walk) : Draft × Tally :=
  (⟨w.graph, w.log⟩, w.tally)

/-- Effects are done, and the open visits stay as they are. -/
structure Does (config : EliminationConfig) (E : Extent) (w w' : Walk) : Prop where
  effects : Effects config E w.progress w'.progress
  visits : w'.visits = w.visits

namespace Does

theorem of_eq (hprogress : w'.progress = w.progress) (hvisits : w'.visits = w.visits) : Does config E w w' :=
  ⟨hprogress ▸ .refl, hvisits⟩

theorem trans (h : Does config E w w') (h' : Does config E w' w'') : Does config E w w'' :=
  ⟨Relation.ReflTransGen.trans h.effects h'.effects, h'.visits.trans h.visits⟩

theorem within (h : Does config E w w') (W : w.graph.Within E) : w'.graph.Within E :=
  (h.effects.mayBecome W).within W

end Does

theorem learnArm_does {arm : NodeId} {a : Unit} (h : learnArm arm w = .ok a w') : Does config E w w' := by
  obtain ⟨condition?, _, h⟩ := Attempt.ask_bind_ok.mp h
  cases condition? with
  | none =>
    obtain ⟨_, rfl⟩ := Attempt.pure_ok.mp h
    exact .of_eq rfl rfl
  | some condition =>
    obtain rfl := Attempt.modify_ok.mp h
    exact ⟨.single (.count _ w.tally.walks), rfl⟩

section Guards

variable {anchor guard : NodeId} {r : Option DeferredEdit}

/-- Each fold is counted and logged. -/
theorem foldIntoEarlier_does {reason : Reason} {c : Condition} {truth negated : Bool} {bound : Nat}
    {carrier last : NodeId} {n : Node} (hn : w.graph.get? carrier = some n) (hk : n.kind = .guard negated reason)
    (h : foldIntoEarlier method anchor reason c truth bound carrier w = .ok last w') : Does config E w w' := by
  induction bound generalizing w carrier n with
  | zero =>
    obtain ⟨_, rfl⟩ := Attempt.pure_ok.mp h
    exact .of_eq rfl rfl
  | succ bound ih =>
    rcases foldIntoEarlier_cases h with ⟨_, _, rfl⟩ | ⟨weaker, k, _, _, hneighbour, hmove, ⟨rfl, e, he, rfl⟩, h⟩
    · exact .of_eq rfl rfl
    · obtain ⟨m, negated', _, _, _, hlt, _, hm, hkm, _⟩ := redundantNeighbour?_ok hneighbour
      obtain ⟨l, hl, hkl⟩ : ∃ l, k.get? weaker = some l ∧ l.kind = .guard negated reason := by
        obtain ⟨n', hn', _, _, hget⟩ := Graph.moveTest_ok hmove
        cases hn.symm.trans hn'
        have hcarries := hget weaker
        rw [if_neg (Nat.ne_of_lt hlt), hm, Option.map_some, if_pos rfl] at hcarries
        exact ⟨_, hcarries, hk⟩
      refine .trans ?_ (ih (by exact hl) hkl h)
      exact ⟨.single (.move hn hk hm hkm (Nat.ne_of_gt hlt) hmove he), rfl⟩

theorem settleGuard_does {reason : Reason} {holds : Bool} {source : Source} {n : Node}
    (hn : w.graph.get? guard = some n) (hk : n.kind.isGuard = true) (hreason : E.reasons reason)
    (h : settleGuard config method anchor guard reason holds source w = .ok r w') :
    Does config E w w' ∧ ∀ edit, r = some edit → edit.Allowed config E := by
  rcases settleGuard_cases h with ⟨_, rfl, rfl⟩ | ⟨_, rfl, rfl | ⟨rfl, hconfig⟩⟩
  · exact ⟨⟨.single (.drop _ hn hk rfl), rfl⟩, by simp⟩
  · exact ⟨.of_eq rfl rfl, by simp⟩
  · refine ⟨.of_eq rfl rfl, fun edit he => ?_⟩
    obtain rfl := Option.some.inj he
    exact ⟨hconfig, hreason⟩

theorem processGuard_does (W : w.graph.Within E) (h : processGuard config method anchor guard w = .ok r w') :
    Does config E w w' ∧ ∀ edit, r = some edit → edit.Allowed config E := by
  obtain ⟨n, negated, reason, x, hn, hkind, _, hcases⟩ := processGuard_cases h
  have hk : n.kind.isGuard = true := by rw [hkind]; rfl
  have hreason := W.reasons guard n negated reason hn hkind
  rcases hcases with ⟨_, _, h⟩ | ⟨c, _, ⟨e, _, h⟩ | ⟨_, rfl, carrier, w₁, hfold, rfl⟩⟩
  · exact settleGuard_does hn hk hreason h
  · exact settleGuard_does hn hk hreason h
  · exact ⟨(foldIntoEarlier_does hn hkind hfold).trans (.of_eq rfl rfl), by simp⟩

theorem processGuards_does {guards : List NodeId} (W : w.graph.Within E)
    (h : processGuards config method anchor guards w = .ok r w') :
    Does config E w w' ∧ ∀ edit, r = some edit → edit.Allowed config E := by
  rcases processGuards_cases (P := fun _ => Does config E w)
    (fun q rest w₁ w₂ D hq => D.trans (processGuard_does (D.within W) hq).1) (.of_eq rfl rfl) h with
    ⟨rfl, D⟩ | ⟨q, rest, w₁, edit, rfl, D, _, hq⟩
  · exact ⟨D, by simp⟩
  · obtain ⟨D', hallowed⟩ := processGuard_does (D.within W) hq
    exact ⟨D.trans D', hallowed⟩

end Guards

theorem processBranch_does {split : NodeId} {r : Option DeferredEdit} (h : processBranch config split w = .ok r w') :
    Does config E w w' ∧ ∀ edit, r = some edit → edit.Allowed config E := by
  rcases processBranch_cases h with ⟨rfl, rfl⟩ | ⟨truth, arm, rfl, rfl⟩
  · exact ⟨.of_eq rfl rfl, nofun⟩
  · refine ⟨.of_eq rfl rfl, fun edit he => ?_⟩
    obtain rfl := Option.some.inj he
    unfold processBranch at h
    split at h
    next hconfig => exact hconfig
    next => cases (Attempt.pure_ok.mp h).1

/-- Effects are done, and what waits may be done. -/
structure Licensed (config : EliminationConfig) (E : Extent) (p : Draft × Tally) (w : Walk) : Prop where
  effects : Effects config E p w.progress
  deferred : ∀ v ∈ w.visits, ∀ edit, v.deferred = some edit → edit.Allowed config E

theorem Licensed.does (L : Licensed config E p w) (D : Does config E w w') : Licensed config E p w' :=
  ⟨Relation.ReflTransGen.trans L.effects D.effects, D.visits ▸ L.deferred⟩

theorem Licensed.within (L : Licensed config E p w) (W : p.1.graph.Within E) : w.graph.Within E :=
  (L.effects.mayBecome W).within W

theorem descend_licensed (node : NodeId) : (descend node).Keeps (Licensed config E p) := by
  refine .bind (.modify fun w L => ⟨L.effects, List.forall_mem_cons.mpr ⟨by simp, L.deferred⟩⟩) fun _ => ?_
  exact .bind (fun w _ w' L h => L.does (learnArm_does h)) fun _ => .pure _

theorem Licensed.next {stage : Stage} (L : Licensed config E p w) (h : w.nextStage = (stage, w')) :
    Licensed config E p w' := by
  obtain ⟨visits, rfl, hcore⟩ := nextStage_ok h
  exact ⟨L.effects, Visit.forall_of_core (P := fun _ deferred => ∀ edit, deferred = some edit → edit.Allowed config E)
    hcore L.deferred⟩

/-- What is noted with a visit may be done. -/
theorem defer_licensed {deferred : Option DeferredEdit} (hallowed : ∀ edit, deferred = some edit → edit.Allowed config E) :
    (defer deferred).Keeps (Licensed config E p) := by
  refine .bind (.modify fun w L => ?_) fun _ => fun w stage w' L h => L.next (Attempt.modifyGet_ok.mp h)
  split
  next v rest hv =>
    have hrest := (List.forall_mem_cons.mp (hv ▸ L.deferred)).2
    exact ⟨L.effects, List.forall_mem_cons.mpr ⟨hallowed, hrest⟩⟩
  next => exact L

theorem process_licensed (W : p.1.graph.Within E) (node : NodeId) :
    (process config method node).Keeps (Licensed config E p) := by
  refine .bind (.ask _) fun n => .bind .get fun w₀ => fun w _ w' L h => ?_
  obtain ⟨ofGuards, w₁, hguards, h⟩ := Attempt.bind_ok.mp h
  obtain ⟨D, hallowed⟩ := processGuards_does (L.within W) hguards
  have L₁ := L.does D
  split at h
  next =>
    obtain ⟨deferred, w₂, hbranch, h⟩ := Attempt.bind_ok.mp h
    obtain ⟨D', hallowed'⟩ := processBranch_does hbranch
    exact defer_licensed hallowed' w₂ _ w' (L₁.does D') h
  next =>
    obtain ⟨_, _, hpure, h⟩ := Attempt.bind_ok.mp h
    obtain ⟨rfl, rfl⟩ := Attempt.pure_ok.mp hpure
    exact defer_licensed hallowed w₁ _ w' L₁ h

section Leaving

theorem applyEdit_effect {node : NodeId} {edit : DeferredEdit} {changed : List NodeId} {moved : Bool}
    {changes : Changes}
    {k : Graph} (hallowed : edit.Allowed config E) (h : applyEdit method node edit w = .ok (changed, moved) w')
    (hclean : w'.graph.cleanUp changed = .ok changes k) :
    Effect config E w.progress (⟨k, w'.log⟩, w'.tally) ∧ w'.visits = w.visits := by
  obtain ⟨_, _, e, rfl, ⟨q, reason, s, rfl, hs, _, _, he, rfl⟩ | ⟨truth, folded, rfl, hfold, _, _, he, rfl⟩⟩ :=
    applyEdit_cases h
  · exact ⟨.trap hallowed.1 hallowed.2 hs hclean he, rfl⟩
  · exact ⟨.fold hallowed hfold hclean he, rfl⟩

theorem ascend_licensed : (ascend method).Keeps (Licensed config E p) := by
  intro w stage w' L h
  cases hv : w.visits with
  | nil =>
    have h := Attempt.get_bind_ok.mp h
    rw [hv] at h
    exact (Attempt.pure_ok.mp h).2 ▸ L
  | cons v outer =>
    obtain ⟨hedit, houter⟩ := List.forall_mem_cons.mp (hv ▸ L.deferred)
    obtain ⟨w₂, hleave, hnext⟩ := ascend_cases hv h
    refine Licensed.next ?_ hnext
    rcases leave_cases hleave with ⟨_, rfl⟩ | ⟨edit, changed, moved, w₁, changes, k, he, happly, hclean, rfl⟩
    · exact ⟨L.effects, houter⟩
    · have hallowed := hedit edit he
      obtain ⟨heffect, hvisits⟩ := applyEdit_effect hallowed happly hclean
      have heffects : Effects config E p (⟨k, w₁.log⟩, w₁.tally) := Relation.ReflTransGen.tail L.effects heffect
      have hconfig : config.changesControlFlow = true := by
        cases edit with
        | strengthen => simp [EliminationConfig.changesControlFlow, hallowed.1]
        | foldBranch => simp [EliminationConfig.changesControlFlow, show config.foldBranches = true from hallowed]
      split
      · refine ⟨Relation.ReflTransGen.tail heffects (.rebuild _ hconfig rfl), ?_⟩
        refine Visit.forall_of_core (P := fun _ deferred => ∀ edit, deferred = some edit → edit.Allowed config E)
          (rebuild_core method _) ?_
        exact hvisits ▸ houter
      · exact ⟨heffects, hvisits ▸ houter⟩

end Leaving

theorem advance_licensed (W : p.1.graph.Within E) (stage : Stage) :
    (advance config method stage).Keeps (Licensed config E p) := by
  cases stage with
  | descend node => exact descend_licensed node
  | process node => exact process_licensed W node
  | ascend => exact ascend_licensed
  | done => exact .pure _

theorem stages_licensed (W : p.1.graph.Within E) (bound : Nat) (stage : Stage) :
    (stages config method bound stage).Keeps (Licensed config E p) := by
  induction bound generalizing stage with
  | zero => exact .pure _
  | succ bound ih =>
    unfold stages
    split
    next => exact .pure _
    next => exact .bind (advance_licensed W _) fun next => ih next

/-- All that a walk does is effects. -/
theorem run_effects {d : Draft} {tally : Tally} {a : Unit} (W : d.graph.Within E)
    (h : run config method (.ofGraph d.graph d.log tally) = .ok a w) : Effects config E (d, tally) w.progress := by
  have L : Licensed config E (d, tally) (.ofGraph d.graph d.log tally) := ⟨.refl, by simp [ofGraph]⟩
  have hkeeps : (run config method).Keeps (Licensed config E (d, tally)) := .bind .get fun _ => stages_licensed W _ _
  exact (hkeeps _ _ _ L h).effects

end Walk

namespace Draft

variable {config : EliminationConfig} {method : Option MethodId} {E : Extent} {d d' : Draft}

theorem walk_effects {tally : Tally} {r : Tally × Bool} (W : d.graph.Within E)
    (h : walk config method tally d = .ok r d') :
    Walk.Effects config E (d, tally) (d', r.1) := by
  obtain ⟨_, -, h⟩ := Attempt.ask_bind_ok.mp h
  split at h
  next w hrun =>
    obtain ⟨rfl, rfl⟩ := EStateM.Result.ok.inj h
    exact Walk.run_effects W hrun
  next => cases h

theorem walks_effects {n : Nat} {tally t : Tally} (W : d.graph.Within E)
    (h : walks config method n tally d = .ok t d') :
    Walk.Effects config E (d, tally) (d', t) := by
  induction n generalizing tally d with
  | zero =>
    obtain ⟨rfl, rfl⟩ := Attempt.pure_ok.mp h
    exact .refl
  | succ n ih =>
    obtain ⟨⟨t₁, edited⟩, d₁, hwalk, h⟩ := Attempt.bind_ok.mp h
    have heffects : Walk.Effects config E (d, tally) (d₁, t₁) :=
      Relation.ReflTransGen.head (.count tally.deadArms _) (walk_effects W hwalk)
    obtain ⟨_, d₂, hcheck, hrest⟩ := Attempt.bind_ok.mp h
    obtain rfl := check_ok hcheck
    split at hrest
    next => exact Relation.ReflTransGen.trans heffects (ih ((heffects.mayBecome W).within W) hrest)
    next =>
      obtain ⟨rfl, rfl⟩ := Attempt.pure_ok.mp hrest
      exact heffects

end Draft

end GuardElision
