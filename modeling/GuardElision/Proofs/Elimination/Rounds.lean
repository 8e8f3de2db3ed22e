import GuardElision.Elimination.Run
import GuardElision.Proofs.Attempt
import GuardElision.Proofs.Graph.Lookup
import Mathlib.Logic.Relation

namespace GuardElision

namespace Round

variable {r r' : Round} {method : Option MethodId} {id : NodeId} {u : PUnit}

/-- One edit of a round: what is done to the graph, noted and logged. -/
inductive Edit : Round → Round → Prop
  | decide {r : Round} {id : NodeId} {n : Node} {value : Bool} {e : Event} (hn : r.graph.get? id = some n)
      (hk : isUndecidedLogic n.kind = true) (htruth : stampTruth? r.graph id = .ok (some value))
      (he : e.kind = .constantFolded) :
      Edit r ⟨⟨r.graph.setKind id (.logicConstant value) [], r.draft.log.record e⟩, r.changes.noteAll [id], r.seeds⟩
  | drop {r : Round} {id anchor x : NodeId} {n : Node} {negated : Bool} {reason : Reason} {e : Event}
      (hn : r.graph.get? id = some n) (hk : n.kind = .guard negated reason) (ha : n.anchor = some anchor)
      (hx : n.inputs.head? = some x) (hconst : r.graph.kind? x = some (.logicConstant !negated))
      (he : e.kind = .guardEliminated) :
      Edit r ⟨⟨(r.graph.replaceGuard id (some anchor)).delete id, r.draft.log.record e⟩, r.changes.noteAll [id], r.seeds⟩
  | trap {r : Round} {id anchor x : NodeId} {n : Node} {negated : Bool} {reason : Reason} {s : Strengthened} {k : Graph}
      {e : Event} (hn : r.graph.get? id = some n) (hk : n.kind = .guard negated reason) (ha : n.anchor = some anchor)
      (hx : n.inputs.head? = some x) (hconst : r.graph.kind? x = some (.logicConstant negated))
      (hs : r.graph.strengthenGuard anchor id reason = .ok (s, k)) (he : e.kind = .guardStrengthened) :
      Edit r ⟨⟨k, r.draft.log.record e⟩, (r.changes.noteAll s.removed).noteEdge, r.seeds ++ s.detached.toList ++ s.removed⟩
  | fold {r : Round} {id x : NodeId} {n : Node} {truth : Bool} {folded : FoldedBranch} {k : Graph} {e : Event}
      (hn : r.graph.get? id = some n) (hx : n.inputs.head? = some x) (hconst : r.graph.kind? x = some (.logicConstant truth))
      (hfold : r.graph.foldBranch id truth = .ok (folded, k)) (he : e.kind = .branchFolded) :
      Edit r ⟨⟨k, r.draft.log.record e⟩, (r.changes.noteAll [id]).noteEdge, r.seeds ++ [folded.dead]⟩

theorem isLogic_of_isUndecidedLogic {k : Kind} (hk : isUndecidedLogic k = true) : k.isLogic = true := by
  cases k <;> simp_all [isUndecidedLogic, Kind.isLogic]

/-- A condition stays, or stamps decide it. -/
theorem foldCondition_cases (h : foldCondition method id r = .ok u r') :
    (stampTruth? r.graph id = .ok none ∧ r' = r) ∨ ∃ value e, stampTruth? r.graph id = .ok (some value) ∧
      r' = ⟨⟨r.graph.setKind id (.logicConstant value) [], r.draft.log.record e⟩, r.changes.noteAll [id], r.seeds⟩ ∧
      e.kind = .constantFolded := by
  obtain ⟨truth?, htruth, h⟩ := Attempt.ask_bind_ok.mp h
  cases truth? with
  | none =>
    obtain ⟨-, rfl⟩ := Attempt.pure_ok.mp h
    exact Or.inl ⟨htruth, rfl⟩
  | some value =>
    obtain rfl := Attempt.modify_ok.mp h
    exact Or.inr ⟨value, _, htruth, rfl, rfl⟩

theorem forM_foldCondition_edits {ids : List NodeId} (hids : ids.Nodup)
    (hundecided : ∀ id ∈ ids, ∃ n, r.graph.get? id = some n ∧ isUndecidedLogic n.kind = true)
    (h : ids.forM (foldCondition method) r = .ok u r') : Relation.ReflTransGen Edit r r' := by
  induction ids generalizing r with
  | nil => exact (Attempt.pure_ok.mp h).2 ▸ .refl
  | cons id ids ih =>
    obtain ⟨hnot, hids⟩ := List.nodup_cons.mp hids
    obtain ⟨⟨n, hn, hk⟩, hrest⟩ := List.forall_mem_cons.mp hundecided
    obtain ⟨_, r₁, hid, hloop⟩ := Attempt.bind_ok.mp h
    rcases foldCondition_cases hid with ⟨-, rfl⟩ | ⟨value, e, htruth, rfl, he⟩
    · exact ih hids hrest hloop
    · refine .head (.decide hn hk htruth he) (ih hids (fun j hj => ?_) hloop)
      obtain ⟨m, hm, hkm⟩ := hrest j hj
      refine ⟨m, (Graph.get?_setKind ..).trans ?_, hkm⟩
      rw [hm, Option.map_some, if_neg (fun he : j = id => hnot (he ▸ hj))]

theorem settleGuard_edit (h : settleGuard method id r = .ok u r') : r' = r ∨ Edit r r' := by
  have h := Attempt.get_bind_ok.mp h
  cases hn : r.graph.get? id with
  | none =>
    rw [hn] at h
    exact Or.inl (Attempt.pure_ok.mp h).2.symm
  | some n =>
    rw [hn] at h
    obtain ⟨kind, _, inputs, _, _, anchor?, _, _, _, _⟩ := n
    cases kind with
    | guard negated reason =>
      dsimp only at h
      split at h
      next anchor condition _ =>
        obtain ⟨c, hc, h⟩ := Attempt.ask_bind_ok.mp h
        cases hk : c.kind with
        | logicConstant value =>
          rw [hk] at h
          have hconst := Graph.kind?_eq_some_iff.mpr ⟨c, Graph.node_eq_ok_iff.mp hc, hk⟩
          dsimp only at h
          split at h
          next hne =>
            obtain rfl := Attempt.modify_ok.mp h
            exact Or.inr (.drop hn rfl rfl rfl (Bool.eq_not.mpr hne ▸ hconst) rfl)
          next heq =>
            obtain ⟨⟨s, k⟩, hs, h⟩ := except_bind_ok.mp (Attempt.step_ok.mp h)
            obtain rfl := Except.ok.inj h
            exact Or.inr (.trap hn rfl rfl rfl (not_not.mp heq ▸ hconst) hs rfl)
        | _ =>
          rw [hk] at h
          exact Or.inl (Attempt.pure_ok.mp h).2.symm
      next => exact (Attempt.throw_ok.mp h).elim
    | _ => exact Or.inl (Attempt.pure_ok.mp h).2.symm

theorem settleBranch_decided (h : settleBranch method id r = .ok u r') :
    (r' = r ∧ ∀ n x truth, r.graph.get? id = some n → n.inputs.head? = some x →
      r.graph.kind? x ≠ some (.logicConstant truth)) ∨
    ∃ n x truth folded k e, r.graph.get? id = some n ∧ n.inputs.head? = some x ∧
      r.graph.kind? x = some (.logicConstant truth) ∧ r.graph.foldBranch id truth = .ok (folded, k) ∧
      r' = ⟨⟨k, r.draft.log.record e⟩, (r.changes.noteAll [id]).noteEdge, r.seeds ++ [folded.dead]⟩ ∧
      e.kind = .branchFolded := by
  obtain ⟨n, hn, h⟩ := Attempt.ask_bind_ok.mp h
  have hn := Graph.node_eq_ok_iff.mp hn
  cases hinputs : n.inputs with
  | nil =>
    rw [hinputs] at h
    exact (Attempt.throw_ok.mp h).elim
  | cons condition rest =>
    rw [hinputs] at h
    obtain ⟨c, hc, h⟩ := Attempt.ask_bind_ok.mp h
    have hc := Graph.node_eq_ok_iff.mp hc
    have hkeep : r' = r → (∀ truth, c.kind ≠ .logicConstant truth) → r' = r ∧ ∀ m x truth, r.graph.get? id = some m →
        m.inputs.head? = some x → r.graph.kind? x ≠ some (.logicConstant truth) := by
      refine fun he hno => ⟨he, fun m x truth hm hx hconst => ?_⟩
      cases hn.symm.trans hm
      obtain rfl : condition = x := by simpa [hinputs] using hx
      obtain ⟨c', hc', hk⟩ := Graph.kind?_eq_some_iff.mp hconst
      cases hc.symm.trans hc'
      exact hno truth hk
    cases hk : c.kind with
    | logicConstant truth =>
      rw [hk] at h
      obtain ⟨⟨folded, k⟩, hfold, h⟩ := except_bind_ok.mp (Attempt.step_ok.mp h)
      obtain rfl := Except.ok.inj h
      exact Or.inr ⟨n, condition, truth, folded, k, _, hn, by rw [hinputs]; rfl,
        Graph.kind?_eq_some_iff.mpr ⟨c, hc, hk⟩, hfold, rfl, rfl⟩
    | _ =>
      rw [hk] at h
      exact Or.inl (hkeep (Attempt.pure_ok.mp h).2.symm (by simp [hk]))

theorem settleBranch_edit (h : settleBranch method id r = .ok u r') : r' = r ∨ Edit r r' := by
  rcases settleBranch_decided h with ⟨rfl, -⟩ | ⟨n, x, truth, folded, k, e, hn, hx, hconst, hfold, rfl, he⟩
  · exact Or.inl rfl
  · exact Or.inr (.fold hn hx hconst hfold he)

theorem keeps_of_edit {P : Round → Prop} {x : Attempt Round PUnit} (hx : ∀ r u r', x r = .ok u r' → r' = r ∨ Edit r r')
    (hP : ∀ r r', P r → Edit r r' → P r') : x.Keeps P := by
  intro r u r' hr h
  rcases hx r u r' h with rfl | hedit
  · exact hr
  · exact hP r r' hr hedit

theorem edits_keep {P : Round → Prop} (hP : ∀ r r', P r → Edit r r' → P r') (hr : P r)
    (h : Relation.ReflTransGen Edit r r') : P r' := by
  induction h with
  | refl => exact hr
  | tail _ hedit ih => exact hP _ _ ih hedit

theorem cleanSeeds_cases (h : cleanSeeds r = .ok u r') : (r.seeds = [] ∧ r' = r) ∨ r.seeds ≠ [] ∧ ∃ c k,
    Graph.cleanUp r.seeds r.graph = .ok c k ∧ r' = ⟨⟨k, r.draft.log⟩, r.changes.append c, r.seeds⟩ := by
  unfold cleanSeeds at h
  split at h
  next hnone => exact Or.inl ⟨List.isEmpty_iff.mp hnone, (EStateM.Result.ok.inj h).2.symm⟩
  next hsome =>
    refine Or.inr ⟨fun hnone => hsome (List.isEmpty_iff.mpr hnone), ?_⟩
    split at h
    next c k hclean => exact ⟨c, k, hclean, (EStateM.Result.ok.inj h).2.symm⟩
    next => cases h

/-- A round edits conditions and guards, then branches, cleans up where something was cut off, and sweeps away what
is not used. -/
theorem run_cases (h : run method r = .ok u r') : ∃ r₁ r₂ r₃, Relation.ReflTransGen Edit r r₁ ∧
    (r₁.graph.select (·.kind = .branch)).forM (settleBranch method) r₁ = .ok () r₂ ∧
    cleanSeeds r₂ = .ok () r₃ ∧ r' = sweepUnused method r₃.graph.liveCount r₃ := by
  have h := Attempt.get_bind_ok.mp h
  obtain ⟨_, r₁, hfold, h⟩ := Attempt.bind_ok.mp h
  have E₁ := forM_foldCondition_edits ((Graph.select_sorted _ _).imp Nat.ne_of_lt) (fun id => Graph.mem_select.mp) hfold
  have h := Attempt.get_bind_ok.mp h
  obtain ⟨_, r₂, hguards, h⟩ := Attempt.bind_ok.mp h
  have E₂ : Relation.ReflTransGen Edit r r₂ :=
    (Attempt.Keeps.forM fun _ _ => keeps_of_edit (fun _ _ _ => settleGuard_edit) fun _ _ => .tail) _ _ _ E₁ hguards
  have h := Attempt.get_bind_ok.mp h
  obtain ⟨_, r₃, hbranches, h⟩ := Attempt.bind_ok.mp h
  obtain ⟨_, r₄, hclean, h⟩ := Attempt.bind_ok.mp h
  exact ⟨r₂, r₃, r₄, E₂, hbranches, hclean, (Attempt.modify_ok.mp h).symm⟩

theorem run_edits (h : run method r = .ok u r') : ∃ r₁ r₂, Relation.ReflTransGen Edit r r₁ ∧ cleanSeeds r₁ = .ok () r₂ ∧
    r' = sweepUnused method r₂.graph.liveCount r₂ := by
  obtain ⟨r₁, r₂, r₃, E, hbranches, hclean, hr'⟩ := run_cases h
  exact ⟨r₂, r₃,
    (Attempt.Keeps.forM fun _ _ => keeps_of_edit (fun _ _ _ => settleBranch_edit) fun _ _ => .tail) _ _ _ E hbranches,
    hclean, hr'⟩

theorem foldl_dropUnused_graph (method : Option MethodId) (ids : List NodeId) (r : Round) :
    (ids.foldl (dropUnused method) r).graph = ids.foldl Graph.delete r.graph := by
  induction ids generalizing r with
  | nil => rfl
  | cons id ids ih => exact ih _

theorem exists_of_mem_unused {g : Graph} {id : NodeId} (hid : id ∈ unused g) :
    ∃ n, g.get? id = some n ∧ n.kind.isPure = true :=
  Graph.mem_select.mp (List.mem_filter.mp hid).1

/-- Sweeping deletes pure nodes that nothing depends on, one by one. -/
theorem sweepUnused_induct {P : Round → Prop}
    (hdrop : ∀ r id n (e : Event), P r → r.graph.get? id = some n → n.kind.isPure = true →
      (∀ j n, r.graph.get? j = some n → id ∉ n.dependencies) → e.kind = .nodeRemoved →
      P ⟨⟨r.graph.delete id, r.draft.log.record e⟩, r.changes.noteAll [id], r.seeds⟩)
    (bound : Nat) (hr : P r) : P (sweepUnused method bound r) := by
  have hall : ∀ (ids : List NodeId) (r : Round), ids.Nodup → P r →
      (∀ id ∈ ids, (∃ n, r.graph.get? id = some n ∧ n.kind.isPure = true) ∧
        ∀ j n, r.graph.get? j = some n → id ∉ n.dependencies) → P (ids.foldl (dropUnused method) r) := by
    intro ids
    induction ids with
    | nil => exact fun r _ hr _ => hr
    | cons id ids ih =>
      intro r hnodup hr hids
      obtain ⟨hnot, hnodup⟩ := List.nodup_cons.mp hnodup
      obtain ⟨⟨⟨n, hn, hk⟩, hunused⟩, hids⟩ := List.forall_mem_cons.mp hids
      refine ih _ hnodup (hdrop r id n _ hr hn hk hunused rfl) fun j hj => ?_
      obtain ⟨⟨m, hm, hkm⟩, hunused'⟩ := hids j hj
      refine ⟨⟨m, (Graph.get?_delete ..).trans ?_, hkm⟩, fun l m hm => hunused' l m (Graph.get?_of_delete hm)⟩
      rw [if_neg (fun he : j = id => hnot (he ▸ hj)), hm]
  induction bound generalizing r with
  | zero => exact hr
  | succ bound ih =>
    unfold sweepUnused
    split
    next => exact hr
    next =>
      refine ih (hall _ _ (((Graph.select_sorted _ _).imp Nat.ne_of_lt).filter _) hr fun id hid =>
        ⟨exists_of_mem_unused hid, fun j n hn hdep => ?_⟩)
      have hmem := Graph.mem_usages.mpr ⟨n, hn, hdep⟩
      have hnone := (List.mem_filter.mp hid).2
      simp [Graph.hasUsages, List.ne_nil_of_mem hmem] at hnone

end Round

namespace Draft

variable {config : EliminationConfig} {method : Option MethodId} {d d' : Draft} {P : Draft → Prop}

theorem check_ok {u : Unit} (h : check config d = .ok u d') : d' = d := by
  have hplacement : ∀ {u : Unit} {d₁ : Draft},
      (if config.checkPlacement then Attempt.ask fun d : Draft => d.graph.checkPlacement else pure ()) d₁ =
        .ok u d' → d' = d₁ := by
    intro u d₁ h
    split at h
    · exact (Attempt.ask_ok.mp h).2.symm
    · exact (Attempt.pure_ok.mp h).2.symm
  unfold check at h
  split at h
  · obtain ⟨_, -, h⟩ := Attempt.ask_bind_ok.mp h
    exact hplacement h
  · exact hplacement h

theorem canonicalize_keeps (hround : (canonicalizeOnce method).Keeps P) : (canonicalize method).Keeps P := by
  have hrounds : ∀ bound total, (canonicalizeRounds method bound total).Keeps P := by
    intro bound
    induction bound with
    | zero => exact fun _ => .pure _
    | succ bound ih =>
      refine fun total => .bind hround fun changes => ?_
      split
      next => exact .pure _
      next => exact ih _
  exact .bind .get fun _ => hrounds _ _

/-- What walks keep holds before the rounds, and what rounds keep holds after them. -/
theorem eliminate_ok {Q : Draft → Prop} (hwalk : ∀ tally, (walk config method tally).Keeps P)
    (hround : (canonicalizeOnce method).Keeps Q) (hPQ : ∀ d, P d → Q d) (hd : P d) {tally : Tally}
    (h : eliminate config method d = .ok tally d') : Q d' := by
  have hwalks : ∀ n tally, (walks config method n tally).Keeps P := by
    intro n
    induction n with
    | zero => exact fun _ => .pure _
    | succ n ih =>
      refine fun tally => .bind (hwalk _) fun r => .bind (fun d _ d' hd h => ?_) fun _ => ?_
      · rw [check_ok h]
        exact hd
      · split
        next => exact ih _
        next => exact .pure _
  obtain ⟨tally', d₁, hw, h⟩ := Attempt.bind_ok.mp h
  have hQ := hPQ d₁ (hwalks _ _ d _ d₁ hd hw)
  split at h
  next => exact Attempt.Keeps.bind (canonicalize_keeps hround) (fun _ => .pure _) d₁ _ d' hQ h
  next => exact Attempt.Keeps.pure _ d₁ _ d' hQ h

theorem eliminate_keeps (hwalk : ∀ tally, (walk config method tally).Keeps P)
    (hround : (canonicalizeOnce method).Keeps P) : (eliminate config method).Keeps P :=
  fun _ _ _ hd h => eliminate_ok hwalk hround (fun _ => id) hd h

end Draft

end GuardElision
