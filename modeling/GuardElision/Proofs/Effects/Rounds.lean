import GuardElision.Proofs.Effects.Cleaning
import GuardElision.Proofs.Execution.Condition
import GuardElision.Proofs.Pipeline.Unchanged

namespace GuardElision

namespace Round

variable {E : Extent} {g : Graph} {method : Option MethodId} {r r' : Round} {id : NodeId} {u : PUnit}

theorem isUndecidedLogic_not_becoming {k : Kind} (hk : isUndecidedLogic k = true) (value : Bool) :
    ¬Kind.MayBecome (.logicConstant value) k := by
  rintro ⟨⟩
  cases hk

theorem stampTruth?_ok {value : Bool} (h : stampTruth? g id = .ok (some value)) :
    ∃ n, g.get? id = some n ∧ n.kind.MayBecome (.logicConstant value) := by
  obtain ⟨c, hc, h⟩ := except_bind_ok.mp h
  obtain ⟨n, hn, hcase⟩ := Graph.condition_ok hc
  refine ⟨n, hn, ?_⟩
  rcases hcase with ⟨b, hk, rfl⟩ | ⟨y, hk, -⟩ | ⟨y, cls, hk, -⟩ | ⟨y, z, op, hk, -⟩
  · obtain rfl := Option.some.inj (Except.ok.inj h)
    rw [hk]
    exact .same _
  · rw [hk]
    exact .isNull _
  · rw [hk]
    exact .instanceOf ..
  · rw [hk]
    exact .compare ..

/-- The graph of the round is what became of `g`, for good if a node is noted. -/
structure Tells (E : Extent) (g : Graph) (r : Round) : Prop where
  aged : g.MayBecome E r.graph
  told : r.changes.nodes ≠ [] → ¬r.graph.MayBecome E g

/-- An edit that cannot be undone. -/
theorem Tells.edit (T : r.Tells E g) (A : r.graph.MayBecome E r'.graph) (hback : ¬r'.graph.MayBecome E r.graph) :
    r'.Tells E g :=
  ⟨T.aged.trans A, fun _ B => hback (B.trans T.aged)⟩

theorem Tells.later (T : r.Tells E g) (hnoted : r.changes.nodes ≠ []) (A : r.graph.MayBecome E r'.graph) :
    r'.Tells E g :=
  ⟨T.aged.trans A, fun _ B => T.told hnoted (A.trans B)⟩

theorem Edit.tells (W : g.Within E) (T : r.Tells E g) (h : Edit r r') : r'.Tells E g := by
  have W' := T.aged.within W
  cases h with
  | @decide id n value e hn hk htruth =>
    obtain ⟨m, hm, hbecome⟩ := stampTruth?_ok htruth
    cases hn.symm.trans hm
    refine T.edit (.decide hn hbecome) (Graph.MayBecome.not_back_of_kind (Graph.slot_of_get? hn)
      (m := { n with kind := .logicConstant value, inputs := [] }) ?_ (isUndecidedLogic_not_becoming hk value))
    change (r.graph.setKind id (.logicConstant value) []).nodes[id]? = _
    rw [Graph.setKind, Graph.slot_modify, if_pos rfl, Graph.slot_of_get? hn, Option.map_some]
  | @drop id anchor x n negated reason e hn hk ha =>
    have A : r.graph.MayBecome E ((r.graph.replaceGuard id (some anchor)).delete id) :=
      .dropGuard hn (by rw [hk]; rfl) anchor
    refine T.edit A (A.not_back_of_removed hn ?_)
    rw [Graph.get?_delete, if_pos rfl]
  | trap hn hk ha _ _ hs =>
    exact T.edit (.strengthenGuard (W'.passes_new (Nat.le_refl _)) (W'.reasons _ _ _ _ hn hk) hs)
      (Graph.MayBecome.not_back_of_strengthenGuard hs)
  | fold _ _ _ hfold => exact T.edit (.foldBranch hfold) (Graph.MayBecome.not_back_of_foldBranch hfold)

/-- A round tells the truth: if it notes a node, what it was given is gone for good. -/
theorem run_tells (W : r.graph.Within E) (hnodes : r.changes.nodes = []) (hseeds : r.seeds = [])
    (h : run method r = .ok u r') : r'.Tells E r.graph := by
  refine run_induct (P := Tells E r.graph) (fun _ _ T hedit => hedit.tells W T)
    (fun r₁ c k T hnoted hclean => T.later hnoted (Graph.cleanUp_mayBecome (T.aged.within W) hclean))
    (fun r₁ id n e T hn hpure _ => ?_) hseeds ⟨.refl E r.graph, fun hn => absurd hnodes hn⟩ h
  have A : r₁.graph.MayBecome E (r₁.graph.delete id) := by
    refine .delete fun m hm => Or.inr (Node.not_isBare fun index hk => ?_)
    cases hn.symm.trans hm
    simp [hk, Kind.isPure] at hpure
  refine T.edit A (A.not_back_of_removed hn ?_)
  rw [Graph.get?_delete, if_pos rfl]

end Round

namespace Draft

variable {E : Extent} {method : Option MethodId} {d d' : Draft} {changes : Changes}

theorem canonicalizeOnce_mayBecome (W : d.graph.Within E) (h : canonicalizeOnce method d = .ok changes d') :
    d.graph.MayBecome E d'.graph ∧ (changes.isEmpty = true ∨ ¬d'.graph.MayBecome E d.graph) := by
  have hcopy := h
  unfold canonicalizeOnce at h
  split at h
  next r hrun =>
    obtain ⟨rfl, rfl⟩ := EStateM.Result.ok.inj h
    have T := Round.run_tells (r := { draft := d }) W rfl rfl hrun
    refine ⟨T.aged, ?_⟩
    by_cases hnodes : r.changes.nodes = []
    · exact Or.inl (canonicalizeOnce_unchanged hcopy hnodes).2
    · exact Or.inr (T.told hnodes)
  next => cases h

theorem canonicalizeRounds_mayBecome {bound : Nat} {total : Changes} (W : d.graph.Within E)
    (h : canonicalizeRounds method bound total d = .ok changes d') :
    d.graph.MayBecome E d'.graph ∧ (changes = total ∨ ¬d'.graph.MayBecome E d.graph) := by
  induction bound generalizing total d with
  | zero =>
    obtain ⟨rfl, rfl⟩ := Attempt.pure_ok.mp h
    exact ⟨.refl E _, Or.inl rfl⟩
  | succ bound ih =>
    obtain ⟨round, d₁, honce, h⟩ := Attempt.bind_ok.mp h
    obtain ⟨A, hround⟩ := canonicalizeOnce_mayBecome W honce
    split at h
    next =>
      obtain ⟨rfl, rfl⟩ := Attempt.pure_ok.mp h
      exact ⟨A, Or.inl rfl⟩
    next hsome =>
      obtain ⟨A', _⟩ := ih (A.within W) h
      exact ⟨A.trans A', Or.inr fun B => hround.resolve_left hsome (A'.trans B)⟩

/-- Canonicalizing mayBecome the graph, for good if anything is reported. -/
theorem canonicalize_mayBecome (W : d.graph.Within E) (h : canonicalize method d = .ok changes d') :
    d.graph.MayBecome E d'.graph ∧ (changes = {} ∨ ¬d'.graph.MayBecome E d.graph) := by
  have h := Attempt.get_bind_ok.mp h
  exact canonicalizeRounds_mayBecome W h

end Draft

end GuardElision
