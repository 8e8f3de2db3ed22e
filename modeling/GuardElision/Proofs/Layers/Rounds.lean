import GuardElision.Proofs.Elimination.Rounds
import GuardElision.Proofs.Execution.Condition
import GuardElision.Proofs.Graph.Accepted
import GuardElision.Proofs.Layers.Walking

namespace GuardElision

namespace Round

variable {L : Layering} {method : Option MethodId} {r r' : Round}

/-- The graph keeps to the layers, and something leads to every merge that is not among the seeds. -/
def Tended (L : Layering) (r : Round) : Prop :=
  r.graph.Layered L ∧ r.graph.Led r.seeds

theorem Edit.layers (T : r.Tended L) (h : Edit r r') : r'.Tended L := by
  obtain ⟨Y, hled⟩ := T
  cases h with
  | @decide id n value e hn hk htruth =>
    have hlogic : ∀ m, r.graph.get? id = some m → m.kind.isLogic = true := by
      intro m hm
      cases hn.symm.trans hm
      exact isLogic_of_isUndecidedLogic hk
    exact ⟨.decide hlogic Y, hled.ways Y.shaped (Graph.Recast.decide hlogic).ways⟩
  | drop hn hkind ha =>
    have hk : _ = true := congrArg Kind.isGuard hkind
    obtain rfl := Option.some.inj (ha.symm.trans (Y.anchor _ _ hn (Or.inl hk)).1)
    obtain ⟨hself, hprotects, _⟩ := Y.post _ _ hn hk
    refine ⟨Y.dropGuard hn hk (Or.inl hself) hprotects, hled.ways Y.shaped (Graph.Recast.dropGuard fun m hm => ?_).ways⟩
    cases hn.symm.trans hm
    exact Kind.isControl_of_isGuard hk
  | trap hn hkind ha _ _ hs =>
    have hk : _ = true := congrArg Kind.isGuard hkind
    obtain rfl := Option.some.inj (ha.symm.trans (Y.anchor _ _ hn (Or.inl hk)).1)
    obtain ⟨m, hm, _⟩ := except_bind_ok.mp hs
    have hm := Graph.node_eq_ok_iff.mp hm
    have hanchor := (Y.post _ _ hn hk).2.2 m hm
    refine ⟨Y.cut (.strengthen Y.shaped hm hanchor hs),
      hled.strengthen Y.shaped hm hanchor hs (fun c hc => ?_) fun c hc => ?_⟩
    · exact List.mem_append_left _ (List.mem_append_left _ hc)
    · exact List.mem_append_left _ (List.mem_append_right _ (by simp [hc]))
  | fold _ _ _ hfold =>
    exact ⟨Y.cut (.fold Y.shaped hfold), hled.fold Y.shaped hfold fun c hc _ => List.mem_append_left _ hc⟩

theorem run_layers {u : Unit} (T : r.Tended L) (h : run method r = .ok u r') :
    r'.graph.Layered L ∧ r'.graph.Led [] := by
  obtain ⟨r₁, r₂, E, hclean, rfl⟩ := run_edits h
  have T₁ : r₁.Tended L := edits_keep (fun _ _ T hedit => hedit.layers T) T E
  have T₂ : r₂.graph.Layered L ∧ r₂.graph.Led [] := by
    rcases cleanSeeds_cases hclean with ⟨hnone, rfl⟩ | ⟨_, c, k, hk, rfl⟩
    · exact ⟨T₁.1, hnone ▸ T₁.2⟩
    · exact Graph.cleanUp_layers T₁.1 T₁.2 hk
  refine sweepUnused_induct (P := fun r => r.graph.Layered L ∧ r.graph.Led []) (fun r id n _ Y hn hpure _ _ => ?_) _ T₂
  have hfloat : ∀ m, r.graph.get? id = some m → m.kind.isControl = false := by
    intro m hm
    cases hn.symm.trans hm
    exact Kind.isControl_of_isPure hpure
  exact ⟨Y.1.delete hfloat, Y.2.ways Y.1.shaped (Graph.Recast.delete hfloat).ways⟩

end Round

namespace Draft

variable {L : Layering} {config : EliminationConfig} {method : Option MethodId}

theorem walk_layers (tally : Tally) :
    (walk config method tally).Keeps fun d => d.graph.Layered L ∧ d.graph.Led [] := by
  refine .bind (.ask _) fun _ => fun d r d' Y h => ?_
  split at h
  next w hrun =>
    obtain ⟨_, rfl⟩ := EStateM.Result.ok.inj h
    exact Walk.run_layers Y.1 Y.2 hrun
  next => cases h

theorem canonicalizeOnce_layers : (canonicalizeOnce method).Keeps fun d => d.graph.Layered L ∧ d.graph.Led [] := by
  intro d changes d' Y h
  unfold canonicalizeOnce at h
  split at h
  next r hrun =>
    obtain ⟨_, rfl⟩ := EStateM.Result.ok.inj h
    exact Round.run_layers (r := { draft := d }) Y hrun
  next => cases h

theorem eliminate_layers : (eliminate config method).Keeps fun d => d.graph.Layered L ∧ d.graph.Led [] :=
  eliminate_keeps walk_layers canonicalizeOnce_layers

/-- No guard comes to rely on itself, in an accepted graph where none relies on another one at its anchor. Whatever
guards are folded and whatever is protected anew, nothing relies on itself once conditions are eliminated. -/
theorem eliminate_keeps_acyclic {d d' : Draft} {tally : Tally} (A : d.graph.Accepted)
    (hapart : ∀ q r a n m, d.graph.get? q = some n → n.kind.isGuard = true → n.anchor = some a →
      d.graph.get? r = some m → m.kind.isGuard = true → m.anchor = some a → ¬Relation.TransGen d.graph.Relies q r)
    (h : eliminate config method d = .ok tally d') (x : NodeId) : ¬Relation.TransGen d'.graph.Relies x x := by
  have I := A.inOrder
  obtain ⟨L, Y⟩ := I.exists_layered hapart
  have hled : d.graph.Led [] := by
    intro c n hn hk
    have hne : c ≠ Graph.start := by
      rintro rfl
      obtain ⟨m, hm, hstart, _⟩ := I.formed.shaped.start
      cases hn.symm.trans hm
      simp [hstart, Kind.isMerge] at hk
    obtain ⟨p, _, hs⟩ := (I.reached c n hn (Kind.isControl_of_isMerge hk)).exists_step hne
    exact Or.inl ⟨p, hs⟩
  exact (eliminate_layers d tally d' ⟨Y, hled⟩ h).1.acyclic x

/-- Two guards at the start, and the read relies on the one that is folded. -/
theorem eliminate_keeps_acyclic_folded :
    let g : Graph :=
      ⟨#[{ kind := .start, successors := [9] }, { kind := .parameter 0, stamp := .int .full },
        { kind := .parameter 1, stamp := .object { nonNull := true } },
        { kind := .constant (.int 10), stamp := .int (.constant 10) },
        { kind := .constant (.int 5), stamp := .int (.constant 5) },
        { kind := .compare .lt, inputs := [1, 3], stamp := .logic },
        { kind := .compare .lt, inputs := [1, 4], stamp := .logic },
        { kind := .guard false .boundsCheck, inputs := [5], anchor := some 0 },
        { kind := .guard false .boundsCheck, inputs := [6], anchor := some 0 },
        { kind := .ret, inputs := [10], predecessors := [0] },
        { kind := .read 0, inputs := [2], guard := some 7, memory := some 0, stamp := .int .full }], .root⟩
    g.Accepted ∧ ∃ tally d', eliminate {} none ⟨g, {}⟩ = .ok tally d' ∧ tally.guardsEliminated = 1 ∧
      ∀ x, ¬Relation.TransGen d'.graph.Relies x x := by
  intro g
  have A : g.Accepted := Graph.accepted_of_numbered (by decide +kernel) (by decide +kernel) rfl (by decide +kernel)
  have hguards : ∀ q < 11, ∀ n ∈ g.get? q, n.kind.isGuard = true → 7 ≤ q := by decide +kernel
  have hinputs : ∀ x < 9, ∀ n ∈ g.get? x, n.guard = none ∧ ∀ y ∈ n.inputs, y < 7 := by decide +kernel
  have hbelow : ∀ {q r}, q < 9 → Relation.TransGen g.Relies q r → r < 7 := by
    have hstep : ∀ x y, x < 9 → g.Relies x y → y < 7 := by
      rintro x y hx ⟨n, hn, _, ⟨_, hy⟩ | hy⟩
      · exact (hinputs x hx n hn).2 y hy
      · cases (hinputs x hx n hn).1.symm.trans hy
    intro q r hq h
    induction h with
    | single h => exact hstep _ _ hq h
    | tail _ h ih => exact hstep _ _ (Nat.lt_trans ih (by decide)) h
  have hcount : (eliminate {} none).result ⟨g, {}⟩ =
      .ok { guardsEliminated := 1, walks := 1, nodesCanonicalized := 2 } := by decide +kernel
  obtain ⟨d', hrun⟩ := Attempt.result_eq_ok.mp hcount
  refine ⟨A, _, d', hrun, rfl, eliminate_keeps_acyclic A ?_ hrun⟩
  intro q r a n m hn hq _ hm hr _ h
  have hanchored : ∀ q < 11, ∀ n ∈ g.get? q, n.kind.isGuard = true → q < 9 := by decide +kernel
  have hlow := hbelow (hanchored q (Graph.lt_capacity hn) n hn hq) h
  exact Nat.not_lt.mpr (hguards r (Graph.lt_capacity hm) m hm hr) hlow

end Draft

end GuardElision
