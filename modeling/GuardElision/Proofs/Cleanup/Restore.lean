import GuardElision.Proofs.Cleanup.Collapse
import GuardElision.Proofs.Cleanup.Settling
import GuardElision.Proofs.Graph.Accepted

namespace GuardElision

namespace Graph

variable {g h : Graph} {u : NodeId}

/-- Cleaning up after a cut succeeds if pruning and dropping orphans restores order. -/
theorem cleanUp_inOrder {changed : List NodeId}
    (hsettles : ∃ control s₁ s₂, changed.flatMapM Sweep.seed { graph := g } = .ok control s₁ ∧
      Sweep.prune (control.length + Sweep.edgeCount s₁.graph) control.reverse s₁ = .ok () s₂ ∧
      (Sweep.dropOrphans (s₂.floating.length + s₂.graph.liveCount) s₂.floating.reverse s₂).graph.InOrder) :
    ∃ changes h, g.cleanUp changed = .ok changes h ∧ h.InOrder := by
  obtain ⟨control, s₁, s₂, hseeds, hprune, I⟩ := hsettles
  obtain ⟨s₃, hmerges, I₃⟩ := Sweep.simplifyMerges_inOrder I
    ((Sweep.dropOrphans (s₂.floating.length + s₂.graph.liveCount) s₂.floating.reverse s₂).merges ++ changed).eraseDups
  have hrun : Sweep.run changed { graph := g } = .ok () s₃ :=
    Attempt.bind_ok.mpr ⟨control, s₁, hseeds, Attempt.bind_ok.mpr ⟨s₁, s₁, rfl,
      Attempt.bind_ok.mpr ⟨(), s₂, hprune, Attempt.bind_ok.mpr ⟨(), _, rfl, Attempt.bind_ok.mpr ⟨_, _, rfl, hmerges⟩⟩⟩⟩⟩
  refine ⟨s₃.changes, s₃.graph, ?_, I₃⟩
  unfold cleanUp
  rw [hrun]

section Fold

variable {split : NodeId} {n : Node}

theorem foldBranch_succeeds (H : g.Shaped) (hn : g.get? split = some n) (hk : n.kind = .branch) (truth : Bool) :
    ∃ folded h, g.foldBranch split truth = .ok (folded, h) := by
  obtain ⟨yes, no, hsucc, _⟩ := H.branch split n hn hk
  obtain ⟨⟨index?, k⟩, hremove⟩ := removeEdge_succeeds hn (if truth then FoldedBranch.mk yes no else ⟨no, yes⟩).dead
  refine ⟨if truth then ⟨yes, no⟩ else ⟨no, yes⟩, k.setKind split .begin [], except_bind_ok.mpr ⟨n, node_eq_ok_iff.mpr hn, except_bind_ok.mpr ⟨(), ensure_ok.mpr (by simp [hk]), ?_⟩⟩⟩
  rw [hsucc]
  exact except_bind_ok.mpr ⟨(index?, k), hremove, rfl⟩

theorem constantBranch?_eq_none {c : NodeId} (hc : ∀ m, g.get? c = some m → m.kind ≠ .branch) :
    Sweep.constantBranch? g c = none := by
  by_contra hsome
  obtain ⟨truth, htruth⟩ := Option.ne_none_iff_exists'.mp hsome
  obtain ⟨m, hm, hk⟩ := Sweep.constantBranch?_eq_some htruth
  exact hc m hm hk

/-- Folding a branch and cleaning up succeeds, leaves the graph in order, and control comes to the same
nodes as after the fold. -/
theorem cleanUp_restores_folded (I : g.InOrder) (hn : g.get? split = some n) (hk : n.kind = .branch) (truth : Bool) :
    ∃ folded h changes k, g.foldBranch split truth = .ok (folded, h) ∧
      h.cleanUp [split, folded.dead] = .ok changes k ∧ k.InOrder ∧ ∀ c, k.Reach c ↔ h.Reach c := by
  have H := I.formed.shaped
  obtain ⟨folded, h, hfold⟩ := foldBranch_succeeds H hn hk truth
  have C := Cut.fold H hfold
  have L := I.formed.shaped.linked I.formed.loose
  obtain ⟨hsplit, hdead, _⟩ := foldBranch_loose L hfold
  obtain ⟨m, yes, no, hm, _, hsucc, hfolded, _, _, hget⟩ := foldBranch_ok hfold
  cases hn.symm.trans hm
  obtain ⟨v, hv⟩ : ∃ v, h.get? split = some v := ⟨_, by rw [hget, hn, Option.map_some]⟩
  have hplain : ∀ c ∈ [split, folded.dead], ∀ l, h.get? c = some l → l.kind ≠ .branch := by
    intro c hc l hl
    rcases List.mem_cons.mp hc with rfl | hc
    · obtain ⟨_, _, _, _, _, ⟨_, _, hne⟩ | ⟨he, _⟩, _⟩ := C.here l hl
      · exact hne
      · simp [he]
    · obtain ⟨yes', no', hsucc', _, hyes, hno⟩ := H.branch split n hn hk
      obtain ⟨rfl, rfl⟩ : yes = yes' ∧ no = no' := by simpa [hsucc] using hsucc'
      have hdead : g.kind? c = some .begin := by
        rw [List.mem_singleton.mp hc, hfolded]
        cases truth
        · exact hyes
        · exact hno
      obtain ⟨l', hl', hkind⟩ := kind?_eq_some_iff.mp hdead
      have hcs : c ≠ split := by
        rintro rfl
        cases hn.symm.trans hl'
        simp [hk] at hkind
      obtain ⟨l'', hl'', hkind', _⟩ := C.other c l hl (lt_capacity hl') hcs
      cases hl'.symm.trans hl''
      simp [hkind', hkind]
  have hgone : ∀ j l, g.get? j = some l → h.get? j = none → j ∈ [split, folded.dead] ∧ False := by
    intro j l hl hnone
    rw [hget, hl] at hnone
    cases hnone
  obtain ⟨changes, k, hclean, I'⟩ := cleanUp_inOrder (Sweep.settles I C ⟨v, hv⟩ (fun _ => False)
    (fun c hc => constantBranch?_eq_none (hplain c hc)) (fun t ht => by simp [ht]) hgone (fun _ _ _ hlow => hlow)
    (fun _ _ _ _ hlow => hlow.elim))
  refine ⟨folded, h, changes, k, hfold, hclean, I', fun c => ?_⟩
  refine (cleanUp_kept (foldBranch_linked L hfold) (fun c hc => ?_) hclean).flow.reach_iff
  rcases List.mem_cons.mp hc with rfl | hc
  · exact hsplit
  · exact List.mem_singleton.mp hc ▸ hdead

end Fold

section Strengthen

variable {n : Node}

theorem redirectEdge_succeeds {new old : NodeId} {m : Node} (hn : g.get? u = some n) (hm : g.get? new = some m)
    (hold : old ∈ n.successors) : ∃ h, g.redirectEdge u old new = .ok h := by
  obtain ⟨position, hposition⟩ := Option.isSome_iff_exists.mp (List.isSome_idxOf?.mpr hold)
  exact ⟨_, Attempt.final_ok.mpr (relink_of_idxOf? hm hn hposition)⟩

theorem addEdge_succeeds {new : NodeId} {m : Node} (hn : g.get? u = some n) (hm : g.get? new = some m) :
    ∃ h, g.addEdge u new = .ok h :=
  ⟨_, Attempt.final_ok.mpr (link_of_get? hn hm)⟩

theorem strengthenGuard_succeeds (hn : g.get? u = some n) (q : NodeId) (reason : Reason) :
    ∃ s h, g.strengthenGuard u q reason = .ok (s, h) := by
  have hadd := get?_add g { kind := .deoptimize reason, synthetic := true } rfl
  have hu := hadd u
  rw [if_neg (Nat.ne_of_lt (lt_capacity hn)), hn] at hu
  have htrap := hadd g.capacity
  rw [if_pos rfl] at htrap
  cases hhead : n.successors.head? with
  | some old =>
    obtain ⟨h, hedge⟩ := redirectEdge_succeeds hu htrap (List.mem_of_head? hhead)
    refine ⟨⟨g.capacity, some old, (h.guardsAt u).filter (q ≤ ·)⟩, ((h.guardsAt u).filter (q ≤ ·)).foldl delete h,
      except_bind_ok.mpr ⟨n, node_eq_ok_iff.mpr hn, ?_⟩⟩
    rw [hhead]
    exact except_bind_ok.mpr ⟨h, hedge, rfl⟩
  | none =>
    obtain ⟨h, hedge⟩ := addEdge_succeeds hu htrap
    refine ⟨⟨g.capacity, none, (h.guardsAt u).filter (q ≤ ·)⟩, ((h.guardsAt u).filter (q ≤ ·)).foldl delete h,
      except_bind_ok.mpr ⟨n, node_eq_ok_iff.mpr hn, ?_⟩⟩
    rw [hhead]
    exact except_bind_ok.mpr ⟨h, hedge, rfl⟩

variable {q : NodeId} {reason : Reason} {s : Strengthened}

theorem strengthened_below (H : g.Shaped) (hn : g.get? u = some n) (hk : n.kind.isAnchor = true)
    (hs : g.strengthenGuard u q reason = .ok (s, h)) {c : NodeId} (hd : h.Dom u c) : c = u ∨ c = g.capacity := by
  obtain ⟨_, _, _, htrap, _⟩ := strengthened H hn hk hs
  obtain ⟨v, hv, _, _, _, hvsucc, _⟩ := strengthened_here H hn hk hs
  refine hd.reach.induct (P := fun c => h.Dom u c → c = u ∨ c = g.capacity) (fun hd => Or.inl ?_)
    (fun a b hra ih hs hd => ?_) hd
  · exact (Digraph.Dominates.entry_left hd.reach_left).antisymm hd
  · by_cases hub : u = b
    · exact Or.inl hub.symm
    · obtain ⟨l, hl, _, _, hmem, _⟩ := id hs
      rcases ih (hd.step_left hub hra hs) with rfl | rfl
      · cases hv.symm.trans hl
        exact Or.inr (by simpa [hvsucc] using hmem)
      · cases htrap.symm.trans hl
        simp at hmem

theorem constantBranch?_iff {c : NodeId} {truth : Bool} : Sweep.constantBranch? g c = some truth ↔
    ∃ m t, g.get? c = some m ∧ m.kind = .branch ∧ m.inputs.head? = some t ∧ g.kind? t = some (.logicConstant truth) := by
  have hlogic : ∀ t, g.logicConstant? t = some truth ↔ g.kind? t = some (.logicConstant truth) := by
    intro t
    unfold logicConstant?
    split
    next b hb => simp [hb]
    next hno => exact iff_of_false (by simp) fun he => hno truth he
  unfold Sweep.constantBranch?
  split
  next hm => simp [hm, hlogic]
  next hno =>
    refine iff_of_false (by simp) ?_
    rintro ⟨m, t, hm, hk, hhead, _⟩
    obtain ⟨kind, stamp, inputs, successors, predecessors, anchor, guard, memory, removed, synthetic⟩ := m
    cases inputs with
    | nil => cases hhead
    | cons a l =>
      cases hk
      exact hno _ _ _ _ _ _ _ _ _ _ hm

theorem Cut.constantBranch? {D : NodeId → Prop} (C : Cut u D g h) {c : NodeId} {truth : Bool} (hcu : c ≠ u)
    (hlt : c < g.capacity) (htruth : Sweep.constantBranch? h c = some truth) : Sweep.constantBranch? g c = some truth := by
  obtain ⟨m, t, hm, hk, hhead, ht⟩ := constantBranch?_iff.mp htruth
  obtain ⟨l, hl, hkind, _, _, _, _, _, hinputs, _⟩ := C.other c m hm hlt hcu
  obtain ⟨q, hq, hkq⟩ := kind?_eq_some_iff.mp ht
  obtain ⟨hltt, htu⟩ := C.floating hq (by simp [hkq, Kind.isControl])
  obtain ⟨q', hq', hkind', _⟩ := C.other t q hq hltt htu
  exact constantBranch?_iff.mpr ⟨l, t, hl, hkind.symm.trans hk, hinputs (by simp [hk]) ▸ hhead,
    kind?_eq_some_iff.mpr ⟨q', hq', hkind'.symm.trans hkq⟩⟩

/-- Turning control to a trap and cleaning up succeeds, leaves the graph in order, and control comes to the
same nodes as after the trap was put in, unless the trap cuts off a branch on a constant. -/
theorem cleanUp_restores_strengthened (I : g.InOrder) (hn : g.get? u = some n) (hk : n.kind.isAnchor = true)
    (hconst : ∀ t ∈ n.successors, Sweep.constantBranch? g t = none) (q : NodeId) (reason : Reason) :
    ∃ s h changes k, g.strengthenGuard u q reason = .ok (s, h) ∧
      h.cleanUp (s.removed ++ s.detached.toList) = .ok changes k ∧ k.InOrder ∧ ∀ c, k.Reach c ↔ h.Reach c := by
  have H := I.formed.shaped
  have hctl := Kind.isControl_of_isAnchor hk
  obtain ⟨s, h, hs⟩ := strengthenGuard_succeeds hn q reason
  have C := Cut.strengthen H hn hk hs
  have L := I.formed.shaped.linked I.formed.loose
  obtain ⟨n', hn', _, _, hremoved, _⟩ := strengthenGuard_ok (fun m hm t => H.successor_lt hm (by
    cases hn.symm.trans hm
    exact hctl)) hs
  cases hn.symm.trans hn'
  obtain ⟨hdetached, _, _, htrap, hgone, _⟩ := strengthened H hn hk hs
  obtain ⟨v, hv, _, hvinputs, _, hvsucc, _⟩ := strengthened_here H hn hk hs
  have hplain : ∀ c ∈ s.removed ++ s.detached.toList, Sweep.constantBranch? h c = none := by
    intro c hc
    by_contra hsome
    obtain ⟨truth, htruth⟩ := Option.ne_none_iff_exists'.mp hsome
    rcases List.mem_append.mp hc with hc | hc
    · obtain ⟨m, hm, hg, ha⟩ := mem_guardsAt.mp ((hremoved c).mp hc).1
      obtain ⟨l, hl, _⟩ := Sweep.constantBranch?_eq_some htruth
      cases ((hgone c m hm).mpr ⟨hg, ha, ((hremoved c).mp hc).2⟩).symm.trans hl
    · have hmem : c ∈ n.successors := List.mem_of_head? (hdetached ▸ Option.mem_toList.mp hc)
      have hcu : c ≠ u := by
        rintro rfl
        exact C.not_step_self H hv hn hmem
      have hold := C.constantBranch? hcu (H.successor_lt hn hctl hmem) htruth
      rw [hconst c hmem] at hold
      cases hold
  -- what is gone stood at `u`, and below `u` nothing is asked for any more
  have hlost : ∀ j m, g.get? j = some m → h.get? j = none → j ∈ s.removed ++ s.detached.toList ∧ g.Dom u u := by
    intro j m hm hnone
    obtain ⟨hg, ha, hle⟩ := (hgone j m hm).mp hnone
    exact ⟨List.mem_append_left _ ((hremoved j).mpr ⟨mem_guardsAt.mpr ⟨m, hm, hg, ha⟩, hle⟩), .refl (I.reached u n hn hctl)⟩
  have hlow : ∀ c m, h.get? c = some m → h.Reach c → g.Dom u c → m.dependencies = [] ∧
      ∀ t ∈ m.successors, ∀ l, h.get? t = some l → l.kind.isMerge = false := by
    intro c m hm hr hd
    rcases strengthened_below H hn hk hs ((C.subFlow H).dom H.start_lt hd hr) with rfl | rfl
    · cases hv.symm.trans hm
      obtain ⟨ha, hg, hmem, hin⟩ := I.formed.plain c n hn hctl
      obtain ⟨ha', hg', hmem', _⟩ := C.rest v n hv hn
      refine ⟨by simp [Node.dependencies, hvinputs, hin hk, ha', ha, hg', hg, hmem', hmem], fun t ht l hl => ?_⟩
      obtain rfl : t = g.capacity := by simpa [hvsucc] using ht
      cases htrap.symm.trans hl
      rfl
    · cases htrap.symm.trans hm
      exact ⟨rfl, fun t ht => absurd ht List.not_mem_nil⟩
  obtain ⟨changes, k, hclean, I'⟩ := cleanUp_inOrder (Sweep.settles I C ⟨v, hv⟩ (g.Dom u) hplain
    (fun t ht => List.mem_append_right _ (Option.mem_toList.mpr ht)) hlost (fun a b hd hlow => hlow.trans hd) hlow)
  refine ⟨s, h, changes, k, hs, hclean, I', fun c => ?_⟩
  refine (cleanUp_kept (strengthenGuard_linked L hs) ?_ hclean).flow.reach_iff
  exact strengthenGuard_loose L hs fun m hm => by
    cases hn.symm.trans hm
    exact hctl

end Strengthen

theorem Accepted.isControl_iff (A : g.Accepted) {c : NodeId} : g.isControl c = true ↔ g.Reach c := by
  constructor
  · intro hc
    obtain ⟨n, hn, hk⟩ := exists_of_isControl hc
    exact A.reached c n hn hk
  · intro hr
    obtain ⟨n, hn, hk⟩ := A.shaped.exists_control hr
    rw [isControl_of_get? hn, hk]

/-- Control edits are cleaned up completely. In an accepted graph, whatever branch is folded and wherever control is
turned to a trap, unless the trap cuts off a branch on a constant, the edit and the cleanup behind it succeed and
leave an accepted graph, whose control nodes are exactly those that control reaches after the edit. -/
theorem edits_cleaned_up (A : g.Accepted) :
    (∀ split n truth, g.get? split = some n → n.kind = .branch →
      ∃ folded h changes k, g.foldBranch split truth = .ok (folded, h) ∧
        h.cleanUp [split, folded.dead] = .ok changes k ∧ k.Accepted ∧ ∀ c, k.isControl c = true ↔ h.Reach c) ∧
    ∀ u n q reason, g.get? u = some n → n.kind.isAnchor = true →
      (∀ t ∈ n.successors, Sweep.constantBranch? g t = none) →
      ∃ s h changes k, g.strengthenGuard u q reason = .ok (s, h) ∧
        h.cleanUp (s.removed ++ s.detached.toList) = .ok changes k ∧ k.Accepted ∧
        ∀ c, k.isControl c = true ↔ h.Reach c := by
  have I := A.inOrder
  refine ⟨fun split n truth hn hk => ?_, fun u n q reason hn hk hconst => ?_⟩
  · obtain ⟨folded, h, changes, k, hfold, hclean, I', hreach⟩ := cleanUp_restores_folded I hn hk truth
    have A' := accepted_iff_inOrder.mpr I'
    exact ⟨folded, h, changes, k, hfold, hclean, A', fun c => A'.isControl_iff.trans (hreach c)⟩
  · obtain ⟨s, h, changes, k, hs, hclean, I', hreach⟩ := cleanUp_restores_strengthened I hn hk hconst q reason
    have A' := accepted_iff_inOrder.mpr I'
    exact ⟨s, h, changes, k, hs, hclean, A', fun c => A'.isControl_iff.trans (hreach c)⟩

/-- The branch of a diamond is folded, or the guard in one of its arms becomes a trap. -/
theorem edits_cleaned_up_diamond :
    let g : Graph :=
      ⟨#[{ kind := .start, successors := [4] }, { kind := .parameter 0, stamp := .int .full },
        { kind := .constant (.int 10), stamp := .int (.constant 10) },
        { kind := .compare .lt, inputs := [1, 2], stamp := .logic },
        { kind := .branch, inputs := [3], predecessors := [0], successors := [5, 6] },
        { kind := .begin, predecessors := [4], successors := [8] },
        { kind := .begin, predecessors := [4], successors := [8] },
        { kind := .guard false .boundsCheck, inputs := [3], anchor := some 6 },
        { kind := .merge, predecessors := [5, 6], successors := [10] },
        { kind := .phi, inputs := [1, 2], anchor := some 8, stamp := .int .full },
        { kind := .ret, inputs := [9], predecessors := [8] }], .root⟩
    g.Accepted ∧
      (∃ folded h changes k, g.foldBranch 4 true = .ok (folded, h) ∧ h.cleanUp [4, folded.dead] = .ok changes k ∧
        k.Accepted ∧ ∀ c, k.isControl c = true ↔ h.Reach c) ∧
      ∃ s h changes k, g.strengthenGuard 6 7 .boundsCheck = .ok (s, h) ∧
        h.cleanUp (s.removed ++ s.detached.toList) = .ok changes k ∧ k.Accepted ∧
        ∀ c, k.isControl c = true ↔ h.Reach c := by
  intro g
  have A : g.Accepted := accepted_of_numbered (by decide +kernel) (by decide +kernel) rfl (by decide +kernel)
  exact ⟨A, (edits_cleaned_up A).1 4 _ true rfl rfl,
    (edits_cleaned_up A).2 6 _ 7 .boundsCheck rfl rfl (by decide +kernel)⟩

end Graph

end GuardElision
