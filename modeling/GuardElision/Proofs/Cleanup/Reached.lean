import GuardElision.Cleanup.Local
import GuardElision.Proofs.Graph.Cuts

namespace GuardElision

namespace Graph

variable {g h k : Graph}

/-- Edges are recorded at both ends, and what `g` reaches is reached as before. -/
structure Kept (g h : Graph) : Prop where
  linked : h.Linked
  flow : SameFlow g h

theorem Kept.aside (K : Kept g h) (A : Aside h k) : Kept g k :=
  ⟨K.linked.lighter A.toLighter, K.flow.trans (A.sameFlow K.linked)⟩

end Graph

namespace Sweep

variable {g : Graph} {s s' : Sweep} {u : NodeId}

theorem onGraph_ok {f : Graph → Except Fault Graph} {a : Unit} {s s' : Sweep} :
    onGraph f s = .ok a s' ↔ ∃ g, f s.graph = .ok g ∧ s' = { s with graph := g } := by
  unfold onGraph
  rw [Attempt.step_ok, except_bind_ok]
  constructor
  · rintro ⟨g, hf, h⟩
    exact ⟨g, hf, (Except.ok.inj h).symm⟩
  · rintro ⟨g, hf, rfl⟩
    exact ⟨g, hf, rfl⟩

theorem foldl_drop (ids : List NodeId) (s : Sweep) :
    (ids.foldl drop s).graph = ids.foldl Graph.delete s.graph ∧ (ids.foldl drop s).floating = s.floating ++ ids ∧
      (ids.foldl drop s).merges = s.merges := by
  induction ids generalizing s with
  | nil => simp
  | cons id ids ih =>
    obtain ⟨hgraph, hfloating, hmerges⟩ := ih (s.drop id)
    exact ⟨hgraph, hfloating.trans (by simp [drop]), hmerges⟩

theorem noteMerge_ok {kind : Kind} {a : Unit} (h : noteMerge u kind s = .ok a s') :
    s'.graph = s.graph ∧ s'.floating = s.floating := by
  obtain rfl := Attempt.modify_ok.mp h
  split <;> exact ⟨rfl, rfl⟩

/-- The sweep has left alone what `g` reaches. -/
def Keeps (g : Graph) (s : Sweep) : Prop :=
  g.Kept s.graph

/-- Detaching a node that is not reached. -/
theorem detachEdge_keeps (hu : ¬g.Reach u) (next : NodeId) : (onGraph (·.detachEdge u next)).Keeps (Keeps g) := by
  intro s a s' K h
  obtain ⟨k, hk, rfl⟩ := onGraph_ok.mp h
  obtain ⟨n, _, _, hcap, ⟨_, hview⟩ | ⟨_, rfl⟩⟩ := Graph.detachEdge_ok hk
  · have hno : ¬s.graph.Reach u := fun hr => hu (K.flow.reach_iff.mp hr)
    exact ⟨K.linked.withoutEdge hcap hview, K.flow.trans (.withoutEdge hcap hview hno)⟩
  · exact K

theorem removeControl_keeps (hu : ¬g.Reach u) (successors : List NodeId) :
    (removeControl u successors).Keeps (Keeps g) := by
  refine .bind (.forM fun next _ => .bind (detachEdge_keeps hu next) fun _ => .modify fun s K => K) fun _ => ?_
  refine .modify fun s K => ?_
  have hgraph := (foldl_drop (s.graph.guardsAt u ++ s.graph.phisOf u ++ [u]) s).1
  have L := Graph.Lighter.foldl_delete (s.graph.guardsAt u ++ s.graph.phisOf u ++ [u]) s.graph
  rw [← hgraph] at L
  refine ⟨K.linked.lighter L, K.flow.trans (L.sameFlow K.linked fun c n hn hk hr => ⟨n, ?_⟩)⟩
  rw [hgraph, Graph.get?_foldl_delete, if_neg, hn]
  rw [List.mem_append, List.mem_append, Graph.mem_guardsAt, Graph.mem_phisOf, List.mem_singleton]
  rintro ((⟨m, hm, hg, _⟩ | ⟨m, hm, hphi, _⟩) | rfl)
  · cases hn.symm.trans hm
    rw [Kind.isControl_of_isGuard hg] at hk
    cases hk
  · cases hn.symm.trans hm
    simp [hphi, Kind.isControl] at hk
  · exact hu (K.flow.reach_iff.mp hr)

theorem not_reach_of_liveForwardPredecessors {n : Node} (H : g.Linked) (hn : g.get? u = some n) (hk : n.kind ≠ .start)
    (hempty : g.liveForwardPredecessors u = []) : ¬g.Reach u := by
  refine H.not_reach hn hk fun p hs hp => ?_
  obtain ⟨m, hm, _, hl, _⟩ := hs
  have hmem : p ∈ g.liveForwardPredecessors u := by
    simp only [Graph.liveForwardPredecessors, Graph.forwardPredecessors, hn, List.mem_filter]
    have hkind : g.kind? p ≠ some .loopEnd := by
      rw [Ne, Graph.kind?_eq_some_iff]
      rintro ⟨m', hm', he⟩
      cases hm.symm.trans hm'
      exact hl he
    exact ⟨⟨hp, by simp [hkind]⟩, Graph.isLive_iff.mpr ⟨m, hm⟩⟩
  simp [hempty] at hmem

/-- A node is left alone, or nothing leads to it and it goes. -/
theorem pruneNode_cases {next : List NodeId} (h : pruneNode u s = .ok next s') :
    (s'.graph = s.graph ∧ s'.floating = s.floating ∧ next = [] ∧
      ∀ n, s.graph.get? u = some n → n.kind ≠ .start → s.graph.liveForwardPredecessors u ≠ []) ∨
    ∃ n s₁, s.graph.get? u = some n ∧ n.kind ≠ .start ∧ s.graph.liveForwardPredecessors u = [] ∧
      s₁.graph = s.graph ∧ s₁.floating = s.floating ∧ removeControl u n.successors s₁ = .ok () s' ∧
      next = n.successors := by
  have h := Attempt.get_bind_ok.mp h
  cases hn : s.graph.get? u with
  | none =>
    simp only [hn] at h
    obtain ⟨rfl, rfl⟩ := Attempt.pure_ok.mp h
    exact Or.inl ⟨rfl, rfl, rfl, by simp⟩
  | some n =>
    simp only [hn] at h
    split at h
    next hstart =>
      obtain ⟨rfl, rfl⟩ := Attempt.pure_ok.mp h
      refine Or.inl ⟨rfl, rfl, rfl, fun m hm hno => ?_⟩
      cases hm
      exact absurd hstart hno
    next hstart =>
      obtain ⟨_, s₁, hnote, h⟩ := Attempt.bind_ok.mp h
      obtain ⟨hgraph, hfloating⟩ := noteMerge_ok hnote
      split at h
      next hempty =>
        obtain ⟨_, s₂, hremove, h⟩ := Attempt.bind_ok.mp h
        obtain ⟨rfl, rfl⟩ := Attempt.pure_ok.mp h
        exact Or.inr ⟨n, s₁, rfl, hstart, List.isEmpty_iff.mp hempty, hgraph, hfloating, hremove, rfl⟩
      next hsome =>
        obtain ⟨rfl, rfl⟩ := Attempt.pure_ok.mp h
        exact Or.inl ⟨hgraph, hfloating, rfl, fun _ _ _ hempty => hsome (List.isEmpty_iff.mpr hempty)⟩

theorem pruneNode_keeps (id : NodeId) : (pruneNode id).Keeps (Keeps g) := by
  intro s next s' K h
  rcases pruneNode_cases h with ⟨hgraph, -⟩ | ⟨n, s₁, hn, hstart, hempty, hgraph, -, hremove, -⟩
  · unfold Keeps
    rw [hgraph]
    exact K
  · have K₁ : Keeps g s₁ := by
      unfold Keeps
      rw [hgraph]
      exact K
    have hno := not_reach_of_liveForwardPredecessors K.linked hn hstart hempty
    exact removeControl_keeps (fun hr => hno (K.flow.reach hr)) n.successors s₁ _ _ K₁ hremove

theorem prune_keeps (bound : Nat) (stack : List NodeId) : (prune bound stack).Keeps (Keeps g) := by
  induction bound generalizing stack with
  | zero => cases stack <;> exact .pure _
  | succ bound ih =>
    cases stack with
    | nil => exact .pure _
    | cons id rest => exact .bind (pruneNode_keeps id) fun next => ih _

theorem foldl_dropOrphan_induct {P : Graph → Prop} (hdelete : ∀ g id, P g → isOrphan g id = true → P (g.delete id))
    (ids : List NodeId) (work : Sweep × List NodeId) (hwork : P work.1.graph) :
    P (ids.foldl dropOrphan work).1.graph := by
  induction ids generalizing work with
  | nil => exact hwork
  | cons id ids ih =>
    refine ih _ ?_
    unfold dropOrphan
    split
    next horphan => exact hdelete _ id hwork horphan
    next => exact hwork

theorem dropOrphans_induct {P : Graph → Prop} (hdelete : ∀ g id, P g → isOrphan g id = true → P (g.delete id))
    (bound : Nat) (stack : List NodeId) (s : Sweep) (hs : P s.graph) : P (dropOrphans bound stack s).graph := by
  induction bound generalizing stack s with
  | zero => cases stack <;> exact hs
  | succ bound ih =>
    cases stack with
    | nil => exact hs
    | cons id rest => exact ih _ _ (foldl_dropOrphan_induct hdelete _ (s, rest) hs)

theorem isOrphan_iff {id : NodeId} : isOrphan g id = true ↔
    ∃ n, g.get? id = some n ∧ n.kind.isControl = false ∧ ∃ d ∈ n.dependencies, g.get? d = none := by
  cases hn : g.get? id with
  | none => simp [isOrphan, hn]
  | some n => simp [isOrphan, hn, Graph.isLive]

theorem dropOrphans_aside (bound : Nat) (stack : List NodeId) (s : Sweep) :
    Graph.Aside s.graph (dropOrphans bound stack s).graph := by
  refine dropOrphans_induct (P := Graph.Aside s.graph) (fun g id A horphan => A.trans (.delete fun n hn => ?_))
    bound stack s (.refl _)
  obtain ⟨m, hm, hfloating, -⟩ := isOrphan_iff.mp horphan
  cases hn.symm.trans hm
  exact hfloating

/-- The given nodes are not part of control flow. -/
def Floating (ids : List NodeId) (g : Graph) : Prop :=
  ∀ id ∈ ids, ∀ n, g.get? id = some n → n.kind.isControl = false

theorem Floating.lighter {ids : List NodeId} {h : Graph} (F : Floating ids g) (L : Graph.Lighter g h) :
    Floating ids h := by
  intro id hid n hn
  obtain ⟨m, hm, hsort, _⟩ := L.node id n hn
  exact hsort.control.trans (F id hid m hm)

/-- A phi gives way to its first input. -/
theorem resolvePhi_cases {merge phi : NodeId} {a : Unit} (h : resolvePhi merge phi s = .ok a s') :
    ∃ n value, s.graph.get? phi = some n ∧ n.inputs.head? = some value ∧ value ≠ phi ∧
      s'.graph = (s.graph.replaceInput phi value).delete phi := by
  obtain ⟨n, hn, h⟩ := Attempt.ask_bind_ok.mp h
  cases hvalue : n.inputs.head?.filter (· ≠ phi) with
  | some value =>
    rw [hvalue] at h
    obtain ⟨hhead, hne⟩ := Option.filter_eq_some_iff.mp hvalue
    obtain rfl := Attempt.modify_ok.mp h
    exact ⟨n, value, Graph.node_eq_ok_iff.mp hn, hhead, of_decide_eq_true hne, rfl⟩
  | none =>
    rw [hvalue] at h
    exact (Attempt.throw_ok.mp h).elim

theorem resolvePhi_ok {phis : List NodeId} {base : Graph} {merge phi : NodeId} (hphi : phi ∈ phis) :
    (resolvePhi merge phi).Keeps fun s => Graph.Aside base s.graph ∧ Floating phis s.graph := by
  intro s a s' ⟨A, F⟩ h
  obtain ⟨n, value, -, -, -, hgraph⟩ := resolvePhi_cases h
  rw [hgraph]
  have A₁ := Graph.Aside.replaceInput s.graph phi value
  have A₂ := Graph.Aside.delete ((F.lighter A₁.toLighter) phi hphi)
  exact ⟨A.trans (A₁.trans A₂), (F.lighter A₁.toLighter).lighter A₂.toLighter⟩

theorem aside_begin {merge : NodeId} (hsort : ∀ n, g.get? merge = some n → Graph.SameSort n.kind .begin) :
    Graph.Aside g (g.modify merge ({ · with kind := .begin })) := by
  refine .of_map (Graph.capacity_modify ..)
    (Graph.get?_modify (f := fun n : Node => { n with kind := .begin }) (fun _ => rfl) g merge) fun j m hm => ?_
  split
  next hj => exact ⟨hsort m (hj ▸ hm), rfl, rfl, rfl⟩
  next => exact ⟨.refl _, rfl, rfl, rfl⟩

theorem sameSort_merge_begin {k : Kind} (hk : k.isMerge = true) : Graph.SameSort k .begin := by
  cases k <;> simp_all [Kind.isMerge]
  all_goals exact ⟨rfl, by simp, by simp, by simp, rfl⟩

theorem resolvePhis_ok {merge : NodeId} {a : PUnit}
    (h : (s.graph.phisOf merge).forM (resolvePhi merge) s = .ok a s') : Graph.Aside s.graph s'.graph := by
  have F : Floating (s.graph.phisOf merge) s.graph := by
    intro phi hphi n hn
    obtain ⟨m, hm, hk, _⟩ := Graph.mem_phisOf.mp hphi
    cases hn.symm.trans hm
    simp [hk, Kind.isControl]
  exact ((Attempt.Keeps.forM fun phi hphi => resolvePhi_ok hphi) s _ s' ⟨.refl _, F⟩ h).1

/-- A node is left alone, or it is a merge with one predecessor and becomes a plain step. -/
theorem simplifyMerge_cases {merge : NodeId} {a : Unit} (h : simplifyMerge merge s = .ok a s') :
    s' = s ∨ ∃ n source s₁ memory, s.graph.get? merge = some n ∧ n.kind.isMerge = true ∧ n.predecessors = [source] ∧
      (s.graph.phisOf merge).forM (resolvePhi merge) s = .ok () s₁ ∧ memoryState s₁.graph source = .ok memory ∧
      s'.graph = (s₁.graph.replaceMemory merge memory).modify merge ({ · with kind := .begin }) := by
  have h := Attempt.get_bind_ok.mp h
  cases hn : s.graph.get? merge with
  | none =>
    rw [hn] at h
    exact Or.inl (Attempt.pure_ok.mp h).2.symm
  | some n =>
    rw [hn] at h
    obtain ⟨kind, stamp, inputs, successors, predecessors, anchor, guard, memory, removed, synthetic⟩ := n
    rcases predecessors with _ | ⟨source, _ | ⟨_, _⟩⟩
    · exact Or.inl (Attempt.pure_ok.mp h).2.symm
    · dsimp only at h
      split at h
      next hmerge =>
        obtain ⟨_, s₁, hphis, h⟩ := Attempt.bind_ok.mp h
        obtain ⟨memory, hmemory, h⟩ := Attempt.ask_bind_ok.mp h
        obtain rfl := Attempt.modify_ok.mp h
        exact Or.inr ⟨_, source, s₁, memory, rfl, hmerge, rfl, hphis, hmemory, rfl⟩
      next => exact Or.inl (Attempt.pure_ok.mp h).2.symm
    · exact Or.inl (Attempt.pure_ok.mp h).2.symm

theorem simplifyMerge_keeps (merge : NodeId) : (simplifyMerge merge).Keeps (Keeps g) := by
  intro s a s' K h
  rcases simplifyMerge_cases h with rfl | ⟨n, source, s₁, memory, hn, hmerge, -, hphis, -, hgraph⟩
  · exact K
  · have A := (resolvePhis_ok hphis).trans (.replaceMemory s₁.graph merge memory)
    unfold Keeps
    rw [hgraph]
    refine K.aside (A.trans (aside_begin fun n' hn' => ?_))
    obtain ⟨m, hm, hsort, _⟩ := A.node merge n' hn'
    cases hn.symm.trans hm
    have hbegin := sameSort_merge_begin hmerge
    exact ⟨hbegin.control.trans hsort.control.symm, hbegin.loopEnd.trans hsort.loopEnd.symm, by simp,
      hbegin.start.trans hsort.start.symm, hbegin.guard.trans hsort.guard.symm⟩

theorem constantBranch?_eq_some {truth : Bool} (h : constantBranch? g u = some truth) :
    ∃ n, g.get? u = some n ∧ n.kind = .branch := by
  unfold constantBranch? at h
  split at h
  next hn => exact ⟨_, hn, rfl⟩
  next => cases h

/-- A changed node is to be looked at, or it is floating, or it is a branch on a constant and is folded. -/
theorem seed_cases {id : NodeId} {next : List NodeId} (h : seed id s = .ok next s') :
    (s.graph.isControl id = true ∧ constantBranch? s.graph id = none ∧ next = [id] ∧ s' = s) ∨
    (s.graph.isControl id = false ∧ next = [] ∧ s'.graph = s.graph) ∨
    ∃ truth folded, constantBranch? s.graph id = some truth ∧ s.graph.foldBranch id truth = .ok (folded, s'.graph) ∧
      next = [folded.dead] := by
  have h := Attempt.get_bind_ok.mp h
  split at h
  next hk =>
    cases hconst : constantBranch? s.graph id with
    | some truth =>
      rw [hconst] at h
      obtain ⟨folded, s₁, hfold, h⟩ := Attempt.bind_ok.mp h
      obtain ⟨rfl, rfl⟩ := Attempt.pure_ok.mp h
      obtain ⟨⟨folded', k⟩, hf, hs⟩ := except_bind_ok.mp (Attempt.stepWith_ok.mp hfold)
      obtain ⟨rfl, rfl⟩ := Prod.mk.inj (Except.ok.inj hs)
      exact Or.inr (Or.inr ⟨truth, folded', rfl, hf, rfl⟩)
    | none =>
      rw [hconst] at h
      obtain ⟨rfl, rfl⟩ := Attempt.pure_ok.mp h
      exact Or.inl ⟨hk, rfl, rfl, rfl⟩
  next hk =>
    have h := Attempt.modify_bind_ok.mp h
    obtain ⟨rfl, rfl⟩ := Attempt.pure_ok.mp h
    exact Or.inr (Or.inl ⟨by simpa using hk, rfl, rfl⟩)

theorem seed_keeps {changed : List NodeId} {id : NodeId} (hid : id ∈ changed) :
    (seed id).Keeps fun s => Keeps g s ∧ ∀ c ∈ changed, s.graph.Loose c := by
  intro s a s' ⟨K, hloose⟩ h
  rcases seed_cases h with ⟨_, _, _, rfl⟩ | ⟨_, _, hgraph⟩ | ⟨truth, folded, hconst, hf, _⟩
  · exact ⟨K, hloose⟩
  · rw [Keeps, hgraph]
    exact ⟨K, hloose⟩
  · obtain ⟨n, hn, hk⟩ := constantBranch?_eq_some hconst
    have hno := (hloose id hid).not_reach K.linked hn hk
    refine ⟨⟨Graph.foldBranch_linked K.linked hf, K.flow.trans (Graph.foldBranch_sameFlow K.linked hf hno)⟩,
      fun c hc => ?_⟩
    exact (Graph.foldBranch_loose K.linked hf).2.2 c (hloose c hc)

/-- A sweep takes the changed nodes in, prunes what nothing leads to, drops orphans and simplifies merges. -/
theorem run_cases {changed : List NodeId} {a : Unit} (h : run changed s = .ok a s') :
    ∃ control s₁ s₂, changed.flatMapM seed s = .ok control s₁ ∧
      prune (control.length + edgeCount s₁.graph) control.reverse s₁ = .ok () s₂ ∧
      ∃ ids : List NodeId, ids.forM simplifyMerge
        (dropOrphans (s₂.floating.length + s₂.graph.liveCount) s₂.floating.reverse s₂) = .ok () s' := by
  obtain ⟨control, s₁, hseeds, h⟩ := Attempt.bind_ok.mp h
  have h := Attempt.get_bind_ok.mp h
  obtain ⟨_, s₂, hprune, h⟩ := Attempt.bind_ok.mp h
  have h := Attempt.modify_bind_ok.mp h
  have h := Attempt.get_bind_ok.mp h
  exact ⟨control, s₁, s₂, hseeds, hprune, _, h⟩

theorem run_keeps {changed : List NodeId} {a : Unit} (K : Keeps g s) (hloose : ∀ c ∈ changed, s.graph.Loose c)
    (h : run changed s = .ok a s') : Keeps g s' := by
  obtain ⟨control, s₁, s₂, hseeds, hprune, ids, hmerges⟩ := run_cases h
  obtain ⟨K₁, _⟩ := (Attempt.Keeps.flatMapM fun id hid => seed_keeps hid) s _ s₁ ⟨K, hloose⟩ hseeds
  have K₂ : Keeps g s₂ := prune_keeps _ _ s₁ _ s₂ K₁ hprune
  have K₃ : Keeps g (dropOrphans (s₂.floating.length + s₂.graph.liveCount) s₂.floating.reverse s₂) :=
    K₂.aside (dropOrphans_aside _ _ s₂)
  exact (Attempt.Keeps.forM fun merge _ => simplifyMerge_keeps merge) _ _ s' K₃ hmerges

end Sweep

theorem Graph.cleanUp_ok {g h : Graph} {changed : List NodeId} {changes : Changes}
    (hc : cleanUp changed g = .ok changes h) :
    ∃ s, Sweep.run changed { graph := g } = .ok () s ∧ s.changes = changes ∧ s.graph = h := by
  unfold cleanUp at hc
  split at hc
  next s hrun =>
    obtain ⟨rfl, rfl⟩ := EStateM.Result.ok.inj hc
    exact ⟨s, hrun, rfl, rfl⟩
  next => cases hc

/-- Cleaning up after edits that left no branch half reached. -/
theorem Graph.cleanUp_kept {g h : Graph} {changed : List NodeId} {changes : Changes} (H : g.Linked)
    (hloose : ∀ c ∈ changed, g.Loose c) (hc : cleanUp changed g = .ok changes h) : g.Kept h := by
  obtain ⟨s, hrun, -, rfl⟩ := cleanUp_ok hc
  exact Sweep.run_keeps ⟨H, .refl g⟩ hloose hrun

end GuardElision
