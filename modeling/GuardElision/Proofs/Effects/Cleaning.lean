import GuardElision.Proofs.Cleanup.Reached
import GuardElision.Proofs.Effects.MayBecome

namespace GuardElision

namespace Sweep

variable {E : Extent} {g : Graph} {s s' : Sweep} {u : NodeId} {stack next : List NodeId}

/-- The graph of the sweep is what became of `g`. -/
def StemsFrom (E : Extent) (g : Graph) (s : Sweep) : Prop :=
  g.MayBecome E s.graph

/-- A node goes with its guards and its phis. -/
theorem removeControl_stemsFrom (hu : E.passes u) (successors : List NodeId) :
    (removeControl u successors).Keeps (StemsFrom E g) := by
  refine .bind (.forM fun next _ => .bind (fun s _ s' A h => ?_) fun _ => .modify fun _ A => A) fun _ => ?_
  · obtain ⟨k, hk, rfl⟩ := onGraph_ok.mp h
    exact A.trans (.detachEdge hk)
  · refine .modify fun s A => ?_
    rw [StemsFrom, (foldl_drop _ s).1]
    refine A.trans (.foldl_delete fun id hid n hn => ?_)
    rw [List.mem_append, List.mem_append, Graph.mem_guardsAt, Graph.mem_phisOf, List.mem_singleton] at hid
    rcases hid with (⟨m, hm, hk, _⟩ | ⟨m, hm, hk, _⟩) | rfl
    · cases hn.symm.trans hm
      exact Or.inr (Node.not_isBare_of_isGuard hk)
    · cases hn.symm.trans hm
      exact Or.inr (Node.not_isBare (by simp [hk]))
    · exact Or.inl hu

section Within

variable (W : g.Within E)

include W

theorem pruneNode_stemsFrom (A : s.StemsFrom E g) (hu : E.passes u) (h : pruneNode u s = .ok next s') :
    s'.StemsFrom E g ∧ ∀ c ∈ next, E.passes c := by
  rcases pruneNode_cases h with ⟨hgraph, _, rfl, _⟩ | ⟨n, s₁, hn, _, _, hgraph, _, hremove, rfl⟩
  · rw [StemsFrom, hgraph]
    exact ⟨A, by simp⟩
  · have A₁ : s₁.StemsFrom E g := by
      rw [StemsFrom, hgraph]
      exact A
    exact ⟨removeControl_stemsFrom hu n.successors s₁ _ _ A₁ hremove, (Graph.MayBecome.within A W).successors u n hn hu⟩

theorem prune_stemsFrom {bound : Nat} {a : Unit} (A : s.StemsFrom E g) (hstack : ∀ c ∈ stack, E.passes c)
    (h : prune bound stack s = .ok a s') : s'.StemsFrom E g := by
  induction bound generalizing stack s with
  | zero =>
    cases stack with
    | nil => exact (Attempt.pure_ok.mp h).2 ▸ A
    | cons => exact (Attempt.pure_ok.mp h).2 ▸ A
  | succ bound ih =>
    cases stack with
    | nil => exact (Attempt.pure_ok.mp h).2 ▸ A
    | cons u stack =>
      obtain ⟨hu, hstack⟩ := List.forall_mem_cons.mp hstack
      obtain ⟨next, s₁, hnode, h⟩ := Attempt.bind_ok.mp h
      obtain ⟨A₁, hnext⟩ := pruneNode_stemsFrom W A hu hnode
      refine ih A₁ (fun c hc => ?_) h
      rcases List.mem_append.mp hc with hc | hc
      · exact hnext c (List.mem_reverse.mp hc)
      · exact hstack c hc

theorem seed_stemsFrom {id : NodeId} (A : s.StemsFrom E g) (h : seed id s = .ok next s') :
    s'.StemsFrom E g ∧ ∀ c ∈ next, E.passes c := by
  have W' := Graph.MayBecome.within A W
  rcases seed_cases h with ⟨hk, _, rfl, rfl⟩ | ⟨_, rfl, hgraph⟩ | ⟨truth, folded, _, hfold, rfl⟩
  · refine ⟨A, List.forall_mem_singleton.mpr ?_⟩
    cases hn : s'.graph.get? id with
    | none => simp [Graph.isControl, Graph.kind?, hn] at hk
    | some n => exact W'.control id n hn (Graph.isControl_of_get? hn ▸ hk)
  · rw [StemsFrom, hgraph]
    exact ⟨A, by simp⟩
  · obtain ⟨n, _, hn, hk, hdead, _⟩ := Graph.foldBranch_steps hfold
    refine ⟨A.trans (.foldBranch hfold), List.forall_mem_singleton.mpr ?_⟩
    exact W'.successors id n hn (W'.control id n hn (by rw [hk]; rfl)) _ hdead

end Within

theorem dropOrphans_stemsFrom (bound : Nat) (stack : List NodeId) (A : s.StemsFrom E g) :
    (dropOrphans bound stack s).StemsFrom E g := by
  refine dropOrphans_induct (P := g.MayBecome E)
    (fun h id A horphan => A.trans (.delete fun n hn => Or.inr ?_)) bound stack s A
  obtain ⟨m, hm, _, d, hd, _⟩ := isOrphan_iff.mp horphan
  cases hn.symm.trans hm
  rintro ⟨_, hbare⟩
  simp [hbare] at hd

theorem simplifyMerge_stemsFrom (merge : NodeId) : (simplifyMerge merge).Keeps (StemsFrom E g) := by
  intro s a s' A h
  rcases simplifyMerge_cases h with rfl | ⟨n, source, s₁, memory, hn, hmerge, _, hphis, _, hgraph⟩
  · exact A
  · have A₁ : s.graph.MayBecome E s₁.graph := by
      refine Attempt.forM_ok (P := fun t => s.graph.MayBecome E t.graph) (fun phi hphi t t' _ B hresolve => ?_)
        (.refl E s.graph) hphis
      obtain ⟨_, value, _, _, _, hgraph⟩ := resolvePhi_cases hresolve
      obtain ⟨m, hm, hk, _⟩ := Graph.mem_phisOf.mp hphi
      rw [hgraph]
      refine B.trans (.resolve (fun l hl => ?_) value)
      obtain ⟨m', hm', hml⟩ := B.live hl (Graph.lt_capacity hm)
      cases hm.symm.trans hm'
      have hbecome := hk ▸ hml.kind
      generalize l.kind = kind at hbecome
      cases hbecome
      rfl
    rw [StemsFrom, hgraph]
    exact A.trans (A₁.flatten hn hmerge memory)

theorem run_stemsFrom {changed : List NodeId} {a : Unit} (W : g.Within E) (A : s.StemsFrom E g)
    (h : run changed s = .ok a s') :
    s'.StemsFrom E g := by
  obtain ⟨control, s₁, s₂, hseeds, hprune, ids, hmerges⟩ := run_cases h
  obtain ⟨A₁, hcontrol⟩ : s₁.StemsFrom E g ∧ ∀ c ∈ control, E.passes c := by
    refine Attempt.flatMapM_ok (P := fun _ control s => s.StemsFrom E g ∧ ∀ c ∈ control, E.passes c)
      (fun id rest control next s s' A hseed => ?_) ⟨A, by simp⟩ hseeds
    obtain ⟨A', hnext⟩ := seed_stemsFrom W A.1 hseed
    exact ⟨A', fun c hc => (List.mem_append.mp hc).elim (A.2 c) (hnext c)⟩
  have A₂ := prune_stemsFrom W A₁ (fun c hc => hcontrol c (List.mem_reverse.mp hc)) hprune
  exact (Attempt.Keeps.forM fun merge _ => simplifyMerge_stemsFrom merge) _ _ s' (dropOrphans_stemsFrom _ _ A₂) hmerges

end Sweep

theorem Graph.cleanUp_mayBecome {E : Extent} {g h : Graph} {changed : List NodeId} {changes : Changes} (W : g.Within E)
    (hc : cleanUp changed g = .ok changes h) : g.MayBecome E h := by
  obtain ⟨s, hrun, _, rfl⟩ := cleanUp_ok hc
  exact Sweep.run_stemsFrom (s := { graph := g }) W (.refl E g) hrun

end GuardElision
