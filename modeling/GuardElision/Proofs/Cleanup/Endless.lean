import GuardElision.Proofs.Cleanup.Descent
import GuardElision.Proofs.Execution.Condition
import GuardElision.Proofs.Graph.Straight

namespace GuardElision

/-- The outcome is not that of a walk without end. -/
def Ends {α : Type} (x : Except Fault α) : Prop :=
  ∀ node, x ≠ .error (.endless node)

namespace Ends

variable {σ α β : Type} {s : σ}

theorem ok (a : α) : Ends (.ok a : Except Fault α) :=
  fun _ => nofun

theorem internal (d : Defect) : Ends (.error (.internal d) : Except Fault α) :=
  fun _ => nofun

theorem of_error {e : Fault} (h : Ends (.error e : Except Fault α)) : Ends (.error e : Except Fault β) :=
  fun node he => h node (congrArg Except.error (Except.error.inj he))

theorem bind {x : Except Fault α} {k : α → Except Fault β} (hx : Ends x) (hk : ∀ a, Ends (k a)) : Ends (x >>= k) := by
  cases x with
  | ok a => exact hk a
  | error e => exact hx.of_error

theorem ensure (c : Bool) (d : Defect) : Ends (GuardElision.ensure c d) := by
  unfold GuardElision.ensure
  split
  · exact .ok ()
  · exact .internal d

theorem node (g : Graph) (id : NodeId) : Ends (g.node id) := by
  unfold Graph.node
  split
  · exact .ok _
  · exact fun _ => nofun

/-- One attempt after another. -/
theorem andThen {x : Attempt σ α} {k : α → Attempt σ β} (hx : Ends (x.result s))
    (hk : ∀ a s', x s = .ok a s' → Ends ((k a).result s')) : Ends ((x >>= k).result s) := by
  unfold Attempt.result at hx ⊢
  cases hxs : x s with
  | ok a s' =>
    rw [Attempt.bind_of_ok hxs]
    exact hk a s' hxs
  | error e s' =>
    rw [Attempt.bind_of_error hxs]
    rw [hxs] at hx
    exact hx.of_error

theorem ask {f : σ → Except Fault α} (hf : Ends (f s)) : Ends ((Attempt.ask f).result s) := by
  unfold Attempt.result Attempt.ask
  cases hfs : f s with
  | ok a => exact .ok a
  | error e =>
    rw [hfs] at hf
    exact hf

theorem step {f : σ → Except Fault σ} (hf : Ends (f s)) : Ends ((Attempt.step f).result s) := by
  unfold Attempt.result Attempt.step
  cases hfs : f s with
  | ok s' => exact .ok ()
  | error e =>
    rw [hfs] at hf
    exact hf.of_error

theorem stepWith {f : σ → Except Fault (α × σ)} (hf : Ends (f s)) : Ends ((Attempt.stepWith f).result s) := by
  unfold Attempt.result Attempt.stepWith
  cases hfs : f s with
  | ok r => exact .ok _
  | error e =>
    rw [hfs] at hf
    exact hf.of_error

end Ends

/-- From a state with `P` the attempt ends, and if it succeeds `Q` holds of the result and of the state. -/
def Attempt.Completes {σ α : Type} (P : σ → Prop) (Q : α → σ → Prop) (x : Attempt σ α) : Prop :=
  ∀ s, P s → Ends (x.result s) ∧ ∀ a s', x s = .ok a s' → Q a s'

namespace Attempt.Completes

variable {σ τ α β : Type} {P : σ → Prop}

theorem of_keeps {x : Attempt σ α} (hends : ∀ s, P s → Ends (x.result s)) (hkeeps : x.Keeps P) :
    x.Completes P fun _ => P :=
  fun s hs => ⟨hends s hs, fun a s' => hkeeps s a s' hs⟩

theorem get : (MonadState.get : Attempt σ σ).Completes P fun a s => a = s ∧ P s := by
  refine fun s hs => ⟨.ok s, fun a s' h => ?_⟩
  obtain ⟨rfl, rfl⟩ := get_ok.mp h
  exact ⟨rfl, hs⟩

theorem modify {u : σ → σ} {Q : σ → Prop} (hu : ∀ s, P s → Q (u s)) :
    (modify u : Attempt σ Unit).Completes P fun _ => Q :=
  fun s hs => ⟨.ok (), fun _ _ h => modify_ok.mp h ▸ hu s hs⟩

theorem bind {Q : α → σ → Prop} {R : β → σ → Prop} {x : Attempt σ α} {k : α → Attempt σ β} (hx : x.Completes P Q)
    (hk : ∀ a, (k a).Completes (Q a) R) : (x >>= k).Completes P R := by
  refine fun s hs => ⟨.andThen (hx s hs).1 fun a s' ha => (hk a s' ((hx s hs).2 a s' ha)).1, fun b s' h => ?_⟩
  obtain ⟨a, s₁, ha, h⟩ := bind_ok.mp h
  exact (hk a s₁ ((hx s hs).2 a s₁ ha)).2 b s' h

theorem forM {as : List α} {k : α → Attempt σ PUnit} (hk : ∀ a ∈ as, (k a).Completes P fun _ => P) :
    (as.forM k).Completes P fun _ => P := by
  induction as with
  | nil => exact .of_keeps (fun _ _ => .ok _) (.pure _)
  | cons a as ih =>
    obtain ⟨ha, has⟩ := List.forall_mem_cons.mp hk
    exact .bind ha fun _ => ih has

/-- What holds of the elements still to come, of the results so far and of the state. -/
theorem flatMapM {P : List α → List β → σ → Prop} {as : List α} {k : α → Attempt σ (List β)}
    (hk : ∀ a as bs, (k a).Completes (P (a :: as) bs) fun bs' => P as (bs ++ bs')) :
    (as.flatMapM k).Completes (P as []) (P []) := by
  refine fun s hs => ⟨?_, fun bs s' => flatMapM_ok (fun a as bs bs' s s' hs h => (hk a as bs s hs).2 bs' s' h) hs⟩
  suffices hloop : ∀ as acc s, P as acc.reverse.flatten s → Ends ((List.flatMapM.loop k as acc).result s) from
    hloop as [] s hs
  intro as
  induction as with
  | nil => exact fun _ _ _ => .ok _
  | cons a as ih =>
    refine fun acc s hs => .andThen (hk a as _ s hs).1 fun bs' s' ha => ih (bs' :: acc) s' ?_
    have hnext := (hk a as _ s hs).2 bs' s' ha
    simpa using hnext

theorem handOn {x : Attempt σ α} {y : Attempt τ β} {s : σ} {t : τ} {Q : α → σ → Prop} {R : β → τ → Prop}
    (hx : x.Completes P Q) (hs : P s) (hok : ∀ a s', x s = .ok a s' → Q a s' → ∃ b t', y t = .ok b t' ∧ R b t')
    (herror : ∀ e s', x s = .error e s' → ∃ t', y t = .error e t') :
    Ends (y.result t) ∧ ∀ b t', y t = .ok b t' → R b t' := by
  obtain ⟨hends, hholds⟩ := hx s hs
  unfold Attempt.result at *
  cases hxs : x s with
  | ok a s' =>
    obtain ⟨b, t', hy, hR⟩ := hok a s' hxs (hholds a s' hxs)
    rw [hy]
    refine ⟨.ok b, fun b' t'' he => ?_⟩
    obtain ⟨rfl, rfl⟩ := EStateM.Result.ok.inj he
    exact hR
  | error e s' =>
    obtain ⟨t', hy⟩ := herror e s' hxs
    rw [hxs] at hends
    rw [hy]
    exact ⟨hends.of_error, fun _ _ he => nomatch he⟩

end Attempt.Completes

namespace Graph

variable {g : Graph}

theorem removeEdge_ends (g : Graph) (source target : NodeId) : Ends (g.removeEdge source target) := by
  intro node h
  obtain ⟨g', h⟩ := Attempt.finalWith_error.mp h
  obtain ⟨-, id, he⟩ := unlink_error h
  cases he

theorem addEdge_ends (g : Graph) (source target : NodeId) : Ends (g.addEdge source target) := by
  intro node h
  obtain ⟨g', h⟩ := Attempt.final_error.mp h
  obtain ⟨-, id, he⟩ := link_error h
  cases he

theorem redirectEdge_ends (g : Graph) (source old new : NodeId) : Ends (g.redirectEdge source old new) := by
  intro node h
  obtain ⟨g', h⟩ := Attempt.final_error.mp h
  obtain ⟨-, ⟨id, he⟩ | he⟩ := relink_error h <;> cases he

theorem foldBranch_ends (g : Graph) (split : NodeId) (truth : Bool) : Ends (g.foldBranch split truth) := by
  refine .bind (.node _ _) fun n => .bind (.ensure _ _) fun _ => ?_
  split
  · exact .bind (removeEdge_ends _ _ _) fun _ => .ok _
  · exact .internal _

theorem strengthenGuard_ends (g : Graph) (anchor guard : NodeId) (reason : Reason) :
    Ends (g.strengthenGuard anchor guard reason) := by
  refine .bind (.node _ _) fun n => ?_
  dsimp only
  split
  · exact .bind (redirectEdge_ends _ _ _ _) fun _ => .ok _
  · exact .bind (addEdge_ends _ _ _) fun _ => .ok _

theorem condition_ends (g : Graph) (logic : NodeId) : Ends (g.condition logic) := by
  refine .bind (.node _ _) fun n => ?_
  dsimp only
  split
  · exact .ok _
  · exact .bind (by split; exacts [.ok _, .internal _]) fun _ => .ok _
  · exact .bind (by split; exacts [.ok _, .internal _]) fun _ => .ok _
  · exact .bind (by split; exacts [.ok _, .internal _]) fun _ =>
      .bind (by split; exacts [.ok _, .internal _]) fun _ => .ok _
  · exact .internal _

end Graph

theorem Round.stampTruth?_ends (g : Graph) (logic : NodeId) : Ends (stampTruth? g logic) := by
  refine .bind (g.condition_ends logic) fun c => ?_
  cases c <;> exact .ok _

namespace Graph

variable {g : Graph} {rank : NodeId → Nat}

theorem RankedBy.memoryState_ends {control : NodeId} (F : g.RankedBy rank)
    (hctl : ∀ n, g.get? control = some n → n.kind.isControl = true) : Ends (Sweep.memoryState g control) := by
  obtain ⟨k, r, hstop⟩ := F.memoryStep_stops control hctl
  rw [((Sweep.memoryState_stops g control).1 k r hstop).2]
  obtain ⟨_, hlast⟩ := hstop.exists_last
  exact Sweep.not_endless_of_memoryStep hlast

end Graph

namespace Sweep

variable {rank : NodeId → Nat} {s s' : Sweep} {u : NodeId} {stack : List NodeId}

/-- While a node gives up its edges, the nodes that it leads to wait. -/
def Parting (rank : NodeId → Nat) (u : NodeId) (waiting : List NodeId) (s : Sweep) : Prop :=
  s.graph.Descends rank waiting ∧ ∀ n, s.graph.get? u = some n → ∀ t ∈ n.successors, t ∈ waiting

theorem detachEdge_parting {waiting : List NodeId} {next : NodeId} (hnext : next ∈ waiting) :
    (onGraph (·.detachEdge u next)).Keeps (Parting rank u waiting) := by
  intro s a s' ⟨D, hled⟩ h
  obtain ⟨k, hk, rfl⟩ := onGraph_ok.mp h
  obtain ⟨_, _, _, hcap, ⟨_, hview⟩ | ⟨_, rfl⟩⟩ := Graph.detachEdge_ok hk
  · refine ⟨D.withoutEdge hnext hcap hview, fun n hn t ht => ?_⟩
    obtain ⟨m, hm, rfl⟩ := Graph.exists_of_withoutEdge hview hn
    simp only [Graph.withoutEdge, ↓reduceIte] at ht
    exact hled m hm t (List.mem_of_mem_erase ht)
  · exact ⟨D, hled⟩

theorem removeControl_descends {n : Node} {a : Unit} (D : s.graph.Descends rank (u :: stack)) (hn : s.graph.get? u = some n)
    (h : removeControl u n.successors s = .ok a s') : s'.graph.Descends rank (n.successors.reverse ++ stack) := by
  obtain ⟨_, s₁, hdetach, h⟩ := Attempt.bind_ok.mp h
  obtain rfl := Attempt.modify_ok.mp h
  rw [(foldl_drop _ s₁).1]
  set waiting := n.successors.reverse ++ u :: stack with hwaiting
  have hnext : ∀ t ∈ n.successors, t ∈ waiting := fun t ht => List.mem_append_left _ (List.mem_reverse.mpr ht)
  have hstart : s.Parting rank u waiting := by
    refine ⟨D.mono fun c hc _ _ _ => List.mem_append_right _ hc, fun m hm => ?_⟩
    cases hn.symm.trans hm
    exact hnext
  obtain ⟨D₁, hled⟩ : s₁.Parting rank u waiting := by
    refine Attempt.forM_ok (fun next hmem s s' _ hs h => ?_) hstart hdetach
    obtain ⟨_, s₂, hedge, h⟩ := Attempt.bind_ok.mp h
    obtain rfl := Attempt.modify_ok.mp h
    exact detachEdge_parting (hnext next hmem) s _ s₂ hs hedge
  refine (D₁.remove hled).mono fun c hc m hm _ => ?_
  have hcu : c ≠ u := by
    rintro rfl
    rw [Graph.get?_foldl_delete, if_pos (by simp)] at hm
    cases hm
  simpa [hwaiting, hcu] using hc

theorem pruneNode_descends {next : List NodeId} (D : s.graph.Descends rank (u :: stack)) (h : pruneNode u s = .ok next s') :
    s'.graph.Descends rank (next.reverse ++ stack) := by
  rcases pruneNode_cases h with ⟨hgraph, _, rfl, hstays⟩ | ⟨n, s₁, hn, _, _, hgraph, _, hremove, rfl⟩
  · rw [hgraph]
    refine ⟨D.ranked, fun c n hn hk => ?_⟩
    refine (D.entered c n hn hk).elim Or.inl fun hc => ?_
    rcases List.mem_cons.mp hc with rfl | hc
    · obtain ⟨p, hp⟩ := List.exists_mem_of_ne_nil _ (hstays n hn fun he => by simp [he, Kind.isMerge] at hk)
      obtain ⟨hp, hlive⟩ := List.mem_filter.mp hp
      obtain ⟨m, hm⟩ := Graph.isLive_iff.mp hlive
      obtain ⟨hp, hend⟩ := D.ranked.of_mem_forwardPredecessors hn (Kind.isControl_of_isMerge hk) hp
      exact Or.inl ⟨p, m, hp, hm, hend m hm⟩
    · exact Or.inr hc
  · exact removeControl_descends (hgraph ▸ D) (hgraph ▸ hn) hremove

theorem pruneNode_ends (u : NodeId) (s : Sweep) : Ends ((pruneNode u).result s) := by
  obtain ⟨next, s', h⟩ := pruneNode_succeeds u s
  rw [Attempt.result, h]
  exact .ok next

/-- The stack runs empty, and then no merge waits. -/
theorem prune_completes (bound : Nat) (stack : List NodeId) : (prune bound stack).Completes
    (fun s => s.graph.Descends rank stack ∧ stack.length + edgeCount s.graph ≤ bound)
    fun _ s => s.graph.Descends rank [] := by
  induction bound generalizing stack with
  | zero =>
    refine fun s ⟨D, hbound⟩ => ?_
    obtain rfl : stack = [] := List.length_eq_zero_iff.mp (by omega)
    exact ⟨.ok _, fun _ _ h => (Attempt.pure_ok.mp h).2 ▸ D⟩
  | succ bound ih =>
    cases stack with
    | nil => exact fun s ⟨D, _⟩ => ⟨.ok _, fun _ _ h => (Attempt.pure_ok.mp h).2 ▸ D⟩
    | cons u stack =>
      refine .bind (fun s ⟨D, hbound⟩ => ⟨pruneNode_ends u s, fun next s' h => ?_⟩) fun next => ih (next.reverse ++ stack)
      have hless := pruneNode_less h stack
      exact ⟨pruneNode_descends D h, by omega⟩

theorem seed_descends {id : NodeId} {rest control next : List NodeId} (D : s.graph.Descends rank (control ++ id :: rest))
    (h : seed id s = .ok next s') : s'.graph.Descends rank (control ++ next ++ rest) := by
  rcases seed_cases h with ⟨_, _, rfl, rfl⟩ | ⟨hk, rfl, hgraph⟩ | ⟨truth, folded, hconst, hfold, rfl⟩
  · simpa using D
  · rw [hgraph]
    refine D.mono fun c hc n hn hmerge => ?_
    have hne : c ≠ id := by
      rintro rfl
      rw [Graph.isControl_of_get? hn, Kind.isControl_of_isMerge hmerge] at hk
      cases hk
    simpa [hne] using hc
  · refine (D.mono fun c hc n hn hmerge => ?_).fold (by simp) hfold
    have hne : c ≠ id := by
      rintro rfl
      obtain ⟨m, hm, hbranch⟩ := constantBranch?_eq_some hconst
      cases hn.symm.trans hm
      simp [hbranch, Kind.isMerge] at hmerge
    simp only [List.mem_append, List.mem_cons, hne, false_or] at hc ⊢
    tauto

theorem resolvePhis_kind {merge x : NodeId} {a : PUnit} {n : Node}
    (h : (s.graph.phisOf merge).forM (resolvePhi merge) s = .ok a s') (hn : s'.graph.get? x = some n) :
    s.graph.kind? x = some n.kind := by
  suffices hkeep : ∀ x n, s'.graph.get? x = some n → s.graph.kind? x = some n.kind from hkeep x n hn
  refine Attempt.forM_ok (P := fun s' : Sweep => ∀ x n, s'.graph.get? x = some n → s.graph.kind? x = some n.kind)
    (fun phi _ s₁ s₂ _ hs h => ?_) (fun x n hn => Graph.kind?_eq_some_iff.mpr ⟨n, hn, rfl⟩) h
  obtain ⟨_, value, _, _, _, hgraph⟩ := resolvePhi_cases h
  intro x n hn
  rw [hgraph] at hn
  have hn' := Graph.get?_of_delete hn
  rw [Graph.get?_replaceInput] at hn'
  obtain ⟨m, hm, rfl⟩ := Option.map_eq_some_iff.mp hn'
  exact hs x m hm

theorem resolvePhis_descends {merge source : NodeId} {n : Node} {a : PUnit} (D : s.graph.Descends rank [])
    (hn : s.graph.get? merge = some n) (hmerge : n.kind.isMerge = true) (hpred : n.predecessors = [source])
    (h : (s.graph.phisOf merge).forM (resolvePhi merge) s = .ok a s') :
    s'.graph.Descends rank [] ∧
      ∃ m, s'.graph.get? merge = some m ∧ m.kind.isMerge = true ∧ m.predecessors = [source] := by
  have A := resolvePhis_ok h
  have hkind : ∀ x l m, s'.graph.get? x = some l → s.graph.get? x = some m → l.kind = m.kind := by
    intro x l m hl hm
    obtain ⟨m', hm', he⟩ := Graph.kind?_eq_some_iff.mp (resolvePhis_kind h hl)
    cases hm.symm.trans hm'
    exact he.symm
  obtain ⟨m, hm⟩ := A.alive merge n hn (Kind.isControl_of_isMerge hmerge)
  obtain ⟨n', hn', _, _, _, hpred'⟩ := A.node merge m hm
  cases hn.symm.trans hn'
  exact ⟨D.aside A (.of_kind hkind), m, hm, hkind merge m n hm hn ▸ hmerge, hpred'.trans hpred⟩

theorem simplifyMerge_descends (merge : NodeId) : (simplifyMerge merge).Keeps fun s => s.graph.Descends rank [] := by
  intro s a s' D h
  rcases simplifyMerge_cases h with rfl | ⟨n, source, s₁, memory, hn, hmerge, hpred, hphis, _, hgraph⟩
  · exact D
  · obtain ⟨D₁, m, hm, hmerge₁, hpred₁⟩ := resolvePhis_descends D hn hmerge hpred hphis
    have hview := Graph.get?_replaceMemory s₁.graph merge memory
    have D₂ : (s₁.graph.replaceMemory merge memory).Descends rank [] := by
      refine D₁.aside (.replaceMemory ..) (.of_kind fun x l l' hl hl' => ?_)
      rw [hview, hl', Option.map_some] at hl
      obtain rfl := Option.some.inj hl
      rfl
    rw [hgraph]
    refine D₂.flatten (n := { m with memory := if m.memory = some merge then some memory else m.memory }) ?_ hmerge₁ hpred₁
    rw [hview, hm]
    rfl

theorem resolvePhi_ends (merge phi : NodeId) (s : Sweep) : Ends ((resolvePhi merge phi).result s) := by
  refine .andThen (.ask (.node _ _)) fun n s' _ => ?_
  split
  · exact .ok _
  · exact .internal _

/-- The last way to a merge is no loop end, so the walk up from there ends. -/
theorem simplifyMerge_ends (merge : NodeId) (D : s.graph.Descends rank []) : Ends ((simplifyMerge merge).result s) := by
  refine .andThen (.ok _) fun _ _ hget => ?_
  obtain ⟨rfl, rfl⟩ := Attempt.get_ok.mp hget
  dsimp only
  split
  next hn =>
    split
    next hmerge =>
      refine .andThen (Attempt.Completes.forM (P := fun _ => True)
        (fun phi _ => .of_keeps (fun s _ => resolvePhi_ends merge phi s) fun _ _ _ _ _ => trivial) s trivial).1 fun _ s₁ hphis => ?_
      obtain ⟨D₁, m, hm, hmerge₁, hpred⟩ := resolvePhis_descends D hn hmerge rfl hphis
      obtain ⟨l, hl, hctl, _⟩ := D₁.way_in hm hmerge₁ hpred
      refine .andThen (.ask (D₁.ranked.memoryState_ends fun l' hl' => ?_)) fun _ _ _ => .ok _
      cases hl.symm.trans hl'
      exact hctl
    next => exact .ok _
  next => exact .ok _

theorem seed_ends (id : NodeId) (s : Sweep) : Ends ((seed id).result s) := by
  refine .andThen (.ok _) fun _ _ hget => ?_
  obtain ⟨rfl, rfl⟩ := Attempt.get_ok.mp hget
  dsimp only
  split
  · split
    · exact .andThen (.stepWith (.bind (Graph.foldBranch_ends _ _ _) fun _ => .ok _)) fun _ _ _ => .ok _
    · exact .ok _
  · exact .ok _

theorem seeds_completes (changed : List NodeId) : (changed.flatMapM seed).Completes
    (fun s => s.graph.Descends rank changed) fun control s => s.graph.Descends rank control := by
  let P : List NodeId → List NodeId → Sweep → Prop := fun rest control s => s.graph.Descends rank (control ++ rest)
  have hseeds : (changed.flatMapM seed).Completes (P changed []) (P []) :=
    .flatMapM fun id rest control s D => ⟨seed_ends id s, fun next s' h => seed_descends D h⟩
  simpa only [P, List.nil_append, List.append_nil] using hseeds

/-- By the time a sweep turns to the merges, none of them waits. -/
theorem run_completes (changed : List NodeId) :
    (run changed).Completes (fun s => s.graph.Descends rank changed) fun _ s => s.graph.Descends rank [] := by
  refine .bind (seeds_completes changed) fun control => ?_
  refine .bind .get fun s₁ => .bind (Q := fun _ s => s.graph.Descends rank []) (fun s hs => ?_) fun _ => ?_
  · obtain ⟨rfl, D⟩ := hs
    refine prune_completes _ _ s₁ ⟨D.mono fun c hc _ _ _ => by simpa using hc, by simp⟩
  refine .bind (.modify (Q := fun s => s.graph.Descends rank []) fun s D => ?_) fun _ => ?_
  · refine dropOrphans_induct (P := fun g => g.Descends rank []) (fun g id D horphan => D.delete fun n hn => ?_) _ _ s D
    obtain ⟨m, hm, hk, _⟩ := isOrphan_iff.mp horphan
    cases hn.symm.trans hm
    exact hk
  · refine .bind .get fun _ s hs => ?_
    exact Attempt.Completes.forM (fun merge _ => .of_keeps (fun s D => simplifyMerge_ends merge D) (simplifyMerge_descends merge))
      s hs.2

end Sweep

/-- Cleaning up ends, and then no merge waits. -/
theorem Graph.cleanUp_completes {rank : NodeId → Nat} (changed : List NodeId) :
    (cleanUp changed).Completes (Descends rank changed) fun _ => Descends rank [] := by
  refine fun g D => (Sweep.run_completes changed).handOn (s := { graph := g }) D
    (fun _ s h D' => ⟨s.changes, s.graph, ?_, D'⟩) fun _ s h => ⟨s.graph, ?_⟩
  · simp only [cleanUp, h]
  · simp only [cleanUp, h]

namespace Round

variable {method : Option MethodId} {rank : NodeId → Nat} {r r' : Round}

/-- The graph of a round, where merges among the seeds wait. -/
def Descends (rank : NodeId → Nat) (r : Round) : Prop :=
  r.graph.Descends rank r.seeds

theorem sameSort_logic {k l : Kind} (hk : k.isLogic = true) (hl : l.isLogic = true) : Graph.SameSort k l where
  control := by rw [Kind.isControl_of_isLogic hk, Kind.isControl_of_isLogic hl]
  loopEnd := iff_of_false (by rintro rfl; cases hl) (by rintro rfl; cases hk)
  branch := by rintro rfl; cases hl
  start := iff_of_false (by rintro rfl; cases hl) (by rintro rfl; cases hk)
  guard := by rw [Kind.isGuard_of_isLogic hk, Kind.isGuard_of_isLogic hl]

theorem decide_descends {g : Graph} {seeds : List NodeId} {id : NodeId} {n : Node} (D : g.Descends rank seeds)
    (hn : g.get? id = some n) (hk : n.kind.isLogic = true) (value : Bool) :
    (g.setKind id (.logicConstant value) []).Descends rank seeds := by
  refine D.aside (.setKind fun m hm => ?_) (.setKind rfl fun m hm => ?_)
  · cases hn.symm.trans hm
    exact sameSort_logic hk rfl
  · cases hn.symm.trans hm
    refine Bool.eq_false_iff.mpr fun hmerge => ?_
    have hctl := Kind.isControl_of_isMerge hmerge
    rw [Kind.isControl_of_isLogic hk] at hctl
    cases hctl

theorem foldCondition_descends (id : NodeId) : (foldCondition method id).Keeps (Descends rank) := by
  intro r u r' D h
  rcases foldCondition_cases h with ⟨_, rfl⟩ | ⟨value, e, htruth, rfl, _⟩
  · exact D
  · obtain ⟨c, hc, _⟩ := except_bind_ok.mp htruth
    obtain ⟨m, hm, hk⟩ := Graph.condition_isLogic hc
    exact decide_descends D hm hk value

theorem Edit.descends (r r' : Round) (D : r.Descends rank) (h : Edit r r') : r'.Descends rank := by
  cases h with
  | decide hn hk => exact decide_descends D hn (isLogic_of_isUndecidedLogic hk) _
  | @drop id anchor x n negated reason e hn hk =>
    have hview := Graph.get?_replaceGuard r.graph id (some anchor)
    have D₁ : (r.graph.replaceGuard id (some anchor)).Descends rank r.seeds := by
      refine Graph.Descends.aside D (.replaceGuard ..) (.of_kind fun x l l' hl hl' => ?_)
      rw [hview, hl', Option.map_some] at hl
      obtain rfl := Option.some.inj hl
      rfl
    refine D₁.delete fun m hm => ?_
    rw [hview, hn, Option.map_some] at hm
    obtain rfl := Option.some.inj hm
    rw [hk]
    rfl
  | trap hn hk ha _ _ hs =>
    refine Graph.Descends.strengthen D hn (by rw [hk]; rfl) ha hs (fun c hc => ?_) fun c hc => ?_
    · exact List.mem_append_left _ (List.mem_append_left _ hc)
    · exact List.mem_append_left _ (List.mem_append_right _ (by simp [hc]))
  | fold _ _ _ hfold =>
    exact (Graph.Descends.mono D fun c hc _ _ _ => List.mem_append_left _ hc).fold (by simp) hfold

theorem foldCondition_ends (id : NodeId) (r : Round) : Ends ((foldCondition method id).result r) := by
  refine .andThen (.ask (stampTruth?_ends _ _)) fun truth? r' _ => ?_
  cases truth? <;> exact .ok _

theorem settleGuard_ends (id : NodeId) (r : Round) : Ends ((settleGuard method id).result r) := by
  refine .andThen (.ok _) fun _ _ hget => ?_
  obtain ⟨rfl, rfl⟩ := Attempt.get_ok.mp hget
  dsimp only
  split
  · split
    · refine .andThen (.ask (.node _ _)) fun c r' _ => ?_
      split
      · split
        · exact .ok _
        · exact .step (.bind (Graph.strengthenGuard_ends _ _ _ _) fun _ => .ok _)
      · exact .ok _
    · exact .internal _
  · exact .ok _

theorem settleBranch_ends (id : NodeId) (r : Round) : Ends ((settleBranch method id).result r) := by
  refine .andThen (.ask (.node _ _)) fun n r' _ => ?_
  split
  · exact .internal _
  · refine .andThen (.ask (.node _ _)) fun c r' _ => ?_
    split
    · exact .step (.bind (Graph.foldBranch_ends _ _ _) fun _ => .ok _)
    · exact .ok _

theorem cleanSeeds_completes : cleanSeeds.Completes (Descends rank) fun _ r => r.graph.Descends rank [] := by
  intro r D
  by_cases hnone : r.seeds.isEmpty = true
  · refine ⟨by rw [Attempt.result, cleanSeeds, if_pos hnone]; exact .ok _, fun _ _ h => ?_⟩
    rw [cleanSeeds, if_pos hnone] at h
    obtain ⟨_, rfl⟩ := EStateM.Result.ok.inj h
    exact List.isEmpty_iff.mp hnone ▸ D
  · refine (Graph.cleanUp_completes r.seeds).handOn D
      (fun c g h D' => ⟨(), { r.setGraph g with changes := r.changes.append c }, ?_, D'⟩) fun _ g h => ⟨r.setGraph g, ?_⟩
    · rw [cleanSeeds, if_neg hnone, h]
    · rw [cleanSeeds, if_neg hnone, h]

theorem run_completes (method : Option MethodId) : (run method).Completes (Descends rank) fun _ r => r.graph.Descends rank [] := by
  have hget : (get : Attempt Round Round).Completes (Descends rank) fun _ => Descends rank := .of_keeps (fun _ _ => .ok _) .get
  refine .bind hget fun _ => .bind (.forM fun id _ => ?_) fun _ => .bind hget fun _ => .bind (.forM fun id _ => ?_) fun _ =>
    .bind hget fun _ => .bind (.forM fun id _ => ?_) fun _ => .bind cleanSeeds_completes fun _ => .modify fun r D => ?_
  · exact .of_keeps (fun r _ => foldCondition_ends id r) (foldCondition_descends id)
  · exact .of_keeps (fun r _ => settleGuard_ends id r) (keeps_of_edit (fun _ _ _ => settleGuard_edit) Edit.descends)
  · exact .of_keeps (fun r _ => settleBranch_ends id r) (keeps_of_edit (fun _ _ _ => settleBranch_edit) Edit.descends)
  · refine sweepUnused_induct (P := fun r => r.graph.Descends rank [])
      (fun r id n _ D hn hpure _ _ => D.delete fun m hm => ?_) _ D
    cases hn.symm.trans hm
    exact Kind.isControl_of_isPure hpure

end Round

namespace Draft

variable {method : Option MethodId} {rank : NodeId → Nat}

theorem canonicalizeOnce_completes : (canonicalizeOnce method).Completes (fun d => d.graph.Descends rank []) fun _ d =>
    d.graph.Descends rank [] := by
  intro d D
  have hstart : Round.Descends rank { draft := d } := D
  refine (Round.run_completes method).handOn hstart (fun _ r h D' => ⟨r.changes, r.draft, ?_, D'⟩) fun _ r h => ⟨r.draft, ?_⟩
  · simp only [canonicalizeOnce, h]
  · simp only [canonicalizeOnce, h]

theorem canonicalize_completes : (canonicalize method).Completes (fun d => d.graph.Descends rank []) fun _ d =>
    d.graph.Descends rank [] := by
  have hrounds : ∀ bound total, (canonicalizeRounds method bound total).Completes (fun d => d.graph.Descends rank [])
      fun _ d => d.graph.Descends rank [] := by
    intro bound
    induction bound with
    | zero => exact fun _ => .of_keeps (fun _ _ => .ok _) (.pure _)
    | succ bound ih =>
      refine fun total => .bind canonicalizeOnce_completes fun changes => ?_
      split
      next => exact .of_keeps (fun _ _ => .ok _) (.pure _)
      next => exact ih _
  exact .bind (.of_keeps (fun _ _ => .ok _) .get) fun _ => hrounds _ _

end Draft

namespace Graph

variable {g : Graph} {c : NodeId}

/-- Where control never comes back to a node, the number of nodes above it is a rank. -/
theorem exists_rank_of_acyclic (hacyclic : ∀ c, ¬Relation.TransGen g.Step c c) :
    ∃ rank : NodeId → Nat, (∀ c s, g.Step c s → rank c < rank s) ∧
      ∀ c s, g.capacity ≤ s → c < s → rank c < rank s := by
  classical
  let above : NodeId → Finset NodeId := fun c => (Finset.range g.capacity).filter (Relation.TransGen g.Step · c)
  have hcard : ∀ c, (above c).card ≤ g.capacity := fun c =>
    Nat.le_trans (Finset.card_filter_le _ _) (Nat.le_of_eq (Finset.card_range _))
  refine ⟨fun c => if c < g.capacity then (above c).card else g.capacity + 1 + c, fun c s hs => ?_, fun c s hge hlt => ?_⟩
  · obtain ⟨n, hn, _⟩ := id hs
    have hc : c < g.capacity := lt_capacity hn
    dsimp only
    rw [if_pos hc, if_pos hs.lt]
    refine Finset.card_lt_card (Finset.ssubset_iff_of_subset (fun a ha => ?_) |>.mpr ⟨c, ?_, fun hmem => ?_⟩)
    · obtain ⟨ha, hac⟩ := Finset.mem_filter.mp ha
      exact Finset.mem_filter.mpr ⟨ha, hac.tail hs⟩
    · exact Finset.mem_filter.mpr ⟨Finset.mem_range.mpr hc, .single hs⟩
    · exact hacyclic c (Finset.mem_filter.mp hmem).2
  · have hle := hcard c
    dsimp only
    rw [if_neg (Nat.not_lt.mpr hge)]
    split
    · exact Nat.lt_of_le_of_lt hle (Nat.lt_of_lt_of_le (Nat.lt_succ_self _) (Nat.le_add_right _ _))
    · exact Nat.add_lt_add_left hlt _

theorem forwardPredecessors_ne_nil {n : Node} (haccepted : g.checkStructure = .ok ()) (hn : g.get? c = some n)
    (hk : n.kind.isMerge = true) : g.forwardPredecessors c ≠ [] := by
  have hcheck := predecessors_checked haccepted hn (Kind.isControl_of_isMerge hk)
  unfold checkPredecessors at hcheck
  cases hkind : n.kind with
  | merge | loopBegin =>
    simp only [hkind] at hcheck
    have hsome := ensure_ok.mp hcheck
    intro hnil
    simp [hnil] at hsome
  | _ => simp [hkind, Kind.isMerge] at hk

theorem not_transGen_self_of_reach (haccepted : g.checkStructure = .ok ()) (hc : g.Reach c) :
    ¬Relation.TransGen g.Step c c := by
  obtain ⟨_, _, h⟩ := except_bind_ok.mp haccepted
  split at h
  next => cases h
  next hnone =>
    obtain ⟨rank, hrank⟩ := Digraph.exists_rank_of_findCycle? hnone
    intro hcycle
    have hup : ∀ d, Relation.TransGen g.Step c d → g.Reach d ∧ rank c < rank d := by
      intro d hd
      induction hd with
      | single hs => exact ⟨hc.step hs, hrank _ _ hc (mem_forwardSuccessors.mpr hs) hs.lt⟩
      | tail _ hs ih => exact ⟨ih.1.step hs, Nat.lt_trans ih.2 (hrank _ _ ih.1 (mem_forwardSuccessors.mpr hs) hs.lt)⟩
    exact Nat.lt_irrefl _ (hup c hcycle).2

theorem exists_descends (haccepted : g.checkStructure = .ok ())
    (hloose : ∀ x n, g.get? x = some n → n.kind.isControl = false → n.successors = [])
    (hunreached : ∀ c, ¬g.Reach c → ¬Relation.TransGen g.Step c c) : ∃ rank, g.Descends rank [] := by
  obtain ⟨rank, hrank, hfresh⟩ := exists_rank_of_acyclic fun c => by
    by_cases hc : g.Reach c
    · exact not_transGen_self_of_reach haccepted hc
    · exact hunreached c hc
  have hedge : ∀ c n p m, g.get? c = some n → n.kind.isControl = true → g.get? p = some m → p ∈ n.predecessors →
      m.kind.isControl = true ∧ c ∈ m.successors ∧ m.successors.count c = n.predecessors.count p := by
    intro c n p m hn hk hm hp
    obtain ⟨m', hm', hs⟩ := successor_of_predecessor haccepted hn hk hp
    cases hm.symm.trans hm'
    have hctl : m.kind.isControl = true := by
      by_contra hfloat
      rw [hloose p m hm (by simpa using hfloat)] at hs
      cases hs
    exact ⟨hctl, hs, (successor_recorded haccepted hm hctl hs hn).2⟩
  have F : g.RankedBy rank := by
    refine ⟨hfresh, hloose, fun c n hn s hs => ?_, fun c n hn hk p hp => ?_, fun c n p m hn hk hm => ?_,
      fun c n p m hn hk hm hp hend => ?_, fun c n p m hn hk hm hp hend => ?_, fun q n a m hn hk ha hm => ?_⟩
    · obtain ⟨m, hm⟩ := successor_live haccepted hn hs
      exact lt_capacity hm
    · obtain ⟨m, hm, _⟩ := successor_of_predecessor haccepted hn hk hp
      exact lt_capacity hm
    · by_cases hp : p ∈ n.predecessors
      · exact Nat.le_of_eq (hedge c n p m hn hk hm hp).2.2.symm
      · rw [List.count_eq_zero_of_not_mem hp]
        exact Nat.zero_le _
    · obtain ⟨hctl, hs, _⟩ := hedge c n p m hn hk hm hp
      exact hrank p c ⟨m, hm, hctl, hend, hs, n, hn⟩
    · obtain ⟨_, hs, _⟩ := hedge c n p m hn hk hm hp
      obtain ⟨n', hn', he⟩ := kind?_eq_some_iff.mp (loopEnd_successor haccepted hm hend hs)
      cases hn.symm.trans hn'
      exact he
    · obtain ⟨a', m', ha', hm', hanchor⟩ := guard_isAnchor haccepted hn hk
      cases ha.symm.trans ha'
      cases hm.symm.trans hm'
      exact ⟨Kind.isControl_of_isAnchor hanchor, fun he => by simp [he, Kind.isAnchor] at hanchor⟩
  refine ⟨rank, F, fun c n hn hk => Or.inl ?_⟩
  have hctl := Kind.isControl_of_isMerge hk
  obtain ⟨p, hp⟩ := List.exists_mem_of_ne_nil _ (forwardPredecessors_ne_nil haccepted hn hk)
  obtain ⟨hp, hend⟩ := F.of_mem_forwardPredecessors hn hctl hp
  obtain ⟨m, hm, _⟩ := successor_of_predecessor haccepted hn hctl hp
  exact ⟨p, m, hp, hm, hend m hm⟩

/-- Cleaning up a graph that the check accepts ends, whatever nodes are said to have changed, if control leads to
control nodes only and there is no cycle of forward edges among the nodes that are not reached. -/
theorem cleanUp_ends (haccepted : g.checkStructure = .ok ())
    (hloose : ∀ x n, g.get? x = some n → n.kind.isControl = false → n.successors = [])
    (hunreached : ∀ c, ¬g.Reach c → ¬Relation.TransGen g.Step c c) (changed : List NodeId) :
    Ends ((cleanUp changed).result g) := by
  obtain ⟨rank, D⟩ := exists_descends haccepted hloose hunreached
  exact (cleanUp_completes changed g (D.mono fun c hc _ _ _ => absurd hc List.not_mem_nil)).1

/-- The check looks for cycles from the start only. It accepts a graph where control goes from the branch of
node 5 to node 6 and back, and cleaning up after the merge of node 7 asks for the memory state behind that
branch. The walk up to it goes around the cycle for ever. -/
theorem cleanUp_endless :
    let g : Graph :=
      ⟨#[{ kind := .start, successors := [1] }, { kind := .ret, predecessors := [0] },
        { kind := .parameter 0, stamp := .int .full }, { kind := .constant (.int 10), stamp := .int (.constant 10) },
        { kind := .compare .lt, inputs := [2, 3], stamp := .logic },
        { kind := .branch, inputs := [4], successors := [6, 7], predecessors := [6] },
        { kind := .begin, successors := [5], predecessors := [5] },
        { kind := .merge, successors := [8], predecessors := [5] }, { kind := .ret, predecessors := [7] }], .root⟩
    g.checkStructure = .ok () ∧ (cleanUp [7]).result g = .error (.endless 5) ∧
      ∀ n r, ¬StopsAfter (Sweep.memoryStep g 5) n 5 r := by
  intro g
  refine ⟨by decide +kernel, by decide +kernel, (Sweep.memoryState_stops g 5).2.mp ?_⟩
  decide +kernel

end Graph

namespace Draft

/-- Canonicalizing ends under the same conditions. -/
theorem canonicalize_ends {d : Draft} (haccepted : d.graph.checkStructure = .ok ())
    (hloose : ∀ x n, d.graph.get? x = some n → n.kind.isControl = false → n.successors = [])
    (hunreached : ∀ c, ¬d.graph.Reach c → ¬Relation.TransGen d.graph.Step c c) (method : Option MethodId) :
    Ends ((canonicalize method).result d) := by
  obtain ⟨rank, D⟩ := Graph.exists_descends haccepted hloose hunreached
  exact (canonicalize_completes d D).1

/-- A loop behind a branch that is folded. -/
theorem canonicalize_ends_loop :
    let g : Graph :=
      ⟨#[{ kind := .start, successors := [2] }, { kind := .logicConstant true, stamp := .logic },
        { kind := .branch, inputs := [1], successors := [3, 4], predecessors := [0] },
        { kind := .begin, successors := [5], predecessors := [2] },
        { kind := .begin, successors := [11], predecessors := [2] },
        { kind := .loopBegin, successors := [6], predecessors := [3, 8] },
        { kind := .branch, inputs := [14], successors := [7, 9], predecessors := [5] },
        { kind := .begin, successors := [8], predecessors := [6] },
        { kind := .loopEnd, successors := [5], predecessors := [7] },
        { kind := .begin, successors := [10], predecessors := [6] }, { kind := .ret, predecessors := [9] },
        { kind := .ret, predecessors := [4] }, { kind := .parameter 0, stamp := .int .full },
        { kind := .constant (.int 10), stamp := .int (.constant 10) },
        { kind := .compare .lt, inputs := [12, 13], stamp := .logic }], .root⟩
    g.checkStructure = .ok () ∧ Ends ((canonicalize none).result ⟨g, {}⟩) := by
  intro g
  have haccepted : g.checkStructure = .ok () := by decide +kernel
  have hloose : ∀ x < 15, ∀ n ∈ g.get? x, n.kind.isControl = false → n.successors = [] := by decide +kernel
  have hup : ∀ c < 15, ∀ n ∈ g.get? c, n.kind ≠ .loopEnd → ∀ s ∈ n.successors, c < s := by decide +kernel
  have hstep : ∀ c s, g.Step c s → c < s := fun c s ⟨n, hn, _, hend, hs, _⟩ =>
    hup c (Graph.lt_capacity hn) n hn hend s hs
  have hless : Relation.TransGen g.Step ≤ (· < ·) := Relation.transGen_minimal hstep
  refine ⟨haccepted, canonicalize_ends (d := ⟨g, {}⟩) haccepted ?_ (fun c _ h => (hless c c h).false) none⟩
  exact fun x n hn => hloose x (Graph.lt_capacity hn) n hn

/-- Folding the branch of node 2 takes away the other way to the merge of node 11, and the way that is left
comes out of a cycle that is not reached. -/
theorem canonicalize_endless :
    let g : Graph :=
      ⟨#[{ kind := .start, successors := [2] }, { kind := .logicConstant true, stamp := .logic },
        { kind := .branch, inputs := [1], successors := [3, 4], predecessors := [0] },
        { kind := .begin, successors := [5], predecessors := [2] },
        { kind := .begin, successors := [11], predecessors := [2] }, { kind := .ret, predecessors := [3] },
        { kind := .parameter 0, stamp := .int .full }, { kind := .constant (.int 10), stamp := .int (.constant 10) },
        { kind := .compare .lt, inputs := [6, 7], stamp := .logic },
        { kind := .branch, inputs := [8], successors := [10, 11], predecessors := [10] },
        { kind := .begin, successors := [9], predecessors := [9] },
        { kind := .merge, successors := [12], predecessors := [9, 4] }, { kind := .ret, predecessors := [11] }], .root⟩
    g.checkStructure = .ok () ∧ (canonicalize none).result ⟨g, {}⟩ = .error (.endless 9) := by
  decide +kernel

end Draft

end GuardElision
