import GuardElision.Proofs.Cleanup.Prune
import GuardElision.Proofs.Layers.Edits

namespace GuardElision

namespace Graph

variable {g h : Graph} {u : NodeId} {waiting still : List NodeId}

/-- Something leads to every merge, unless it waits to be looked at. -/
def Led (g : Graph) (waiting : List NodeId) : Prop :=
  ∀ c n, g.get? c = some n → n.kind.isMerge = true → (∃ p, g.Step p c) ∨ c ∈ waiting

theorem Led.mono (D : g.Led waiting) (hstill : ∀ c ∈ waiting, ∀ n, g.get? c = some n → n.kind.isMerge = true → c ∈ still) :
    g.Led still :=
  fun c n hn hk => (D c n hn hk).imp_right fun hc => hstill c hc n hn hk

theorem Led.ways (D : g.Led waiting) (H : g.Shaped) (W : SameWays g h) : h.Led waiting := by
  intro c n hn hk
  obtain ⟨m, hm, _, _, _, he | ⟨he, _⟩⟩ := W.back hn (Kind.isControl_of_isMerge hk)
  · rcases D c m hm (he ▸ hk) with ⟨p, hp⟩ | hc
    · exact Or.inl ⟨p, (W.step_iff H).mpr hp⟩
    · exact Or.inr hc
  · simp [he, Kind.isMerge] at hk

/-- Where edges of `u` are cut, the merges they led to have to wait. -/
theorem Led.cut {D : NodeId → Prop} (hled : g.Led waiting) (H : g.Shaped) (C : Cut u D g h)
    (hwaiting : ∀ c ∈ waiting, ∀ n, h.get? c = some n → n.kind.isMerge = true → c ∈ still)
    (hcut : ∀ c n, h.get? c = some n → n.kind.isMerge = true → g.Step u c → h.Step u c ∨ c ∈ still) : h.Led still := by
  intro c n hn hk
  have hlt : c < g.capacity := by
    by_contra hge
    obtain ⟨reason, he, _⟩ := C.fresh c n hn (Nat.not_lt.mp hge)
    simp [he, Kind.isMerge] at hk
  obtain ⟨m, hm, _, _, _, ⟨he, _⟩ | ⟨he, _⟩⟩ := C.node hn hlt
  · rcases hled c m hm (he ▸ hk) with ⟨p, hs⟩ | hmem
    · by_cases hpu : p = u
      · subst hpu
        exact (hcut c n hn hk hs).imp_left fun hs => ⟨p, hs⟩
      · exact Or.inl ⟨p, C.step H hs hpu fun hcu => ⟨n, hcu ▸ hn⟩⟩
    · exact Or.inr (hwaiting c hmem n hn hk)
  · simp [he, Kind.isMerge] at hk

theorem Led.fold {split : NodeId} {truth : Bool} {folded : FoldedBranch} (hled : g.Led waiting) (H : g.Shaped)
    (hfold : g.foldBranch split truth = .ok (folded, h)) (hwaiting : ∀ c ∈ waiting, c ≠ split → c ∈ still) :
    h.Led still := by
  have C := Cut.fold H hfold
  obtain ⟨m, _, hm, hk, _⟩ := foldBranch_steps hfold
  refine hled.cut H C (fun c hc n hn hmerge => hwaiting c hc ?_) fun c n hn hmerge hs => ?_
  · rintro rfl
    obtain ⟨m', hm', _, _, _, ⟨he, _, hne⟩ | ⟨he, _⟩, _⟩ := C.here n hn
    · cases hm.symm.trans hm'
      exact hne (he.symm.trans hk)
    · simp [he, Kind.isMerge] at hmerge
  · obtain ⟨yes, no, hsucc, _, hyes, hno⟩ := H.branch split m hm hk
    obtain ⟨m', hm', _, _, hmem, l, hl⟩ := id hs
    cases hm.symm.trans hm'
    have hbegin : l.kind = .begin := by
      rw [hsucc] at hmem
      rcases List.mem_pair.mp hmem with rfl | rfl
      · exact (kind?_eq_some_iff.mp hyes).elim fun l' hl' => by cases hl.symm.trans hl'.1; exact hl'.2
      · exact (kind?_eq_some_iff.mp hno).elim fun l' hl' => by cases hl.symm.trans hl'.1; exact hl'.2
    obtain ⟨l', hl', _, _, _, ⟨he, _⟩ | ⟨he, _⟩⟩ := C.node hn (lt_capacity hl)
    · cases hl.symm.trans hl'
      simp [he, hbegin, Kind.isMerge] at hmerge
    · simp [he, Kind.isMerge] at hmerge

theorem Led.strengthen {q : NodeId} {reason : Reason} {n : Node} {s : Strengthened} (hled : g.Led waiting) (H : g.Shaped)
    (hn : g.get? u = some n) (hk : n.kind.isAnchor = true) (hs : g.strengthenGuard u q reason = .ok (s, h))
    (hwaiting : ∀ c ∈ waiting, c ∈ still) (hdetached : ∀ c, s.detached = some c → c ∈ still) : h.Led still := by
  refine hled.cut H (.strengthen H hn hk hs) (fun c hc _ _ _ => hwaiting c hc) fun c _ _ _ hstep => Or.inr ?_
  obtain ⟨n', hn', hctl, _, hmem, _⟩ := hstep
  cases hn.symm.trans hn'
  have hlen := H.single u n hn hctl (by rintro he; simp [he, Kind.isAnchor] at hk)
  refine hdetached c ?_
  rw [(strengthened H hn hk hs).1, eq_singleton_of_mem hlen hmem]
  rfl

end Graph

namespace Sweep

variable {L : Layering} {s s' : Sweep} {u : NodeId} {stack : List NodeId}

/-- The graph keeps to the layers, and something leads to every merge that is not on the stack. -/
structure Tended (L : Layering) (s : Sweep) (stack : List NodeId) : Prop where
  layered : s.graph.Layered L
  led : s.graph.Led stack
  control : ∀ c ∈ stack, ∀ n, s.graph.get? c = some n → n.kind.isControl = true

namespace Tended

theorem congr (T : Tended L s stack) (hgraph : s'.graph = s.graph) : Tended L s' stack := by
  obtain ⟨Y, hled, hcontrol⟩ := T
  rw [← hgraph] at Y hled hcontrol
  exact ⟨Y, hled, hcontrol⟩

/-- A node that stays has something that leads to it, and one that goes leaves its successors on the stack. -/
theorem pruneNode {next : List NodeId} (T : Tended L s (u :: stack)) (h : pruneNode u s = .ok next s') :
    Tended L s' (next.reverse ++ stack) := by
  have H := T.layered.shaped
  rcases pruneNode_cases h with ⟨hgraph, _, rfl, hstays⟩ | ⟨n, s₁, hn, hstart, hempty, hgraph, _, hremove, rfl⟩
  · refine congr ⟨T.layered, ?_, fun c hc => T.control c (List.mem_cons_of_mem u hc)⟩ hgraph
    intro c n hn hk
    rcases T.led c n hn hk with hs | hc
    · exact Or.inl hs
    · rcases List.mem_cons.mp hc with rfl | hc
      · have hne : n.kind ≠ .start := by
          intro he
          simp [he, Kind.isMerge] at hk
        obtain ⟨p, hp⟩ := List.exists_mem_of_ne_nil _ (hstays n hn hne)
        exact Or.inl ⟨p, (mem_liveForwardPredecessors H hn (Kind.isControl_of_isMerge hk)).mp hp⟩
      · exact Or.inr hc
  · have hk := T.control u List.mem_cons_self n hn
    obtain ⟨⟨D, C⟩, hgone, _, _⟩ :=
      removes_of_removeControl (hgraph ▸ H) (hgraph ▸ hn) hk hstart (hgraph ▸ hempty) hremove
    rw [hgraph] at C
    refine ⟨T.layered.cut C, T.led.cut H C (fun c hc m hm _ => ?_) fun c m hm _ hs => Or.inr ?_, fun c hc m hm => ?_⟩
    · rcases List.mem_cons.mp hc with rfl | hc
      · cases hgone.symm.trans hm
      · exact List.mem_append_right _ hc
    · obtain ⟨n', hn', _, _, hmem, _⟩ := hs
      cases hn.symm.trans hn'
      exact List.mem_append_left _ (List.mem_reverse.mpr hmem)
    · obtain ⟨_, l, hl, hkind⟩ := C.old_of_gone hgone hm
      rw [hkind]
      rcases List.mem_append.mp hc with hc | hc
      · rcases H.succ u n hn hk c (List.mem_reverse.mp hc) with ⟨l', hl', hkl, _⟩ | ⟨_, _, hnone⟩
        · cases hl.symm.trans hl'
          exact hkl
        · cases hnone.symm.trans hl
      · exact T.control c (List.mem_cons_of_mem u hc) l hl

/-- Nodes on the stack and edges together bound the work, so the stack is empty in the end. -/
theorem prune {bound : Nat} {a : Unit} (T : Tended L s stack) (hbound : stack.length + edgeCount s.graph ≤ bound)
    (h : prune bound stack s = .ok a s') : Tended L s' [] := by
  induction bound generalizing s stack with
  | zero =>
    obtain rfl : stack = [] := List.length_eq_zero_iff.mp (by omega)
    obtain ⟨_, rfl⟩ := Attempt.pure_ok.mp h
    exact T
  | succ bound ih =>
    cases stack with
    | nil =>
      obtain ⟨_, rfl⟩ := Attempt.pure_ok.mp h
      exact T
    | cons u stack =>
      obtain ⟨next, s₁, hnode, h⟩ := Attempt.bind_ok.mp h
      have hless := pruneNode_less hnode stack
      exact ih (T.pruneNode hnode) (by omega) h

end Tended

/-- What the stack must be like while the changed nodes are taken in: those still to come count as waiting. -/
def Seeded (L : Layering) (rest control : List NodeId) (s : Sweep) : Prop :=
  s.graph.Layered L ∧ s.graph.Led (control ++ rest) ∧
    ∀ c ∈ control, ∀ n, s.graph.get? c = some n → n.kind.isControl = true

theorem Seeded.seed {id : NodeId} {rest control next : List NodeId} (S : Seeded L (id :: rest) control s)
    (h : seed id s = .ok next s') : Seeded L rest (control ++ next) s' := by
  obtain ⟨Y, hled, hcontrol⟩ := S
  rcases seed_cases h with ⟨hk, _, rfl, rfl⟩ | ⟨hk, rfl, hgraph⟩ | ⟨truth, folded, hconst, hfold, rfl⟩
  · refine ⟨Y, by simpa using hled, fun c hc n hn => ?_⟩
    rcases List.mem_append.mp hc with hc | hc
    · exact hcontrol c hc n hn
    · obtain rfl := List.mem_singleton.mp hc
      exact Graph.isControl_of_get? hn ▸ hk
  · rw [Seeded, hgraph]
    refine ⟨Y, hled.mono fun c hc n hn hmerge => ?_, by simpa using hcontrol⟩
    have hne : c ≠ id := by
      rintro rfl
      rw [Graph.isControl_of_get? hn, Kind.isControl_of_isMerge hmerge] at hk
      cases hk
    simpa [hne] using hc
  · have C := Graph.Cut.fold Y.shaped hfold
    obtain ⟨m, _, hm, hk, hdead, _⟩ := Graph.foldBranch_steps hfold
    refine ⟨Y.cut C, hled.fold Y.shaped hfold fun c hc hne => ?_, fun c hc n hn => ?_⟩
    · simp only [List.mem_append, List.mem_cons, List.not_mem_nil, or_false] at hc ⊢
      tauto
    · by_cases hlt : c < s.graph.capacity
      · obtain ⟨l, hl, _, _, _, hkind⟩ := C.node hn hlt
        have hlc : l.kind.isControl = true := by
          rcases List.mem_append.mp hc with hc | hc
          · exact hcontrol c hc l hl
          · obtain rfl := List.mem_singleton.mp hc
            rcases Y.shaped.succ id m hm (by rw [hk]; rfl) _ hdead with ⟨l', hl', hkl, _⟩ | ⟨he, _⟩
            · cases hl.symm.trans hl'
              exact hkl
            · rw [hk] at he
              cases he
        rcases hkind with ⟨he, _⟩ | ⟨he, _⟩
        · exact he ▸ hlc
        · rw [he]
          rfl
      · obtain ⟨reason, he, _⟩ := C.fresh c n hn (Nat.not_lt.mp hlt)
        rw [he]
        rfl

/-- The changed nodes that are part of control flow go on the stack. Of a branch on a constant it is the arm
that is not taken. -/
theorem seeds_tended {changed control : List NodeId} (Y : s.graph.Layered L) (hled : s.graph.Led changed)
    (h : changed.flatMapM seed s = .ok control s') : Tended L s' control := by
  obtain ⟨Y', hled', hcontrol⟩ := Attempt.flatMapM_ok (P := Seeded L)
    (fun id rest control next s s' S hseed => S.seed hseed) ⟨Y, hled, by simp⟩ h
  exact ⟨Y', by simpa using hled', hcontrol⟩

theorem Tended.dropOrphans (T : Tended L s []) (bound : Nat) (stack : List NodeId) :
    Tended L (dropOrphans bound stack s) [] := by
  have hkeep := dropOrphans_induct (P := fun g => g.Layered L ∧ g.Led []) (fun g id Y horphan => ?_) bound stack s
    ⟨T.layered, T.led⟩
  · exact ⟨hkeep.1, hkeep.2, by simp⟩
  · have hfloat : ∀ n, g.get? id = some n → n.kind.isControl = false := by
      intro n hn
      obtain ⟨m, hm, hk, _⟩ := isOrphan_iff.mp horphan
      cases hn.symm.trans hm
      exact hk
    exact ⟨Y.1.delete hfloat, Y.2.ways Y.1.shaped (Graph.Recast.delete hfloat).ways⟩

/-- A merge that its phis are being taken from. -/
structure Collapsing (L : Layering) (merge source : NodeId) (phis : List NodeId) (g : Graph) : Prop where
  layered : g.Layered L
  led : g.Led []
  node : ∃ k, g.get? merge = some k ∧ k.kind.isMerge = true ∧ k.predecessors = [source]
  phis : ∀ p ∈ phis, L.pos p = merge ∧ ∀ n, g.get? p = some n → n.kind = .phi

namespace Collapsing

variable {merge source : NodeId} {phis : List NodeId}

/-- The only predecessor leads to the merge. -/
theorem step {g : Graph} (C : Collapsing L merge source phis g) : g.Step source merge := by
  obtain ⟨k, hk, hmerge, hpred⟩ := C.node
  obtain ⟨p, hp⟩ := (C.led merge k hk hmerge).resolve_right List.not_mem_nil
  have hmem := C.layered.shaped.mem_predecessors hp hk
  rw [hpred, List.mem_singleton] at hmem
  exact hmem ▸ hp

theorem resolvePhi {p : NodeId} (hp : p ∈ phis) :
    (resolvePhi merge p).Keeps fun s => Collapsing L merge source phis s.graph := by
  intro s a s' C h
  obtain ⟨n, v, hn, hv, _, hgraph⟩ := resolvePhi_cases h
  obtain ⟨hpos, hphi⟩ := C.phis p hp
  obtain ⟨k, hk, hmerge, hpred⟩ := C.node
  have Y := C.layered.resolve hn (hphi n hn) (hpos ▸ hk) hpred (hpos ▸ C.step) hv
  have hne : merge ≠ p := by
    rintro rfl
    cases hk.symm.trans hn
    simp [hphi n hn, Kind.isMerge] at hmerge
  rw [hgraph]
  refine ⟨Y, C.led.ways C.layered.shaped (Graph.Recast.resolve fun m hm => ?_).ways, ⟨_, Graph.get?_resolve.mpr ⟨hne, k, hk, rfl⟩, hmerge, hpred⟩,
    fun q hq => ⟨(C.phis q hq).1, fun m hm => ?_⟩⟩
  · rw [hphi m hm]
    rfl
  · obtain ⟨_, m', hm', rfl⟩ := Graph.get?_resolve.mp hm
    exact (C.phis q hq).2 m' hm'

end Collapsing

theorem simplifyMerge_layers (merge : NodeId) :
    (simplifyMerge merge).Keeps fun s => s.graph.Layered L ∧ s.graph.Led [] := by
  intro s a s' Y h
  rcases simplifyMerge_cases h with rfl | ⟨n, source, s₁, memory, hn, hmerge, hpred, hphis, _, hgraph⟩
  · exact Y
  · have C : Collapsing L merge source (s.graph.phisOf merge) s.graph := by
      refine ⟨Y.1, Y.2, ⟨n, hn, hmerge, hpred⟩, fun p hp => ?_⟩
      obtain ⟨m, hm, hphi, ha⟩ := Graph.mem_phisOf.mp hp
      refine ⟨?_, fun l hl => ?_⟩
      · exact Option.some.inj ((Y.1.anchor p m hm (Or.inr hphi)).1.symm.trans ha)
      · cases hm.symm.trans hl
        exact hphi
    have C₁ : Collapsing L merge source (s.graph.phisOf merge) s₁.graph :=
      (Attempt.Keeps.forM fun p hp => Collapsing.resolvePhi hp) s _ s₁ C hphis
    obtain ⟨k, hk, hmerge', hpred'⟩ := C₁.node
    have hend : s₁.graph.kind? source ≠ some .loopEnd := by
      intro he
      obtain ⟨l, hl, hkl⟩ := Graph.kind?_eq_some_iff.mp he
      obtain ⟨l', hl', _, hne, _⟩ := C₁.step
      cases hl.symm.trans hl'
      exact hne hkl
    rw [hgraph]
    exact ⟨C₁.layered.flatten hk hmerge' hpred' hend, C₁.led.ways C₁.layered.shaped (.flatten hk hmerge' hpred' hend)⟩

end Sweep

/-- Cleaning up keeps to the layers, and in the end something leads to every merge. -/
theorem Graph.cleanUp_layers {g h : Graph} {L : Layering} {changed : List NodeId} {changes : Changes}
    (Y : g.Layered L) (hled : g.Led changed) (hc : cleanUp changed g = .ok changes h) : h.Layered L ∧ h.Led [] := by
  obtain ⟨s, hrun, -, rfl⟩ := cleanUp_ok hc
  obtain ⟨control, s₁, s₂, hseeds, hprune, ids, hmerges⟩ := Sweep.run_cases hrun
  have T₁ := Sweep.seeds_tended (s := { graph := g }) Y hled hseeds
  have hreverse : Sweep.Tended L s₁ control.reverse :=
    ⟨T₁.layered, T₁.led.mono fun c hc _ _ _ => List.mem_reverse.mpr hc, fun c hc => T₁.control c (List.mem_reverse.mp hc)⟩
  have T₂ := hreverse.prune (by simp) hprune
  have T₃ := T₂.dropOrphans (s₂.floating.length + s₂.graph.liveCount) s₂.floating.reverse
  exact (Attempt.Keeps.forM fun merge _ => Sweep.simplifyMerge_layers merge) _ _ s ⟨T₃.layered, T₃.led⟩ hmerges

end GuardElision
