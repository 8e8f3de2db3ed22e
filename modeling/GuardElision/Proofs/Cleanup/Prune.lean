import GuardElision.Proofs.Attempt
import GuardElision.Proofs.Cleanup.Removal
import GuardElision.Proofs.Cleanup.Reached

namespace GuardElision

namespace Sweep

theorem length_flatMap_modify (l : List Node) (i : Nat) (f : Node → Node) {n : Node} (hn : l[i]? = some n) :
    ((l.modify i f).flatMap (·.successors)).length + n.successors.length =
      (l.flatMap (·.successors)).length + (f n).successors.length := by
  induction l generalizing i with
  | nil => simp at hn
  | cons a l ih =>
    cases i with
    | zero =>
      obtain rfl : a = n := by simpa using hn
      simp only [List.modify_zero_cons, List.flatMap_cons, List.length_append]
      omega
    | succ i =>
      have hrest := ih i (by simpa using hn)
      simp only [List.modify_succ_cons, List.flatMap_cons, List.length_append]
      omega

theorem edgeCount_modify (g : Graph) (id : NodeId) (f : Node → Node) {n : Node} (hn : g.nodes[id]? = some n) :
    edgeCount (g.modify id f) + n.successors.length = edgeCount g + (f n).successors.length := by
  unfold edgeCount Graph.modify
  rw [Array.toList_modify]
  exact length_flatMap_modify _ _ _ (by simpa using hn)

theorem edgeCount_modify_le {f : Node → Node} (hf : ∀ n, (f n).successors.length ≤ n.successors.length) (g : Graph)
    (id : NodeId) : edgeCount (g.modify id f) ≤ edgeCount g := by
  cases hn : g.nodes[id]? with
  | some n =>
    have hsum := edgeCount_modify g id f hn
    have hle := hf n
    omega
  | none =>
    unfold edgeCount Graph.modify
    rw [Array.toList_modify, List.modify_eq_self (by simpa using hn)]

theorem edgeCount_foldl_modify_le {f : Node → Node} (hf : ∀ n, (f n).successors.length ≤ n.successors.length)
    (ids : List NodeId) (g : Graph) : edgeCount (ids.foldl (fun g id => g.modify id f) g) ≤ edgeCount g := by
  induction ids generalizing g with
  | nil => exact Nat.le_refl _
  | cons id ids ih => exact Nat.le_trans (ih _) (edgeCount_modify_le hf g id)

theorem edgeCount_delete_le (ids : List NodeId) (g : Graph) : edgeCount (ids.foldl Graph.delete g) ≤ edgeCount g :=
  edgeCount_foldl_modify_le (by simp [Node.cleared]) ids g

theorem edgeCount_detachEdge {g h : Graph} {u t : NodeId} {n : Node} (hn : g.get? u = some n) (ht : t ∈ n.successors)
    (hd : g.detachEdge u t = .ok h) : edgeCount h + 1 ≤ edgeCount g := by
  unfold Graph.detachEdge at hd
  obtain ⟨⟨index?, g₁⟩, hr, hd⟩ := except_bind_ok.mp hd
  have hremove : edgeCount g₁ + 1 ≤ edgeCount g := by
    cases (Graph.unlink_of_mem hn ht).symm.trans (Attempt.finalWith_ok.mp hr)
    have hle := edgeCount_modify_le (f := fun n => { n with predecessors := n.predecessors.erase u })
      (fun _ => Nat.le_refl _) (g.modify u fun n => { n with successors := n.successors.erase t }) t
    have heq := edgeCount_modify g u (fun n => { n with successors := n.successors.erase t }) (Graph.slot_of_get? hn)
    have hlen := List.length_erase_of_mem ht
    have hpos := List.length_pos_of_mem ht
    unfold Graph.dropPredecessor
    simp only at heq
    omega
  cases index? with
  | none =>
    cases Except.ok.inj hd
    exact hremove
  | some index =>
    cases Except.ok.inj hd
    have hle : edgeCount (g₁.dropPhiInput t index) ≤ edgeCount g₁ :=
      edgeCount_foldl_modify_le (f := fun n => { n with inputs := n.inputs.eraseIdx index })
        (fun _ => Nat.le_refl _) _ _
    omega

theorem detach_edgeCount {u : NodeId} {n : Node} {ss : List NodeId} {s s' : Sweep} {a : PUnit}
    (hn : s.graph.get? u = some n) (hlisted : ∀ t, ss.count t ≤ n.successors.count t)
    (h : (ss.forM fun next => do
      onGraph (·.detachEdge u next)
      modify fun s => { s with changes := s.changes.noteEdge } : Attempt Sweep PUnit) s = .ok a s') :
    edgeCount s'.graph + ss.length ≤ edgeCount s.graph := by
  induction ss generalizing s n with
  | nil =>
    obtain ⟨_, rfl⟩ := Attempt.pure_ok.mp h
    exact Nat.le_refl _
  | cons t ss ih =>
    obtain ⟨_, _, hstep, h⟩ := Attempt.bind_ok.mp h
    obtain ⟨_, _, hdetach, hm⟩ := Attempt.bind_ok.mp hstep
    obtain ⟨k, hd, rfl⟩ := onGraph_ok.mp hdetach
    obtain rfl := Attempt.modify_ok.mp hm
    have hmem : t ∈ n.successors := List.count_pos_iff.mp (Nat.lt_of_lt_of_le (by simp) (hlisted t))
    have hcount := edgeCount_detachEdge hn hmem hd
    obtain ⟨n', hn', _, _, ⟨_, hview⟩ | ⟨hno, _⟩⟩ := Graph.detachEdge_ok hd
    · cases hn.symm.trans hn'
      have hu : k.get? u = some (Graph.withoutEdge u t (s.graph.predecessorIndex? u t) u n) := by rw [hview, hn]; rfl
      have hrest := ih (s := { s with graph := k, changes := s.changes.noteEdge }) hu (fun t' => ?_) h
      · simp only [List.length_cons] at *
        omega
      · have hle := hlisted t'
        simp only [Graph.withoutEdge, ↓reduceIte, List.count_erase, List.count_cons] at hle ⊢
        omega
    · cases hn.symm.trans hn'
      exact absurd hmem hno

theorem detach_ok {g : Graph} {u : NodeId} {n : Node} {ss targets : List NodeId} {s s' : Sweep} {a : PUnit}
    (E : Graph.Detached u targets g s.graph) (hn : s.graph.get? u = some n) (hsucc : n.successors = ss)
    (hnodup : ss.Nodup) (hdisjoint : ∀ t ∈ ss, t ∉ targets)
    (h : (ss.forM fun next => do
      onGraph (·.detachEdge u next)
      modify fun s => { s with changes := s.changes.noteEdge } : Attempt Sweep PUnit) s = .ok a s') :
    Graph.Detached u (ss.reverse ++ targets) g s'.graph ∧ s'.floating = s.floating ∧ s'.merges = s.merges := by
  induction ss generalizing s targets n with
  | nil =>
    obtain ⟨_, rfl⟩ := Attempt.pure_ok.mp h
    exact ⟨E, rfl, rfl⟩
  | cons t ss ih =>
    obtain ⟨_, _, hstep, h⟩ := Attempt.bind_ok.mp h
    obtain ⟨_, _, hdetach, hm⟩ := Attempt.bind_ok.mp hstep
    obtain ⟨k, hd, rfl⟩ := onGraph_ok.mp hdetach
    obtain rfl := Attempt.modify_ok.mp hm
    have hmem : t ∈ n.successors := by simp [hsucc]
    obtain ⟨E', n', hn', hsucc'⟩ := E.step (hdisjoint t List.mem_cons_self) hn hmem hd
    obtain ⟨hnot, hnodup⟩ := List.nodup_cons.mp hnodup
    obtain ⟨E'', hfloating, hmerges⟩ := ih E' hn' (by simp [hsucc', hsucc]) hnodup (fun t' ht' => by
      rw [List.mem_cons, not_or]
      refine ⟨?_, hdisjoint t' (List.mem_cons_of_mem t ht')⟩
      rintro rfl
      exact hnot ht') h
    exact ⟨by simpa using E'', hfloating, hmerges⟩

theorem removeControl_edgeCount {u : NodeId} {n : Node} {s s' : Sweep} {a : Unit} (hn : s.graph.get? u = some n)
    (h : removeControl u n.successors s = .ok a s') : n.successors.length + edgeCount s'.graph ≤ edgeCount s.graph := by
  unfold removeControl at h
  obtain ⟨_, s₁, hdetach, h⟩ := Attempt.bind_ok.mp h
  have hcount := detach_edgeCount hn (fun _ => Nat.le_refl _) hdetach
  obtain rfl := Attempt.modify_ok.mp h
  have hle := edgeCount_delete_le (s₁.graph.guardsAt u ++ s₁.graph.phisOf u ++ [u]) s₁.graph
  rw [(foldl_drop _ s₁).1]
  omega

theorem removeControl_ok {u : NodeId} {n : Node} {s s' : Sweep} {a : Unit} (hn : s.graph.get? u = some n)
    (hnodup : n.successors.Nodup) (h : removeControl u n.successors s = .ok a s') :
    ∃ k, Graph.Detached u n.successors s.graph k ∧
      s'.graph = (k.guardsAt u ++ k.phisOf u ++ [u]).foldl Graph.delete k ∧
      s'.floating = s.floating ++ (k.guardsAt u ++ k.phisOf u ++ [u]) ∧ s'.merges = s.merges := by
  unfold removeControl at h
  obtain ⟨_, s₁, hdetach, h⟩ := Attempt.bind_ok.mp h
  obtain ⟨E, hfloating, hmerges⟩ := detach_ok (.nil u s.graph) hn rfl hnodup (by simp) hdetach
  obtain rfl := Attempt.modify_ok.mp h
  obtain ⟨hgraph, hfloating', hmerges'⟩ := foldl_drop (s₁.graph.guardsAt u ++ s₁.graph.phisOf u ++ [u]) s₁
  exact ⟨s₁.graph, E.congr (by simp), hgraph, hfloating'.trans (by rw [hfloating]), hmerges'.trans hmerges⟩

theorem detach_succeeds {u : NodeId} {n : Node} {s : Sweep} (hn : s.graph.get? u = some n) (ss : List NodeId) :
    ∃ s', (ss.forM fun next => do
      onGraph (·.detachEdge u next)
      modify fun s => { s with changes := s.changes.noteEdge } : Attempt Sweep PUnit) s = .ok () s' := by
  induction ss generalizing s n with
  | nil => exact ⟨s, rfl⟩
  | cons t ss ih =>
    obtain ⟨k, hk⟩ := Graph.detachEdge_succeeds hn t
    obtain ⟨n', hn'⟩ : ∃ n', k.get? u = some n' := by
      obtain ⟨_, _, _, _, ⟨_, hview⟩ | ⟨_, rfl⟩⟩ := Graph.detachEdge_ok hk
      · exact ⟨_, by rw [hview, hn]; rfl⟩
      · exact ⟨n, hn⟩
    obtain ⟨s', hs'⟩ := ih (s := { s with graph := k, changes := s.changes.noteEdge }) hn'
    refine ⟨s', Attempt.bind_ok.mpr ⟨(), _, Attempt.bind_ok.mpr ⟨(), _, onGraph_ok.mpr ⟨k, hk, rfl⟩, ?_⟩, hs'⟩⟩
    exact Attempt.modify_ok.mpr rfl

theorem removeControl_succeeds {u : NodeId} {n : Node} {s : Sweep} (hn : s.graph.get? u = some n) (ss : List NodeId) :
    ∃ s', removeControl u ss s = .ok () s' := by
  obtain ⟨s₁, hdetach⟩ := detach_succeeds hn ss
  exact ⟨_, Attempt.bind_ok.mpr ⟨(), s₁, hdetach, Attempt.modify_ok.mpr rfl⟩⟩

theorem pruneNode_succeeds (u : NodeId) (s : Sweep) : ∃ next s', pruneNode u s = .ok next s' := by
  cases hn : s.graph.get? u with
  | none =>
    refine ⟨[], s, Attempt.bind_ok.mpr ⟨s, s, rfl, ?_⟩⟩
    simp only [hn]
    rfl
  | some n =>
    by_cases hstart : n.kind = .start
    · refine ⟨[], s, Attempt.bind_ok.mpr ⟨s, s, rfl, ?_⟩⟩
      simp only [hn]
      rw [if_pos hstart]
      rfl
    · obtain ⟨s₁, hnote⟩ : ∃ s₁, noteMerge u n.kind s = .ok () s₁ := ⟨_, rfl⟩
      obtain ⟨hgraph, _⟩ := noteMerge_ok hnote
      obtain ⟨s₂, hremove⟩ := removeControl_succeeds (hgraph ▸ hn) n.successors
      by_cases hempty : (s.graph.liveForwardPredecessors u).isEmpty = true
      · refine ⟨n.successors, s₂, Attempt.bind_ok.mpr ⟨s, s, rfl, ?_⟩⟩
        simp only [hn]
        rw [if_neg hstart]
        refine Attempt.bind_ok.mpr ⟨(), s₁, hnote, ?_⟩
        rw [if_pos hempty]
        exact Attempt.bind_ok.mpr ⟨(), s₂, hremove, rfl⟩
      · refine ⟨[], s₁, Attempt.bind_ok.mpr ⟨s, s, rfl, ?_⟩⟩
        simp only [hn]
        rw [if_neg hstart]
        refine Attempt.bind_ok.mpr ⟨(), s₁, hnote, ?_⟩
        rw [if_neg hempty]
        rfl

/-- A node that puts its successors on the stack gives up its edges to them. -/
theorem pruneNode_less {u : NodeId} {next : List NodeId} {s s' : Sweep} (h : pruneNode u s = .ok next s')
    (stack : List NodeId) :
    (next.reverse ++ stack).length + edgeCount s'.graph < (u :: stack).length + edgeCount s.graph := by
  have hle : next.length + edgeCount s'.graph ≤ edgeCount s.graph := by
    rcases pruneNode_cases h with ⟨hgraph, _, rfl, _⟩ | ⟨n, s₁, hn, _, _, hgraph, _, hremove, rfl⟩
    · simp [hgraph]
    · exact hgraph ▸ removeControl_edgeCount (hgraph ▸ hn) hremove
  simp only [List.length_append, List.length_reverse, List.length_cons]
  omega

/-- A control node that nothing leads to goes, and what goes with it is noted. -/
structure Removes (u : NodeId) (s s' : Sweep) : Prop where
  cut : ∃ D, Graph.Cut u D s.graph s'.graph
  gone : s'.graph.get? u = none
  capacity : s'.graph.capacity = s.graph.capacity
  floating : ∀ d, d ∈ s'.floating ↔ d ∈ s.floating ∨ (∃ m, s.graph.get? d = some m) ∧ s'.graph.get? d = none

/-- A sweep of `base` with the given control nodes still to be looked at. -/
structure Pruning (base : Graph) (s : Sweep) (stack : List NodeId) : Prop where
  shaped : s.graph.Shaped
  capacity : s.graph.capacity = base.capacity
  reach : ∀ c, s.graph.Reach c ↔ base.Reach c
  dom : ∀ a c, base.Dom a c → s.graph.Dom a c
  /-- Something leads to every control node, unless it is on the stack. -/
  led : ∀ c n, s.graph.get? c = some n → n.kind.isControl = true → c ≠ Graph.start →
    (∃ p, s.graph.Step p c) ∨ c ∈ stack
  control : ∀ c ∈ stack, ∀ n, s.graph.get? c = some n → n.kind.isControl = true

variable {base : Graph} {s s' : Sweep} {u : NodeId} {stack : List NodeId}

namespace Pruning

/-- A node that something leads to can be taken off the stack, and so can one that is gone. -/
theorem pop (P : Pruning base s (u :: stack))
    (hu : ∀ n, s.graph.get? u = some n → u ≠ Graph.start → ∃ p, s.graph.Step p u) : Pruning base s stack := by
  refine { P with
    led := fun c n hn hk hc => ?_
    control := fun c hc => P.control c (List.mem_cons_of_mem u hc) }
  rcases P.led c n hn hk hc with hs | hmem
  · exact Or.inl hs
  · rcases List.mem_cons.mp hmem with rfl | hmem
    · exact Or.inl (hu n hn hc)
    · exact Or.inr hmem

theorem congr (P : Pruning base s stack) (hgraph : s'.graph = s.graph) : Pruning base s' stack := by
  obtain ⟨H, hcap, hreach, hdom, hled, hcontrol⟩ := P
  rw [← hgraph] at H hcap hreach hdom hled hcontrol
  exact ⟨H, hcap, hreach, hdom, hled, hcontrol⟩

theorem remove (P : Pruning base s (u :: stack)) {n : Node} (hn : s.graph.get? u = some n) (R : Removes u s s') :
    Pruning base s' (n.successors.reverse ++ stack) := by
  have H := P.shaped
  obtain ⟨D, C⟩ := R.cut
  have hnot := C.not_reach_of_gone H R.gone
  have hsub := C.subFlow H
  have hreach : ∀ c, s'.graph.Reach c ↔ s.graph.Reach c := fun c =>
    ⟨fun hc => hsub.reach H.start_lt hc (R.capacity ▸ hc.lt), C.reach_of_gone H R.gone⟩
  refine ⟨C.shaped H, R.capacity.trans P.capacity, fun c => (hreach c).trans (P.reach c), fun a c hd => ?_, ?_, ?_⟩
  · have hd' := P.dom a c hd
    exact hsub.dom H.start_lt hd' ((hreach c).mpr hd'.reach)
  · intro c m hm hkm hc
    obtain ⟨hcu, l, hl, hkind⟩ := C.old_of_gone R.gone hm
    rcases P.led c l hl (hkind ▸ hkm) hc with ⟨p, hs⟩ | hmem
    · by_cases hpu : p = u
      · subst hpu
        obtain ⟨n', hn', _, _, hmem, _⟩ := hs
        cases hn.symm.trans hn'
        exact Or.inr (List.mem_append_left _ (List.mem_reverse.mpr hmem))
      · exact Or.inl ⟨p, C.step H hs hpu fun he => absurd he hcu⟩
    · exact Or.inr (List.mem_append_right _ ((List.mem_cons.mp hmem).resolve_left hcu))
  · intro c hc m hm
    obtain ⟨_, l, hl, hkind⟩ := C.old_of_gone R.gone hm
    rw [hkind]
    rcases List.mem_append.mp hc with hc | hc
    · rcases H.succ u n hn (P.control u List.mem_cons_self n hn) c (List.mem_reverse.mp hc) with
        ⟨l', hl', hkl, _⟩ | ⟨_, _, hnone⟩
      · cases hl.symm.trans hl'
        exact hkl
      · cases hnone.symm.trans hl
    · exact P.control c (List.mem_cons_of_mem u hc) l hl

end Pruning

theorem mem_liveForwardPredecessors {g : Graph} (H : g.Shaped) {n : Node} (hn : g.get? u = some n)
    (hk : n.kind.isControl = true) {p : NodeId} : p ∈ g.liveForwardPredecessors u ↔ g.Step p u := by
  unfold Graph.liveForwardPredecessors Graph.forwardPredecessors
  simp only [hn, List.mem_filter, Bool.not_eq_true', Bool.and_eq_false_iff, decide_eq_false_iff_not, Graph.isLive_iff]
  constructor
  · rintro ⟨⟨hp, hno⟩, _⟩
    obtain ⟨m, hm, hkm, hs⟩ := H.pred u n hn hk p hp
    refine ⟨m, hm, hkm, fun he => ?_, hs, n, hn⟩
    rcases hno with hno | hno
    · exact hno (H.loopEnd p m hm he u hs n hn)
    · exact hno (Graph.kind?_eq_some_iff.mpr ⟨m, hm, he⟩)
  · intro hs
    obtain ⟨m, hm, _, hl, _⟩ := id hs
    refine ⟨⟨H.mem_predecessors hs hn, Or.inr fun he => ?_⟩, m, hm⟩
    obtain ⟨m', hm', he⟩ := Graph.kind?_eq_some_iff.mp he
    cases hm.symm.trans hm'
    exact hl he

theorem removes_of_removeControl {n : Node} (H : s.graph.Shaped) (hn : s.graph.get? u = some n)
    (hk : n.kind.isControl = true) (hstart : n.kind ≠ .start) (hempty : s.graph.liveForwardPredecessors u = [])
    {a : Unit} (h : removeControl u n.successors s = .ok a s') : Removes u s s' := by
  have hu : u ≠ Graph.start := by
    rintro rfl
    obtain ⟨m, hm, he, _⟩ := H.start
    cases hn.symm.trans hm
    exact hstart he
  obtain ⟨k, E, hgraph, hfloating, _⟩ := removeControl_ok hn (H.nodup_successors hn hk) h
  have hpred : ∀ p ∈ n.predecessors, s.graph.kind? p = some .loopEnd := by
    intro p hp
    obtain ⟨m, hm, hkm, hs⟩ := H.pred u n hn hk p hp
    refine Graph.kind?_eq_some_iff.mpr ⟨m, hm, ?_⟩
    by_contra hl
    have hmem := (mem_liveForwardPredecessors H hn hk).mpr ⟨m, hm, hkm, hl, hs, n, hn⟩
    rw [hempty] at hmem
    cases hmem
  obtain ⟨C, hgone⟩ := Graph.Cut.remove hn hk hu hpred E hgraph
  have hget : ∀ d, s'.graph.get? d = if d ∈ k.guardsAt u ++ k.phisOf u ++ [u] then none else k.get? d := by
    intro d
    rw [hgraph, Graph.get?_foldl_delete]
  refine ⟨⟨_, C⟩, hgone, by rw [hgraph, Graph.capacity_foldl_delete, E.capacity], fun d => ?_⟩
  rw [hfloating, List.mem_append, hget]
  refine or_congr_right ⟨fun hd => ⟨?_, if_pos hd⟩, fun ⟨⟨m, hm⟩, hnone⟩ => ?_⟩
  · have hlive : ∃ l, k.get? d = some l := by
      rw [List.mem_append, List.mem_append, Graph.mem_guardsAt, Graph.mem_phisOf] at hd
      rcases hd with (⟨l, hl, _⟩ | ⟨l, hl, _⟩) | he
      · exact ⟨l, hl⟩
      · exact ⟨l, hl⟩
      · obtain rfl := List.mem_singleton.mp he
        exact E.live d n hn
    obtain ⟨l, hl⟩ := hlive
    obtain ⟨m, hm, _⟩ := E.node d l hl
    exact ⟨m, hm⟩
  · by_contra hd
    obtain ⟨l, hl⟩ := E.live d m hm
    rw [if_neg hd, hl] at hnone
    cases hnone

theorem pruneNode_ok {next : List NodeId} (P : Pruning base s (u :: stack)) (h : pruneNode u s = .ok next s') :
    Pruning base s' (next.reverse ++ stack) ∧
      (s'.graph = s.graph ∧ s'.floating = s.floating ∨ Removes u s s') := by
  have H := P.shaped
  rcases pruneNode_cases h with ⟨hgraph, hfloating, rfl, hled⟩ |
    ⟨n, s₁, hn, hstart, hempty, hgraph, hfloating, hremove, rfl⟩
  · refine ⟨(P.pop fun n hn hu => ?_).congr hgraph, Or.inl ⟨hgraph, hfloating⟩⟩
    have hk := P.control u List.mem_cons_self n hn
    obtain ⟨p, hp⟩ := List.exists_mem_of_ne_nil _ (hled n hn fun he => hu (H.start_only u n hn he))
    exact ⟨p, (mem_liveForwardPredecessors H hn hk).mp hp⟩
  · have hk := P.control u List.mem_cons_self n hn
    obtain ⟨hcut, hgone, hcap, hfloats⟩ :=
      removes_of_removeControl (hgraph ▸ H) (hgraph ▸ hn) hk hstart (hgraph ▸ hempty) hremove
    rw [hgraph] at hcut hcap hfloats
    rw [hfloating] at hfloats
    have R : Removes u s s' := ⟨hcut, hgone, hcap, hfloats⟩
    exact ⟨P.remove hn R, Or.inr R⟩

/-- What is kept when a node goes that is not reached is kept by pruning, and once the stack is empty all
control nodes are reached. -/
theorem prune_ok {Q : Sweep → Prop} (hsame : ∀ s s', Q s → s'.graph = s.graph → s'.floating = s.floating → Q s')
    (hremove : ∀ s s' u, Q s → s.graph.Shaped → ¬base.Reach u → Removes u s s' → Q s') {bound : Nat}
    (P : Pruning base s stack) (hQ : Q s) (hbound : stack.length + edgeCount s.graph ≤ bound) :
    ∃ s', prune bound stack s = .ok () s' ∧ Pruning base s' [] ∧ Q s' := by
  induction bound generalizing s stack with
  | zero =>
    obtain rfl : stack = [] := List.length_eq_zero_iff.mp (by omega)
    exact ⟨s, rfl, P, hQ⟩
  | succ bound ih =>
    cases stack with
    | nil => exact ⟨s, rfl, P, hQ⟩
    | cons u stack =>
      obtain ⟨next, s₁, hu⟩ := pruneNode_succeeds u s
      obtain ⟨P₁, hstep⟩ := pruneNode_ok P hu
      have hQ₁ : Q s₁ := by
        rcases hstep with ⟨hgraph, hfloating⟩ | R
        · exact hsame s s₁ hQ hgraph hfloating
        · obtain ⟨D, C⟩ := R.cut
          have hnot := C.not_reach_of_gone P.shaped R.gone
          exact hremove s s₁ u hQ P.shaped (fun hr => hnot ((P.reach u).mpr hr)) R
      have hless := pruneNode_less hu stack
      obtain ⟨s', hprune, hrest⟩ := ih P₁ hQ₁ (by omega)
      exact ⟨s', Attempt.bind_ok.mpr ⟨next, s₁, hu, hprune⟩, hrest⟩

theorem Pruning.reached (P : Pruning base s []) {c : NodeId} {n : Node} (hn : s.graph.get? c = some n)
    (hk : n.kind.isControl = true) : s.graph.Reach c :=
  P.shaped.reach_of_has_predecessor (fun c n hn hk hc => (P.led c n hn hk hc).resolve_right List.not_mem_nil) hn hk

end Sweep

end GuardElision
