import GuardElision.Cleanup.Changes
import GuardElision.Proofs.Graph.Links

namespace GuardElision

namespace Graph

variable {g h : Graph} {c s u : NodeId} {m n : Node}

/-- The node `u` gave up edges, and may lead to nodes that were added. -/
structure CutAt (u : NodeId) (g h : Graph) : Prop where
  capacity : g.capacity ≤ h.capacity
  start : ∀ n, g.get? Graph.start = some n → ∃ m, h.get? Graph.start = some m
  sub : ∀ c s, h.Step c s → s < g.capacity → g.Step c s
  keep : ∀ c s, c ≠ u → g.Step c s → h.Step c s
  guard : NoNewGuard g h

namespace CutAt

theorem refl (u : NodeId) (g : Graph) : CutAt u g g :=
  ⟨Nat.le_refl _, fun n hn => ⟨n, hn⟩, fun _ _ hs _ => hs, fun _ _ _ hs => hs, .refl g⟩

variable (C : CutAt u g h)

include C

/-- What is reached around `u` is reached still. -/
theorem reach (ha : g.forwardFlow.Avoids Graph.start u c) : h.Reach c := by
  obtain ⟨p, hp, hu⟩ := ha
  induction hp with
  | nil hlt => exact .start (Nat.lt_of_lt_of_le hlt C.capacity)
  | @snoc b c p hp hs _ ih =>
    have hp' : u ∉ p := fun hm => hu (List.mem_cons_of_mem c hm)
    exact (ih hp').step (C.keep b c (fun he => hp' (he ▸ hp.target_mem)) (mem_forwardSuccessors.mp hs))

theorem dom {a b : NodeId} (hd : g.Dom a b) (hb : h.Reach b) : h.Dom a b := by
  refine hd.of_sub hd.reach.start_lt (fun c s _ hs hlt => ?_) hb
  have hs' := C.sub c s hs hlt
  obtain ⟨n, hn, _⟩ := id hs'
  exact ⟨lt_capacity hn, hs'⟩

theorem aside {k : Graph} (A : Aside h k) (H : h.Linked) : CutAt u g k := by
  refine ⟨A.capacity ▸ C.capacity, fun n hn => ?_, fun c s hs => C.sub c s (A.step hs),
    fun c s hc hs => (A.step_iff H).mpr (C.keep c s hc hs), C.guard.trans (A.sameFlow H).guard⟩
  obtain ⟨m, hm⟩ := C.start n hn
  exact (A.sameFlow H).start m hm

end CutAt

theorem CutAt.withoutEdge {target : NodeId} {index? : Option Nat} (hcap : h.capacity = g.capacity)
    (hview : ∀ j, h.get? j = (g.get? j).map (withoutEdge u target index? j)) : CutAt u g h := by
  refine ⟨Nat.le_of_eq hcap.symm, fun n hn => ⟨_, by rw [hview, hn]; rfl⟩, fun c s hs _ => ?_,
    fun c s hc hs => (step_withoutEdge_iff hview hc).mpr hs, fun q n hn hg => ?_⟩
  · by_cases hc : c = u
    · subst hc
      obtain ⟨n, hn, hk, hl, hmem, m, hm⟩ := hs
      obtain ⟨n₀, hn₀, rfl⟩ := exists_of_withoutEdge hview hn
      obtain ⟨m₀, hm₀, -⟩ := exists_of_withoutEdge hview hm
      simp only [Graph.withoutEdge, ↓reduceIte] at hmem
      exact ⟨n₀, hn₀, hk, hl, List.mem_of_mem_erase hmem, m₀, hm₀⟩
    · exact (step_withoutEdge_iff hview hc).mp hs
  · obtain ⟨m, hm, rfl⟩ := exists_of_withoutEdge hview hn
    exact ⟨m, hm, hg⟩

theorem sameSort_branch_begin : SameSort .branch .begin :=
  ⟨rfl, by simp, by simp, by simp, rfl⟩

/-- Folding a branch takes out one edge, and makes the branch a plain step. -/
theorem foldBranch_steps {truth : Bool} {folded : FoldedBranch} (hf : g.foldBranch u truth = .ok (folded, h)) :
    ∃ (n : Node) (k : Graph), g.get? u = some n ∧ n.kind = .branch ∧ folded.dead ∈ n.successors ∧
      k.capacity = g.capacity ∧ (∀ j, k.get? j = (g.get? j).map (withoutEdge u folded.dead none j)) ∧ Aside k h ∧
      ∀ m, h.get? u = some m → m.kind = .begin := by
  obtain ⟨n, hn, hf⟩ := except_bind_ok.mp hf
  have hn := node_eq_ok_iff.mp hn
  obtain ⟨_, hk, hf⟩ := except_bind_ok.mp hf
  have hk : n.kind = .branch := of_decide_eq_true (ensure_ok.mp hk)
  split at hf
  next yes no hsucc =>
    obtain ⟨⟨index?, k⟩, hedge, hf⟩ := except_bind_ok.mp hf
    obtain ⟨rfl, rfl⟩ := Prod.mk.inj (Except.ok.inj hf)
    have hmem : (if truth then (⟨yes, no⟩ : FoldedBranch) else ⟨no, yes⟩).dead ∈ n.successors := by
      cases truth <;> simp [hsucc]
    obtain ⟨n', hn', _, hcap, ⟨_, _, hview⟩ | ⟨hno, _⟩⟩ := removeEdge_ok hedge
    · refine ⟨n, k, hn, hk, hmem, hcap, hview, .setKind fun m hm => ?_, fun m hm => ?_⟩
      · obtain ⟨n', hn', rfl⟩ := exists_of_withoutEdge hview hm
        cases hn.symm.trans hn'
        exact hk ▸ sameSort_branch_begin
      · rw [get?_setKind] at hm
        obtain ⟨l, _, rfl⟩ := Option.map_eq_some_iff.mp hm
        simp
    · cases hn.symm.trans hn'
      exact absurd hmem hno
  next => cases hf

section FoldBranch

variable {truth : Bool} {folded : FoldedBranch} (H : g.Linked) (hf : g.foldBranch u truth = .ok (folded, h))

include H hf

theorem foldBranch_linked : h.Linked := by
  obtain ⟨n, k, _, _, _, hcap, hview, A, _⟩ := foldBranch_steps hf
  exact (H.withoutEdge hcap hview).lighter A.toLighter

theorem foldBranch_cutAt : CutAt u g h := by
  obtain ⟨n, k, _, _, _, hcap, hview, A, _⟩ := foldBranch_steps hf
  exact (CutAt.withoutEdge hcap hview).aside A (H.withoutEdge hcap hview)

theorem foldBranch_sameFlow (hno : ¬g.Reach u) : SameFlow g h := by
  obtain ⟨n, k, _, _, _, hcap, hview, A, _⟩ := foldBranch_steps hf
  exact (SameFlow.withoutEdge hcap hview hno).trans (A.sameFlow (H.withoutEdge hcap hview))

end FoldBranch

/-- A node that is no branch, or that nothing leads to. -/
def Loose (g : Graph) (c : NodeId) : Prop :=
  ∀ n, g.get? c = some n → n.kind = .branch → n.predecessors = []

/-- A node that loses its edges stays loose. -/
theorem Loose.withoutEdge {source target : NodeId} {index? : Option Nat} (hc : g.Loose c)
    (hview : ∀ j, h.get? j = (g.get? j).map (Graph.withoutEdge source target index? j)) : h.Loose c := by
  intro n hn hk
  obtain ⟨m, hm, rfl⟩ := exists_of_withoutEdge hview hn
  have hnil := hc m hm hk
  simp [Graph.withoutEdge, hnil]

theorem Loose.lighter (hc : g.Loose c) (L : Lighter g h) : h.Loose c := by
  intro n hn hk
  obtain ⟨m, hm, hsort, _, _, hpred⟩ := L.node c n hn
  exact hpred.trans (hc m hm (hsort.branch hk))

theorem Loose.not_reach (hc : g.Loose c) (H : g.Linked) (hn : g.get? c = some n) (hk : n.kind = .branch) : ¬g.Reach c :=
  H.not_reach hn (by simp [hk]) fun _ _ => by simp [hc n hn hk]

theorem loose_of_withoutEdge {target : NodeId} {index? : Option Nat} (H : g.Linked) (hm : g.get? u = some m)
    (hk : m.kind.isControl = true) (hmem : target ∈ m.successors)
    (hview : ∀ j, h.get? j = (g.get? j).map (withoutEdge u target index? j)) : h.Loose target := by
  intro n hn hb
  obtain ⟨n₀, hn₀, rfl⟩ := exists_of_withoutEdge hview hn
  simp [withoutEdge, H.predecessors_eq hm hk hmem hn₀ hb]

theorem foldBranch_loose {truth : Bool} {folded : FoldedBranch} (H : g.Linked)
    (hf : g.foldBranch u truth = .ok (folded, h)) :
    h.Loose u ∧ h.Loose folded.dead ∧ ∀ c, g.Loose c → h.Loose c := by
  obtain ⟨n, k, hn, hk, hmem, _, hview, A, hbegin⟩ := foldBranch_steps hf
  refine ⟨fun m hm hb => ?_, ?_, fun c hc => (hc.withoutEdge hview).lighter A.toLighter⟩
  · rw [hbegin m hm] at hb
    cases hb
  · exact (loose_of_withoutEdge H hn (by simp [hk, Kind.isControl]) hmem hview).lighter A.toLighter

section Strengthen

variable {guard : NodeId} {reason : Reason} {r : Strengthened} (H : g.Linked)
  (hs : g.strengthenGuard u guard reason = .ok (r, h))

include H hs

theorem strengthenGuard_old {j : NodeId} (hj : j < g.capacity) (hn : h.get? j = some n) :
    ∃ m, g.get? j = some m ∧ j ∉ r.removed ∧ n.kind = m.kind ∧ n.anchor = m.anchor ∧
      n.successors = (if j = u then g.capacity :: m.successors.tail else m.successors) ∧
      n.predecessors = (if r.detached = some j then m.predecessors.erase u else m.predecessors) := by
  obtain ⟨_, _, _, _, _, _, _, hview⟩ := strengthenGuard_ok (fun n hn => H.inside u n hn) hs
  rw [hview] at hn
  split at hn
  next => cases hn
  next hno =>
    rw [if_neg (Nat.ne_of_lt hj)] at hn
    obtain ⟨m, hm, rfl⟩ := Option.map_eq_some_iff.mp hn
    refine ⟨m, hm, hno, ?_⟩
    cases r.detached with
    | none => simp
    | some old => simp [withoutEdge, eq_comm]

theorem strengthenGuard_new :
    ∃ n, g.get? u = some n ∧ r.detached = n.successors.head? ∧ h.capacity = g.capacity + 1 ∧
      h.get? g.capacity = some { kind := .deoptimize reason, synthetic := true, predecessors := [u] } ∧
      (∀ j, j ∈ r.removed ↔ j ∈ g.guardsAt u ∧ guard ≤ j) ∧ ∀ j ∈ r.removed, h.get? j = none := by
  obtain ⟨n, hn, _, hdetached, hremoved, _, hcap, hview⟩ := strengthenGuard_ok (fun n hn => H.inside u n hn) hs
  refine ⟨n, hn, hdetached, hcap, ?_, hremoved, fun j hj => by rw [hview, if_pos hj]⟩
  have hno : g.capacity ∉ r.removed := by
    rw [hremoved, mem_guardsAt, get?_capacity]
    simp
  rw [hview, if_neg hno, if_pos rfl]

theorem strengthenGuard_cases {j : NodeId} (hn : h.get? j = some n) : j = g.capacity ∨ j < g.capacity := by
  obtain ⟨_, _, _, hcap, _⟩ := strengthenGuard_new H hs
  have hlt := lt_capacity hn
  rw [hcap] at hlt
  exact (Nat.lt_or_eq_of_le (Nat.le_of_lt_succ hlt)).symm

theorem strengthenGuard_successors {j t : NodeId} (hj : j < g.capacity) (hn : h.get? j = some n) (ht : t ∈ n.successors)
    (hlt : t < g.capacity) : ∃ m, g.get? j = some m ∧ n.kind = m.kind ∧ t ∈ m.successors := by
  obtain ⟨m, hm, _, hkind, _, hsucc, _⟩ := strengthenGuard_old H hs hj hn
  refine ⟨m, hm, hkind, ?_⟩
  rw [hsucc] at ht
  split at ht
  · rcases List.mem_cons.mp ht with rfl | ht
    · exact absurd hlt (Nat.lt_irrefl _)
    · exact List.mem_of_mem_tail ht
  · exact ht

theorem strengthenGuard_alive (hm : g.get? c = some m) (hk : m.kind.isControl = true) : ∃ n, h.get? c = some n := by
  obtain ⟨_, _, _, _, hremoved, _, _, hview⟩ := strengthenGuard_ok (fun n hn => H.inside u n hn) hs
  have hno : c ∉ r.removed := by
    intro hc
    obtain ⟨m', hm', hg, _⟩ := mem_guardsAt.mp ((hremoved c).mp hc).1
    cases hm.symm.trans hm'
    rw [Kind.isControl_of_isGuard hg] at hk
    cases hk
  rw [hview, if_neg hno, if_neg (Nat.ne_of_lt (lt_capacity hm)), hm]
  exact ⟨_, rfl⟩

theorem strengthenGuard_linked : h.Linked := by
  obtain ⟨n₀, hn₀, hdetached, hcap, htrap, _, _⟩ := strengthenGuard_new H hs
  have hu := lt_capacity hn₀
  refine ⟨fun n hn => ?_, fun c n hn s hs' => ?_, fun c n hn hk s hs' m hm => ?_, fun c n hn hk s m hm => ?_,
    fun c n hn hk => ?_⟩
  · obtain ⟨m, hm, _, hkind, _⟩ := strengthenGuard_old H hs (Nat.lt_of_le_of_lt (Nat.zero_le u) hu) hn
    exact hkind.trans (H.start m hm)
  · rcases strengthenGuard_cases H hs hn with rfl | hc
    · cases htrap.symm.trans hn
      cases hs'
    · obtain ⟨m, hm, _, _, _, hsucc, _⟩ := strengthenGuard_old H hs hc hn
      rw [hsucc] at hs'
      have hin := H.inside c m hm s
      rw [hcap]
      split at hs'
      · rcases List.mem_cons.mp hs' with rfl | hs'
        · exact Nat.lt_succ_self _
        · exact Nat.lt_succ_of_lt (hin (List.mem_of_mem_tail hs'))
      · exact Nat.lt_succ_of_lt (hin hs')
  · rcases strengthenGuard_cases H hs hm with rfl | hslt
    · cases htrap.symm.trans hm
      rfl
    · rcases strengthenGuard_cases H hs hn with rfl | hc
      · cases htrap.symm.trans hn
        cases hs'
      · obtain ⟨n', hn', hkind, hmem⟩ := strengthenGuard_successors H hs hc hn hs' hslt
        obtain ⟨m', hm', _, hkind', _⟩ := strengthenGuard_old H hs hslt hm
        exact hkind' ▸ H.control c n' hn' (hkind ▸ hk) s hmem m' hm'
  · rcases strengthenGuard_cases H hs hn with rfl | hc
    · cases htrap.symm.trans hn
      simp
    · obtain ⟨n', hn', _, hkind, _, hsucc, _⟩ := strengthenGuard_old H hs hc hn
      rcases strengthenGuard_cases H hs hm with rfl | hslt
      · cases htrap.symm.trans hm
        have hnone : n'.successors.count g.capacity = 0 :=
          List.count_eq_zero_of_not_mem fun hmem => Nat.lt_irrefl _ (H.inside c n' hn' _ hmem)
        have htail : n'.successors.tail.count g.capacity = 0 :=
          Nat.le_zero.mp (hnone ▸ (List.tail_sublist _).count_le _)
        rw [hsucc]
        split
        next hcu => simp [htail, hcu]
        next => simp [hnone]
      · obtain ⟨m', hm', _, _, _, _, hpred⟩ := strengthenGuard_old H hs hslt hm
        have hcount := H.recorded c n' hn' (hkind ▸ hk) s m' hm'
        rw [hsucc, hpred]
        split
        next hcu =>
          subst hcu
          cases hn₀.symm.trans hn'
          have hne : g.capacity ≠ s := Nat.ne_of_gt hslt
          rw [List.count_cons_of_ne hne]
          cases hl : n₀.successors with
          | nil => simp
          | cons old rest =>
            rw [hl] at hcount hdetached
            rw [hdetached]
            simp only [List.head?_cons, Option.some.injEq, List.tail_cons]
            split
            next hos =>
              subst hos
              rw [List.count_erase_self]
              simp only [List.count_cons_self] at hcount
              omega
            next hos =>
              rwa [List.count_cons_of_ne hos] at hcount
        next hcu =>
          split
          · rwa [List.count_erase_of_ne hcu]
          · exact hcount
  · rcases strengthenGuard_cases H hs hn with rfl | hc
    · cases htrap.symm.trans hn
      simp
    · obtain ⟨m, hm, _, hkind, _, _, hpred⟩ := strengthenGuard_old H hs hc hn
      refine Nat.le_trans ?_ (H.branch c m hm (hkind ▸ hk))
      rw [hpred]
      split
      · exact List.length_erase_le
      · exact Nat.le_refl _

theorem strengthenGuard_keep (hc : c ≠ u ∨ r.detached = none) (hstep : g.Step c s) : h.Step c s := by
  obtain ⟨m, hm, hk, hl, hmem, k, hk'⟩ := hstep
  obtain ⟨n, hn⟩ := strengthenGuard_alive H hs hm hk
  obtain ⟨m', hm', _, hkind, _, hsucc, _⟩ := strengthenGuard_old H hs (lt_capacity hm) hn
  cases hm.symm.trans hm'
  have hcu : c ≠ u := by
    refine hc.elim id fun hnone => ?_
    rintro rfl
    obtain ⟨n₀, hn₀, hdetached, _⟩ := strengthenGuard_new H hs
    cases hm.symm.trans hn₀
    rw [hnone, eq_comm, List.head?_eq_none_iff] at hdetached
    simp [hdetached] at hmem
  rw [if_neg hcu] at hsucc
  exact ⟨n, hn, hkind ▸ hk, hkind ▸ hl, hsucc ▸ hmem,
    strengthenGuard_alive H hs hk' (H.control c m hm hk s hmem k hk')⟩

theorem strengthenGuard_cutAt : CutAt u g h := by
  obtain ⟨n₀, hn₀, _, hcap, htrap, _, _⟩ := strengthenGuard_new H hs
  refine ⟨hcap ▸ Nat.le_succ _, fun n hn => ?_, fun c s hstep hslt => ?_,
    fun c s hc => strengthenGuard_keep H hs (.inl hc), fun q n hn hg => ?_⟩
  · exact strengthenGuard_alive H hs hn (by rw [H.start n hn]; rfl)
  · obtain ⟨n, hn, hk, hl, hmem, k, hk'⟩ := hstep
    rcases strengthenGuard_cases H hs hn with rfl | hc
    · cases htrap.symm.trans hn
      cases hmem
    · obtain ⟨m, hm, hkind, hmem⟩ := strengthenGuard_successors H hs hc hn hmem hslt
      obtain ⟨k', hk', _⟩ := strengthenGuard_old H hs hslt hk'
      exact ⟨m, hm, hkind ▸ hk, hkind ▸ hl, hmem, k', hk'⟩
  · rcases strengthenGuard_cases H hs hn with rfl | hq
    · cases htrap.symm.trans hn
      cases hg
    · obtain ⟨m, hm, _, hkind, _⟩ := strengthenGuard_old H hs hq hn
      exact ⟨m, hm, hkind ▸ hg⟩

theorem strengthenGuard_loose (hu : ∀ n, g.get? u = some n → n.kind.isControl = true) :
    ∀ c ∈ r.removed ++ r.detached.toList, h.Loose c := by
  obtain ⟨n₀, hn₀, hdetached, _, _, _, hgone⟩ := strengthenGuard_new H hs
  intro c hc n hn hk
  rcases List.mem_append.mp hc with hc | hc
  · rw [hgone c hc] at hn
    cases hn
  · have hd : r.detached = some c := by simpa using hc
    have hmem : c ∈ n₀.successors := List.mem_of_head? (hdetached ▸ hd)
    obtain ⟨m, hm, _, hkind, _, _, hpred⟩ := strengthenGuard_old H hs (H.inside u n₀ hn₀ c hmem) hn
    rw [hpred, if_pos hd, H.predecessors_eq hn₀ (hu n₀ hn₀) hmem hm (hkind ▸ hk)]
    simp

end Strengthen

end Graph

end GuardElision
