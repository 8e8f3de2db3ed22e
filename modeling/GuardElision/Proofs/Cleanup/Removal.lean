import GuardElision.Proofs.Graph.Turns

namespace GuardElision

namespace Graph

variable {g h : Graph} {u : NodeId}

/-- The edges from `u` to the given targets are taken out. -/
structure Detached (u : NodeId) (targets : List NodeId) (g h : Graph) : Prop where
  classes : h.classes = g.classes
  capacity : h.capacity = g.capacity
  live : ∀ j m, g.get? j = some m → ∃ n, h.get? j = some n
  node : ∀ j n, h.get? j = some n → ∃ m, g.get? j = some m ∧ n.kind = m.kind ∧ n.stamp = m.stamp ∧
    n.anchor = m.anchor ∧ n.guard = m.guard ∧ n.memory = m.memory ∧ (j ≠ u → n.successors = m.successors) ∧
    n.predecessors = (if j ∈ targets then m.predecessors.erase u else m.predecessors) ∧
    (n.kind ≠ .phi → n.inputs = m.inputs)
  phi : ∀ p n t m k, h.get? p = some n → n.kind = .phi → n.anchor = some t → g.get? p = some m → g.get? t = some k →
    (t ∈ targets → u ∈ k.predecessors → n.inputs = m.inputs.eraseIdx (k.predecessors.idxOf u)) ∧
    (t ∉ targets ∨ u ∉ k.predecessors → n.inputs = m.inputs)

theorem Detached.nil (u : NodeId) (g : Graph) : Detached u [] g g := by
  refine ⟨rfl, rfl, fun j m hm => ⟨m, hm⟩, fun j n hn => ⟨n, hn, rfl, rfl, rfl, rfl, rfl, fun _ => rfl, by simp, fun _ => rfl⟩,
    fun p n t m k hn _ _ hm _ => ?_⟩
  cases hn.symm.trans hm
  simp

theorem Detached.congr {A B : List NodeId} (hAB : ∀ t, t ∈ A ↔ t ∈ B) (E : Detached u A g h) : Detached u B g h := by
  obtain ⟨hclasses, hcap, hlive, hnode, hphi⟩ := E
  simp only [hAB] at hnode hphi
  exact ⟨hclasses, hcap, hlive, hnode, hphi⟩

theorem Detached.step {k : Graph} {targets : List NodeId} {t : NodeId} {n : Node} (E : Detached u targets g h)
    (ht : t ∉ targets) (hn : h.get? u = some n) (hmem : t ∈ n.successors) (hd : h.detachEdge u t = .ok k) :
    Detached u (t :: targets) g k ∧ ∃ n', k.get? u = some n' ∧ n'.successors = n.successors.erase t := by
  obtain ⟨n', hn', hclasses, hcap, ⟨_, hget⟩ | ⟨hno, _⟩⟩ := detachEdge_ok hd
  · cases hn.symm.trans hn'
    have hview : ∀ j m, k.get? j = some m → ∃ l, h.get? j = some l ∧
        m = withoutEdge u t (h.predecessorIndex? u t) j l := by
      intro j m hm
      rw [hget] at hm
      obtain ⟨l, hl, rfl⟩ := Option.map_eq_some_iff.mp hm
      exact ⟨l, hl, rfl⟩
    refine ⟨⟨hclasses.trans E.classes, hcap.trans E.capacity, fun j m hm => ?_, fun j m hm => ?_, ?_⟩,
      _, by rw [hget, hn]; rfl, by simp [withoutEdge]⟩
    · obtain ⟨l, hl⟩ := E.live j m hm
      exact ⟨_, by rw [hget, hl]; rfl⟩
    · obtain ⟨l, hl, rfl⟩ := hview j m hm
      obtain ⟨m', hm', hkind, hstamp, hanchor, hguard, hmemory, hsucc, hpred, hinputs⟩ := E.node j l hl
      refine ⟨m', hm', hkind, hstamp, hanchor, hguard, hmemory, fun hj => ?_, ?_, fun hphi => ?_⟩
      · simpa [withoutEdge, hj] using hsucc hj
      · by_cases hjt : j = t
        · subst hjt
          rw [if_neg ht] at hpred
          simp [withoutEdge, hpred]
        · simpa [withoutEdge, hjt] using hpred
      · have hphi' : l.kind ≠ .phi := hphi
        rw [inputs_withoutEdge (Or.inl hphi')]
        exact hinputs hphi'
    · intro p m a m' l hm hphi ha hm' hl
      obtain ⟨l', hl', rfl⟩ := hview p m hm
      have hphi' : l'.kind = .phi := hphi
      have ha' : l'.anchor = some a := ha
      obtain ⟨hcut, hsame⟩ := E.phi p l' a m' l hl' hphi' ha' hm' hl
      by_cases hat : a = t
      · subst hat
        obtain ⟨k', hk'⟩ := E.live a l hl
        obtain ⟨_, hl₂, _, _, _, _, _, _, hpred, _⟩ := E.node a k' hk'
        cases hl.symm.trans hl₂
        rw [if_neg ht] at hpred
        have hin := hsame (Or.inl ht)
        refine ⟨fun _ hu => ?_, fun hno => ?_⟩
        · rw [predecessorIndex?_of_mem hk' (hpred ▸ hu), hpred, inputs_withoutEdge_phi hphi' ha', hin]
        · have hu : u ∉ l.predecessors := hno.resolve_left (by simp)
          rw [inputs_withoutEdge (Or.inr (Or.inr ?_)), hin]
          rw [predecessorIndex?_of_get? hk', List.idxOf?_eq_none_iff, hpred]
          exact hu
      · have hin : (withoutEdge u t (h.predecessorIndex? u t) p l').inputs = l'.inputs := by
          refine inputs_withoutEdge (Or.inr (Or.inl fun he => hat ?_))
          exact Option.some.inj (ha'.symm.trans he)
        rw [hin]
        exact ⟨fun hmem => hcut (by simpa [hat] using hmem), fun hno => hsame (by simpa [hat] using hno)⟩
  · cases hn.symm.trans hn'
    exact absurd hmem hno

/-- Removing a control node that nothing leads to but the ends of its loop. -/
theorem Cut.remove {n : Node} (hn : g.get? u = some n) (hk : n.kind.isControl = true) (hu : u ≠ start)
    (hpred : ∀ p ∈ n.predecessors, g.kind? p = some .loopEnd) {k : Graph} (E : Detached u n.successors g k)
    (hh : h = (k.guardsAt u ++ k.phisOf u ++ [u]).foldl delete k) :
    Cut u (· ∈ n.successors) g h ∧ h.get? u = none := by
  have hget : ∀ j, h.get? j = if j ∈ k.guardsAt u ++ k.phisOf u ++ [u] then none else k.get? j := fun j =>
    hh ▸ get?_foldl_delete _ k j
  have hgone : h.get? u = none := by simp [hget]
  have hnode : ∀ j m, h.get? j = some m → k.get? j = some m := by
    intro j m hm
    rw [hget] at hm
    split at hm
    · cases hm
    · exact hm
  refine ⟨⟨?_, ?_, fun j m hm _ hj => ?_, fun p m t m' l hm hphi ha hm' hl => ?_, fun m hm => ?_, fun j m hm hnone => ?_,
    fun _ => ⟨hu, fun m hm => ?_⟩, fun c m hm hge => ?_, fun c m hm hge => ?_, fun m l hm hl => ?_,
    fun _ p m hm hphi ha => ?_⟩, hgone⟩
  · rw [hh, classes_foldl_delete, E.classes]
  · rw [hh, capacity_foldl_delete, E.capacity]
  · obtain ⟨l, hl, hkind, hstamp, hanchor, hguard, hmemory, hsucc, hpreds, hinputs⟩ := E.node j m (hnode j m hm)
    exact ⟨l, hl, hkind, hstamp, hanchor, hguard, hmemory, hsucc hj, hinputs, fun hD => by rw [hpreds, if_pos hD],
      fun hD => by rw [hpreds, if_neg hD]⟩
  · obtain ⟨hcut, hsame⟩ := E.phi p m t m' l (hnode p m hm) hphi ha hm' hl
    exact ⟨fun hD hmem => Or.inl (hcut hD hmem), hsame⟩
  · cases hgone.symm.trans hm
  · obtain ⟨l, hl⟩ := E.live j m hm
    obtain ⟨m', hm', hkind, _, hanchor, _⟩ := E.node j l hl
    cases hm.symm.trans hm'
    have hmem : j ∈ k.guardsAt u ++ k.phisOf u ++ [u] := by
      by_contra hno
      rw [hget, if_neg hno, hl] at hnone
      cases hnone
    rw [List.mem_append, List.mem_append, mem_guardsAt, mem_phisOf] at hmem
    rcases hmem with (⟨l', hl', hg, ha⟩ | ⟨l', hl', hphi, ha⟩) | he
    · cases hl.symm.trans hl'
      exact Or.inl ⟨hkind ▸ hg, hanchor ▸ ha⟩
    · cases hl.symm.trans hl'
      exact Or.inr ⟨hgone, Or.inr ⟨hkind ▸ hphi, hanchor ▸ ha⟩⟩
    · exact Or.inr ⟨hgone, Or.inl (List.mem_singleton.mp he)⟩
  · cases hn.symm.trans hm
    exact ⟨hk, fun s hs => hs, hpred⟩
  · obtain ⟨l, hl, _⟩ := E.node c m (hnode c m hm)
    exact absurd (lt_capacity hl) (Nat.not_lt.mpr hge)
  · obtain ⟨l, hl, _⟩ := E.node c m (hnode c m hm)
    exact absurd (lt_capacity hl) (Nat.not_lt.mpr hge)
  · cases hgone.symm.trans hm
  · have hp : p ∈ k.guardsAt u ++ k.phisOf u ++ [u] := by
      have hphis : p ∈ k.phisOf u := mem_phisOf.mpr ⟨m, hnode p m hm, hphi, ha⟩
      simp [hphis]
    rw [hget, if_pos hp] at hm
    cases hm

end Graph

end GuardElision
