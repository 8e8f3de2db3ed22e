import GuardElision.Proofs.Cleanup.Reached

namespace GuardElision

namespace Graph

variable {g : Graph} {y : NodeId} {n : Node}

variable {h : Graph} {p q : Node → Bool}

theorem length_select_le (hsub : ∀ x m, h.get? x = some m → q m = true → ∃ n, g.get? x = some n ∧ p n = true) :
    (h.select q).length ≤ (g.select p).length := by
  refine (List.subperm_of_subset ((select_sorted h q).imp Nat.ne_of_lt) fun x hx => ?_).length_le
  obtain ⟨m, hm, hq⟩ := mem_select.mp hx
  exact mem_select.mpr (hsub x m hm hq)

theorem length_select_lt (hsub : ∀ x m, h.get? x = some m → q m = true → ∃ n, g.get? x = some n ∧ p n = true)
    (hn : g.get? y = some n) (hp : p n = true) (hy : ∀ m, h.get? y = some m → q m = false) :
    (h.select q).length < (g.select p).length := by
  have hnot : y ∉ h.select q := by
    intro hmem
    obtain ⟨m, hm, hq⟩ := mem_select.mp hmem
    exact absurd hq (by simp [hy m hm])
  have hsubset : y :: h.select q ⊆ g.select p := by
    refine List.cons_subset.mpr ⟨mem_select.mpr ⟨n, hn, hp⟩, fun x hx => ?_⟩
    obtain ⟨m, hm, hq⟩ := mem_select.mp hx
    exact mem_select.mpr (hsub x m hm hq)
  have hnodup : (y :: h.select q).Nodup := List.nodup_cons.mpr ⟨hnot, (select_sorted h q).imp Nat.ne_of_lt⟩
  exact (List.subperm_of_subset hnodup hsubset).length_le

theorem liveCount_foldl_delete_lt {ids : List NodeId} (hy : y ∈ ids) (hn : g.get? y = some n) :
    (ids.foldl Graph.delete g).liveCount < g.liveCount := by
  refine length_select_lt (fun x m hm _ => ?_) hn rfl fun m hm => ?_
  · rw [get?_foldl_delete] at hm
    split at hm
    next => cases hm
    next => exact ⟨m, hm, rfl⟩
  · rw [get?_foldl_delete, if_pos hy] at hm
    cases hm

theorem liveCount_delete (hn : g.get? y = some n) : (g.delete y).liveCount + 1 ≤ g.liveCount := by
  change ([y].foldl Graph.delete g).liveCount < g.liveCount
  exact liveCount_foldl_delete_lt List.mem_cons_self hn

/-- What is gone is on the stack if a floating node depends on it. -/
def Noted (g : Graph) (stack : List NodeId) : Prop :=
  ∀ x n d, g.get? x = some n → n.kind.isControl = false → d ∈ n.dependencies → g.get? d = none → d ∈ stack

end Graph

namespace Sweep

variable {s : Sweep} {d : NodeId} {ids stack : List NodeId}

theorem dropOrphan_of_isOrphan {work : Sweep × List NodeId} {y : NodeId} (h : isOrphan work.1.graph y = true) :
    dropOrphan work y =
      ({ work.1 with graph := work.1.graph.delete y, changes := work.1.changes.note y }, y :: work.2) :=
  if_pos h

/-- A node that is put on the stack was alive. -/
theorem foldl_dropOrphan_count (ids : List NodeId) (work : Sweep × List NodeId) :
    (ids.foldl dropOrphan work).2.length + (ids.foldl dropOrphan work).1.graph.liveCount ≤
      work.2.length + work.1.graph.liveCount := by
  induction ids generalizing work with
  | nil => exact Nat.le_refl _
  | cons y ids ih =>
    refine Nat.le_trans (ih (dropOrphan work y)) ?_
    by_cases horphan : isOrphan work.1.graph y = true
    · obtain ⟨m, hm, _⟩ := isOrphan_iff.mp horphan
      have hcount := Graph.liveCount_delete hm
      rw [dropOrphan_of_isOrphan horphan]
      simp only [List.length_cons]
      omega
    · exact Nat.le_of_eq (by rw [dropOrphan, if_neg horphan])

theorem foldl_dropOrphan_noted (work : Sweep × List NodeId)
    (hnoted : ∀ x n e, work.1.graph.get? x = some n → n.kind.isControl = false → e ∈ n.dependencies →
      work.1.graph.get? e = none → e ∈ work.2 ∨ e = d ∧ x ∈ ids) :
    (ids.foldl dropOrphan work).1.graph.Noted (ids.foldl dropOrphan work).2 := by
  induction ids generalizing work with
  | nil =>
    intro x n e hn hk he hnone
    exact (hnoted x n e hn hk he hnone).resolve_right fun h => List.not_mem_nil h.2
  | cons y ids ih =>
    rw [List.foldl_cons]
    by_cases horphan : isOrphan work.1.graph y = true
    · rw [dropOrphan_of_isOrphan horphan]
      refine ih _ fun x n e hn hk he hnone => ?_
      simp only [Graph.get?_delete] at hn hnone
      split at hn
      next => cases hn
      next hxy =>
        split at hnone
        next hey => exact Or.inl (hey ▸ List.mem_cons_self)
        next =>
          rcases hnoted x n e hn hk he hnone with hin | ⟨hd, hx⟩
          · exact Or.inl (List.mem_cons_of_mem y hin)
          · exact Or.inr ⟨hd, (List.mem_cons.mp hx).resolve_left hxy⟩
    · have hwork : dropOrphan work y = work := if_neg horphan
      rw [hwork]
      refine ih work fun x n e hn hk he hnone => ?_
      refine (hnoted x n e hn hk he hnone).imp_right fun ⟨hd, hx⟩ => ⟨hd, (List.mem_cons.mp hx).resolve_left ?_⟩
      rintro rfl
      exact horphan (isOrphan_iff.mpr ⟨n, hn, hk, e, he, hnone⟩)

theorem dropOrphans_noted {bound : Nat} (hbound : stack.length + s.graph.liveCount ≤ bound)
    (hnoted : s.graph.Noted stack) : (dropOrphans bound stack s).graph.Noted [] := by
  induction bound generalizing stack s with
  | zero =>
    obtain rfl : stack = [] := List.length_eq_zero_iff.mp (by omega)
    exact hnoted
  | succ bound ih =>
    cases stack with
    | nil => exact hnoted
    | cons d stack =>
      have hstart : ∀ x n e, s.graph.get? x = some n → n.kind.isControl = false → e ∈ n.dependencies →
          s.graph.get? e = none → e ∈ stack ∨ e = d ∧ x ∈ if s.graph.isLive d then [d] else s.graph.usages d := by
        intro x n e hn hk he hnone
        rcases List.mem_cons.mp (hnoted x n e hn hk he hnone) with rfl | hin
        · refine Or.inr ⟨rfl, ?_⟩
          have hdead : ¬s.graph.isLive e = true := by simp [Graph.isLive, hnone]
          rw [if_neg hdead]
          exact Graph.mem_usages.mpr ⟨n, hn, he⟩
        · exact Or.inl hin
      refine ih (Nat.le_trans (foldl_dropOrphan_count _ (s, stack)) ?_) (foldl_dropOrphan_noted (s, stack) hstart)
      show stack.length + s.graph.liveCount ≤ bound
      simp only [List.length_cons] at hbound
      omega

end Sweep

end GuardElision
