import GuardElision.Proofs.Elimination.Steps

namespace GuardElision

namespace Graph

/-- An edit of guards only: some go, some get another test, and other nodes may get another guard. -/
structure GuardEdit (source : NodeId → NodeId) (g h : Graph) : Prop where
  classes : h.classes = g.classes
  node : ∀ j n, h.get? j = some n → ∃ m, g.get? j = some m ∧ m.stamp = n.stamp ∧ m.anchor = n.anchor ∧
    m.memory = n.memory ∧ m.successors = n.successors ∧ m.predecessors = n.predecessors ∧
    (m.guard = none → n.guard = none) ∧ m.kind.isGuard = n.kind.isGuard ∧
    (n.kind.isGuard = false → m.kind = n.kind ∧ m.inputs = n.inputs)
  live : ∀ j m, g.get? j = some m → m.kind.isGuard = false → ∃ n, h.get? j = some n
  guard : ∀ q n, h.get? q = some n → n.kind.isGuard = true → ∃ m, g.get? (source q) = some m ∧
    m.kind = n.kind ∧ m.anchor = n.anchor ∧ m.inputs = n.inputs

variable {g h : Graph} {a q r o : NodeId}

theorem GuardEdit.drop (hq : q ∈ g.guardsAt a) : GuardEdit id g ((g.replaceGuard q (some o)).delete q) := by
  refine ⟨rfl, fun j n hn => ?_, fun j m hm hg => ?_, fun j n hn _ => ?_⟩
  · obtain ⟨_, m, hm, rfl⟩ := get?_dropGuard_iff.mp hn
    exact ⟨m, hm, rfl, rfl, rfl, rfl, rfl, fun h => by simp [h], rfl, fun _ => ⟨rfl, rfl⟩⟩
  · have hj : j ≠ q := by
      rintro rfl
      obtain ⟨n, hn, hk, -⟩ := mem_guardsAt.mp hq
      cases hm.symm.trans hn
      rw [hk] at hg
      cases hg
    exact ⟨_, by rw [get?_dropGuard, if_neg hj, hm]; rfl⟩
  · obtain ⟨_, m, hm, rfl⟩ := get?_dropGuard_iff.mp hn
    exact ⟨m, hm, rfl, rfl, rfl⟩

theorem GuardEdit.move (hq : q ∈ g.guardsAt a) (hr : r ∈ g.guardsAt a) (hmove : Walk.moveTest g r q = .ok h) :
    GuardEdit (fun j => if j = q then r else j) g h := by
  obtain ⟨n, hn, hclasses, _, hget⟩ := moveTest_ok hmove
  obtain ⟨n', hn', hk, ha⟩ := mem_guardsAt.mp hr
  cases hn.symm.trans hn'
  obtain ⟨k, hkq, hkk, hka⟩ := mem_guardsAt.mp hq
  have hnode : ∀ j l, h.get? j = some l → j ≠ r ∧ ∃ m, g.get? j = some m ∧ l =
      { m with
        kind := if j = q then n.kind else m.kind
        inputs := if j = q then n.inputs else m.inputs
        guard := if m.guard = some r then some q else m.guard } := by
    intro j l hl
    rw [hget] at hl
    split at hl
    next => cases hl
    next hj =>
      obtain ⟨m, hm, he⟩ := Option.map_eq_some_iff.mp hl
      exact ⟨hj, m, hm, he.symm⟩
  refine ⟨hclasses, fun j l hl => ?_, fun j m hm hg => ?_, fun j l hl hg => ?_⟩
  · obtain ⟨hj, m, hm, rfl⟩ := hnode j l hl
    refine ⟨m, hm, rfl, rfl, rfl, rfl, rfl, fun h => by simp [h], ?_, fun hg => ?_⟩
    · by_cases he : j = q
      · subst he
        cases hkq.symm.trans hm
        simp [hk, hkk]
      · simp [he]
    · have he : j ≠ q := by
        rintro rfl
        simp [hk] at hg
      simp [he]
  · have hj : j ≠ r := by
      rintro rfl
      cases hm.symm.trans hn
      rw [hk] at hg
      cases hg
    exact ⟨_, by rw [hget, if_neg hj, hm]; rfl⟩
  · obtain ⟨hj, m, hm, rfl⟩ := hnode j l hl
    by_cases he : j = q
    · subst he
      cases hkq.symm.trans hm
      exact ⟨n, by simpa using hn, by simp, by simp [ha, hka], by simp⟩
    · exact ⟨m, by simpa [he] using hm, by simp [he], rfl, by simp [he]⟩

end Graph

end GuardElision
