import GuardElision.Proofs.Flow.Layout

namespace GuardElision

namespace Digraph

theorem dominators_dominates (g : Digraph) (entry a b : Nat) :
    (g.dominators entry).dominates a b = true ↔ g.Dominates entry a b := by
  simp only [DominatorTree.dominates, Bool.and_eq_true, dominators_isReachable]
  constructor
  · rintro ⟨⟨ha, hb⟩, he⟩
    exact (g.layout_encloses ha hb).mp he
  · intro h
    exact ⟨⟨h.reaches_left, h.1⟩, (g.layout_encloses h.reaches_left h.1).mpr h⟩

/-- The dominator tree of any graph and entry agrees with the paths from the entry: on what is
reachable, on what dominates what, and on immediate dominators. -/
theorem dominators_agree_with_paths (g : Digraph) (entry : Nat) :
    (∀ v, (g.dominators entry).isReachable v = true ↔ ∃ p, g.Path entry v p) ∧
    (∀ a b, (g.dominators entry).dominates a b = true ↔
      (∃ p, g.Path entry b p) ∧ ∀ p, g.Path entry b p → a ∈ p) ∧
    (∀ b d, (g.dominators entry).idom? b = some d ↔
      (∃ p, g.Path entry b p) ∧ b ≠ entry ∧ g.StrictlyDominates entry d b ∧
        ∀ c, g.StrictlyDominates entry c b → g.Dominates entry c d) ∧
    (g.size ≤ entry → ∀ v, (g.dominators entry).isReachable v = false) := by
  refine ⟨g.dominators_isReachable entry, g.dominators_dominates entry, fun b d => ?_, fun hs v => ?_⟩
  · rw [g.dominators_idom?_eq_some_iff]
    constructor
    · rintro ⟨hr, h⟩
      refine ⟨hr, ?_, h⟩
      rintro rfl
      exact h.1.1 (h.1.2.antisymm (.entry_left h.1.2.reaches_left))
    · exact fun ⟨hr, _, h⟩ => ⟨hr, h⟩
  · rw [← Bool.not_eq_true, g.dominators_isReachable]
    rintro ⟨p, hp⟩
    have := hp.source_lt
    omega

theorem children_cover {g : Digraph} {entry b : Nat} {P : Nat → Prop} (hentry : P entry)
    (hchild : ∀ d, P d → ∀ c ∈ (g.dominators entry).children d, P c) (hb : g.Reaches entry b) : P b := by
  obtain ⟨p, hp⟩ := hb
  suffices hall : ∀ x ∈ p, P x from hall b hp.target_mem
  induction hp with
  | nil => simpa using hentry
  | @snoc b c p hp hm hlt ih =>
    refine List.forall_mem_cons.mpr ⟨?_, ih⟩
    by_cases hc : c = entry
    · exact hc ▸ hentry
    · have hreach : g.Reaches entry c := ⟨_, hp.snoc hm hlt⟩
      obtain ⟨d, hd, _⟩ := exists_idom? hreach hc
      obtain ⟨hne, -, hpaths⟩ := strictlyDominates_of_idom? hd
      have hdp : d ∈ p := (List.mem_cons.mp (hpaths _ (hp.snoc hm hlt))).resolve_left hne
      exact hchild d (ih d hdp) c (mem_children.mpr hd)

end Digraph

end GuardElision
