import GuardElision.Proofs.Flow.Dominance

namespace GuardElision

namespace Digraph

variable {g : Digraph} {entry a b v : Nat}

theorem depth_eq (hv : g.Reaches entry v) :
    (g.dominators entry).depth v + 1 = (g.dominatorSet entry v).card :=
  g.layout_depth hv

theorem StrictlyDominates.depth_lt (h : g.StrictlyDominates entry a b) :
    (g.dominators entry).depth a < (g.dominators entry).depth b := by
  have hsub : g.dominatorSet entry a ⊂ g.dominatorSet entry b := by
    refine (Finset.ssubset_iff_of_subset fun c hc => ?_).mpr ⟨b, ?_, fun hb => ?_⟩
    · exact mem_dominatorSet.mpr ((mem_dominatorSet.mp hc).trans h.2)
    · exact mem_dominatorSet.mpr (.refl h.2.1)
    · exact h.1 (h.2.antisymm (mem_dominatorSet.mp hb))
  have hcard := Finset.card_lt_card hsub
  have ha := depth_eq h.2.reaches_left
  have hb := depth_eq h.2.1
  omega

end Digraph

namespace DominatorTree

/-- One node more to choose the deepest from. -/
def deeper (t : DominatorTree) (best : Option Nat) (v : Nat) : Option Nat :=
  match best with
  | none => some v
  | some b => if t.depth b ≤ t.depth v then some v else some b

theorem foldl_deeper (t : DominatorTree) (vs : List Nat) (b : Nat) :
    ∃ d, vs.foldl t.deeper (some b) = some d ∧ d ∈ b :: vs ∧ ∀ v ∈ b :: vs, t.depth v ≤ t.depth d := by
  induction vs generalizing b with
  | nil => exact ⟨b, rfl, List.mem_singleton_self b, fun v hv => (List.mem_singleton.mp hv ▸ Nat.le_refl _)⟩
  | cons u rest ih =>
    rw [List.foldl_cons, deeper]
    split
    next hle =>
      obtain ⟨d, hd, hm, hmax⟩ := ih u
      refine ⟨d, hd, List.mem_cons_of_mem b hm, List.forall_mem_cons.mpr ⟨?_, hmax⟩⟩
      exact hle.trans (hmax u List.mem_cons_self)
    next hlt =>
      obtain ⟨d, hd, hm, hmax⟩ := ih b
      have hb := hmax b List.mem_cons_self
      refine ⟨d, hd, ?_, List.forall_mem_cons.mpr ⟨hb, List.forall_mem_cons.mpr ⟨by omega, ?_⟩⟩⟩
      · exact (List.mem_cons.mp hm).elim (fun he => he ▸ List.mem_cons_self)
          fun h => List.mem_cons_of_mem b (List.mem_cons_of_mem u h)
      · exact fun v hv => hmax v (List.mem_cons_of_mem b hv)

/-- Of reachable nodes, if there are any, the deepest is one of them and none lies deeper. -/
theorem deepest?_spec {t : DominatorTree} {vs : List Nat} (hvs : vs.all t.isReachable = true) :
    t.deepest? vs = none ∧ vs = [] ∨
      ∃ d, t.deepest? vs = some d ∧ d ∈ vs ∧ ∀ v ∈ vs, t.depth v ≤ t.depth d := by
  have hfold : t.deepest? vs = vs.foldl t.deeper none := by
    rw [deepest?, List.filter_eq_self.mpr (List.all_eq_true.mp hvs)]
    rfl
  cases vs with
  | nil => exact Or.inl ⟨hfold, rfl⟩
  | cons v rest => exact Or.inr (hfold ▸ t.foldl_deeper rest v)

end DominatorTree

end GuardElision
