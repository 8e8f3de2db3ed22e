import GuardElision.Proofs.Flow.Depth
import Mathlib.Data.Set.Card

namespace GuardElision

namespace Digraph

variable {g : Digraph} {entry a v : Nat}

theorem eq_entry_of_idom?_eq_none (hv : g.Reaches entry v) (hd : (g.dominators entry).idom? v = none) :
    v = entry := by
  by_contra hne
  obtain ⟨d, hsome, _⟩ := exists_idom? hv hne
  cases hd.symm.trans hsome

/-- Upwards from a reachable node the chain passes exactly its dominators, each once, and ends at the
entry, provided that it may be as long as there are dominators. -/
theorem chain_spec {n : Nat} (hv : g.Reaches entry v) (hn : (g.dominatorSet entry v).card ≤ n) :
    (∀ a, a ∈ (g.dominators entry).chain n v ↔ g.Dominates entry a v) ∧
    ((g.dominators entry).chain n v).Nodup ∧ ((g.dominators entry).chain n v).getLast? = some entry := by
  induction n generalizing v with
  | zero =>
    have hpos := card_dominatorSet_pos hv
    omega
  | succ n ih =>
    rw [DominatorTree.chain]
    cases hd : (g.dominators entry).idom? v with
    | none =>
      obtain rfl := eq_entry_of_idom?_eq_none hv hd
      refine ⟨fun a => ?_, List.nodup_singleton v, rfl⟩
      rw [List.mem_singleton]
      constructor
      · rintro rfl
        exact .refl hv
      · exact fun ha => ha.antisymm (.entry_left ha.reaches_left)
    | some d =>
      have hcard := card_dominatorSet_idom hd
      obtain ⟨_, hstrict, hnearest⟩ := (g.dominators_idom?_eq_some_iff entry v d).mp hd
      obtain ⟨hmem, hnodup, hlast⟩ := ih hstrict.2.reaches_left (by omega)
      refine ⟨fun a => ?_, List.nodup_cons.mpr ⟨fun hm => ?_, hnodup⟩, ?_⟩
      · rw [List.mem_cons, hmem]
        constructor
        · rintro (rfl | ha)
          · exact .refl hv
          · exact ha.trans hstrict.2
        · intro ha
          by_cases he : a = v
          · exact Or.inl he
          · exact Or.inr (hnearest a ⟨he, ha⟩)
      · exact hstrict.1 (hstrict.2.antisymm ((hmem v).mp hm))
      · rw [List.getLast?_cons, hlast, Option.getD_some]

theorem dominators_eq_chain (hv : g.Reaches entry v) :
    (g.dominators entry).dominators v = (g.dominators entry).chain g.size v :=
  if_pos ((g.dominators_isReachable entry v).mpr hv)

theorem dominators_eq_nil (hv : ¬g.Reaches entry v) : (g.dominators entry).dominators v = [] :=
  if_neg (mt (g.dominators_isReachable entry v).mp hv)

theorem dominators_spec (hv : g.Reaches entry v) :
    (∀ a, a ∈ (g.dominators entry).dominators v ↔ g.Dominates entry a v) ∧
    ((g.dominators entry).dominators v).Nodup ∧ ((g.dominators entry).dominators v).getLast? = some entry := by
  rw [dominators_eq_chain hv]
  exact chain_spec hv card_dominatorSet_le

theorem mem_dominators : a ∈ (g.dominators entry).dominators v ↔ g.Dominates entry a v := by
  by_cases hv : g.Reaches entry v
  · exact (dominators_spec hv).1 a
  · rw [dominators_eq_nil hv]
    exact iff_of_false List.not_mem_nil fun h => hv h.1

theorem ncard_strictDominators (hv : g.Reaches entry v) :
    {a | g.StrictlyDominates entry a v}.ncard + 1 = (g.dominatorSet entry v).card := by
  have hset : {a | g.StrictlyDominates entry a v} = ((g.dominatorSet entry v).erase v : Finset Nat) := by
    ext a
    rw [Finset.mem_coe, Finset.mem_erase, mem_dominatorSet]
    rfl
  rw [hset, Set.ncard_coe_finset]
  exact Finset.card_erase_add_one (mem_dominatorSet.mpr (.refl hv))

/-- All views of the dominator tree agree, whatever the graph and the entry: one node encloses another
by its numbers exactly if it occurs among the dominators listed from the other upwards, which end at
the entry without repetition; the depth counts the strict dominators; the children of a node are those
it dominates immediately, each once and in reverse postorder; and every reachable node but the entry is
the child of exactly one node. -/
theorem dominator_views_agree (g : Digraph) (entry : Nat) :
    (∀ a b, (g.dominators entry).dominates a b = true ↔ a ∈ (g.dominators entry).dominators b) ∧
    (∀ b, ((g.dominators entry).dominators b).Nodup ∧
      ((g.dominators entry).dominators b).head? = (if (g.dominators entry).isReachable b then some b else none) ∧
      ((g.dominators entry).dominators b).getLast? =
        if (g.dominators entry).isReachable b then some entry else none) ∧
    (∀ b d, (g.dominators entry).depth? b = some d ↔
      g.Reaches entry b ∧ d = {a | g.StrictlyDominates entry a b}.ncard) ∧
    (∀ a, (∀ b, b ∈ (g.dominators entry).children a ↔ (g.dominators entry).idom? b = some a) ∧
      ((g.dominators entry).children a).Nodup ∧
      ((g.dominators entry).children a).Sublist (g.reversePostorder entry)) ∧
    ∀ b, g.Reaches entry b ∧ b ≠ entry ↔ ∃! a, b ∈ (g.dominators entry).children a := by
  refine ⟨fun a b => ?_, fun b => ?_, fun b d => ?_, fun a => ⟨fun b => mem_children, nodup_children, ?_⟩, fun b => ?_⟩
  · rw [dominators_dominates, mem_dominators]
  · by_cases hb : g.Reaches entry b
    · obtain ⟨_, hnodup, hlast⟩ := dominators_spec hb
      rw [if_pos ((g.dominators_isReachable entry b).mpr hb), if_pos ((g.dominators_isReachable entry b).mpr hb)]
      refine ⟨hnodup, ?_, hlast⟩
      rw [dominators_eq_chain hb]
      obtain ⟨p, hp⟩ := hb
      obtain ⟨n, hn⟩ := Nat.exists_eq_succ_of_ne_zero (Nat.ne_zero_of_lt hp.target_lt)
      rw [hn]
      rfl
    · rw [dominators_eq_nil hb, if_neg (mt (g.dominators_isReachable entry b).mp hb),
        if_neg (mt (g.dominators_isReachable entry b).mp hb)]
      exact ⟨.nil, rfl, rfl⟩
  · rw [DominatorTree.depth?]
    by_cases hb : g.Reaches entry b
    · rw [if_pos ((g.dominators_isReachable entry b).mpr hb), Option.some.injEq]
      have hdepth := depth_eq hb
      have hcount := ncard_strictDominators hb
      constructor
      · rintro rfl
        exact ⟨hb, by omega⟩
      · rintro ⟨_, rfl⟩
        omega
    · rw [if_neg (mt (g.dominators_isReachable entry b).mp hb)]
      exact iff_of_false (by simp) fun h => hb h.1
  · rw [children_eq_filter]
    exact List.filter_sublist
  · constructor
    · rintro ⟨hb, hne⟩
      obtain ⟨a, ha, _⟩ := exists_idom? hb hne
      exact ⟨a, mem_children.mpr ha, fun c hc => Option.some.inj ((mem_children.mp hc).symm.trans ha)⟩
    · rintro ⟨a, ha, _⟩
      have hstrict := strictlyDominates_of_idom? (mem_children.mp ha)
      refine ⟨hstrict.2.1, ?_⟩
      rintro rfl
      exact hstrict.1 (hstrict.2.antisymm (.entry_left hstrict.2.reaches_left))

end Digraph

end GuardElision
