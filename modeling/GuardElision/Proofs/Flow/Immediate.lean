import GuardElision.Proofs.Flow.Search

namespace GuardElision

namespace Digraph

/-- `b` can be reached from the entry, and every path to it passes `a`. -/
def Dominates (g : Digraph) (entry a b : Nat) : Prop :=
  g.Reaches entry b ∧ ∀ p, g.Path entry b p → a ∈ p

def StrictlyDominates (g : Digraph) (entry a b : Nat) : Prop :=
  a ≠ b ∧ g.Dominates entry a b

namespace Dominates

variable {g : Digraph} {entry a b c : Nat}

theorem refl (h : g.Reaches entry a) : g.Dominates entry a a :=
  ⟨h, fun _ hp => hp.target_mem⟩

theorem entry_left (h : g.Reaches entry a) : g.Dominates entry entry a :=
  ⟨h, fun _ hp => hp.source_mem⟩

theorem reaches_left (h : g.Dominates entry a b) : g.Reaches entry a := by
  obtain ⟨p, hp⟩ := h.1
  obtain ⟨q, _, hq, _⟩ := hp.split (h.2 p hp)
  exact ⟨q, hq⟩

theorem trans (h : g.Dominates entry a b) (k : g.Dominates entry b c) : g.Dominates entry a c := by
  refine ⟨k.1, fun p hp => ?_⟩
  obtain ⟨q, _, hq, _, hsub, _⟩ := hp.split (k.2 p hp)
  exact hsub a (h.2 q hq)

theorem antisymm (h : g.Dominates entry a b) (k : g.Dominates entry b a) : a = b := by
  obtain ⟨p, hp⟩ := k.1
  obtain ⟨x, q, hx, hq, hn, _⟩ := hp.takeFirst (P := fun y => y = a ∨ y = b) ⟨a, hp.target_mem, Or.inl rfl⟩
  rcases hx with rfl | rfl
  · rcases List.mem_cons.mp (k.2 _ hq) with he | hm
    · exact he.symm
    · exact absurd (Or.inr rfl) (hn b hm)
  · rcases List.mem_cons.mp (h.2 _ hq) with he | hm
    · exact he
    · exact absurd (Or.inl rfl) (hn a hm)

/-- A path from the entry to `a` that avoids `b` goes on to `c` through `b`, if `b` dominates `c`. -/
theorem mem_of_path_avoiding (h : g.Dominates entry b c) {p q : List Nat} (hp : g.Path entry a p)
    (hb : b ∉ p) (hq : g.Path a c q) : b ∈ q :=
  ((Path.mem_append hp hq).mp (h.2 _ (hp.append hq))).resolve_left hb

theorem total (h : g.Dominates entry a c) (k : g.Dominates entry b c) :
    g.Dominates entry a b ∨ g.Dominates entry b a := by
  by_contra hc
  obtain ⟨hab, hba⟩ := not_or.mp hc
  have havoid : ∀ {x y : Nat}, g.Reaches entry y → ¬g.Dominates entry x y →
      ∃ p, g.Path entry y p ∧ x ∉ p := by
    intro x y hy hn
    by_contra hp
    exact hn ⟨hy, fun p h => by_contra fun hx => hp ⟨p, h, hx⟩⟩
  obtain ⟨p, hp, hap⟩ := havoid k.reaches_left hab
  obtain ⟨q, hq, hbq⟩ := havoid h.reaches_left hba
  obtain ⟨r, hr⟩ := h.1
  -- behind the last of the two nodes on a path to `c`, neither is met again
  obtain ⟨x, s, hx, hs, hn, _⟩ := hr.dropToLast (P := fun y => y = a ∨ y = b) ⟨a, h.2 r hr, Or.inl rfl⟩
  rcases hx with rfl | rfl
  · have hm := k.mem_of_path_avoiding hq hbq hs
    rcases List.mem_append.mp hm with hm | hm
    · exact hn b hm (Or.inr rfl)
    · rw [List.mem_singleton] at hm
      exact hbq (hm ▸ hq.target_mem)
  · have hm := h.mem_of_path_avoiding hp hap hs
    rcases List.mem_append.mp hm with hm | hm
    · exact hn a hm (Or.inl rfl)
    · rw [List.mem_singleton] at hm
      exact hap (hm ▸ hp.target_mem)

end Dominates

/-- The immediate dominator is the strict dominator that all others dominate. -/
def ImmediatelyDominates (g : Digraph) (entry d b : Nat) : Prop :=
  g.StrictlyDominates entry d b ∧ ∀ c, g.StrictlyDominates entry c b → g.Dominates entry c d

theorem ImmediatelyDominates.unique {g : Digraph} {entry b d e : Nat}
    (h : g.ImmediatelyDominates entry d b) (k : g.ImmediatelyDominates entry e b) : d = e :=
  (k.2 d h.1).antisymm (h.2 e k.1)

end Digraph

end GuardElision
