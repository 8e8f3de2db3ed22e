import GuardElision.Proofs.Flow.Dominance

namespace GuardElision

namespace Digraph

/-- Some path from the entry to `b` does not pass `a`. -/
def Avoids (g : Digraph) (entry a b : Nat) : Prop :=
  ∃ p, g.Path entry b p ∧ a ∉ p

section

variable {g : Digraph} {entry a b c : Nat}

theorem Dominates.not_avoids (h : g.Dominates entry a b) : ¬g.Avoids entry a b :=
  fun ⟨p, hp, ha⟩ => ha (h.2 p hp)

theorem Reaches.dominates_or_avoids (h : g.Reaches entry b) (a : Nat) :
    g.Dominates entry a b ∨ g.Avoids entry a b := by
  by_cases ha : g.Avoids entry a b
  · exact Or.inr ha
  · exact Or.inl ⟨h, fun p hp => by_contra fun hm => ha ⟨p, hp, hm⟩⟩

theorem Avoids.reaches (h : g.Avoids entry a b) : g.Reaches entry b :=
  let ⟨p, hp, _⟩ := h
  ⟨p, hp⟩

theorem Avoids.snoc (h : g.Avoids entry a b) (hc : c ∈ g.succ b) (hlt : c < g.size) (hne : c ≠ a) :
    g.Avoids entry a c := by
  obtain ⟨p, hp, ha⟩ := h
  refine ⟨c :: p, hp.snoc hc hlt, fun hm => ?_⟩
  rcases List.mem_cons.mp hm with he | hm
  · exact hne he.symm
  · exact ha hm

theorem Avoids.dominator (h : g.Avoids entry a b) (hd : g.Dominates entry c b) :
    g.Avoids entry a c := by
  obtain ⟨p, hp, ha⟩ := h
  obtain ⟨q, _, hq, _, hsub, _⟩ := hp.split (hd.2 p hp)
  exact ⟨q, hq, fun hm => ha (hsub a hm)⟩

/-- What strictly dominates `b` is met without passing `b`. -/
theorem StrictlyDominates.avoids (h : g.StrictlyDominates entry a b) : g.Avoids entry b a :=
  (h.2.reaches_left.dominates_or_avoids b).resolve_left fun hd => h.1 (h.2.antisymm hd)

theorem StrictlyDominates.trans (h : g.StrictlyDominates entry a b) (k : g.StrictlyDominates entry b c) :
    g.StrictlyDominates entry a c := by
  refine ⟨?_, h.2.trans k.2⟩
  rintro rfl
  exact h.1 (h.2.antisymm k.2)

theorem Reaches.induct {P : Nat → Prop} (h : g.Reaches entry b) (hentry : P entry)
    (hstep : ∀ x y, g.Reaches entry x → P x → y ∈ g.succ x → y < g.size → P y) : P b := by
  obtain ⟨p, hp⟩ := h
  induction hp with
  | nil _ => exact hentry
  | snoc hp hm hlt ih => exact hstep _ _ ⟨_, hp⟩ ih hm hlt

theorem Reaches.exists_predecessor (h : g.Reaches entry b) (hne : b ≠ entry) :
    ∃ a, g.Reaches entry a ∧ b ∈ g.succ a := by
  obtain ⟨p, hp⟩ := h
  cases hp with
  | nil _ => exact absurd rfl hne
  | snoc hp hm _ => exact ⟨_, ⟨_, hp⟩, hm⟩

theorem dominates_of_single (h : g.Reaches entry b) (hne : b ≠ entry)
    (hsingle : ∀ x, g.Reaches entry x → b ∈ g.succ x → x = a) : g.Dominates entry a b := by
  refine ⟨h, fun p hp => ?_⟩
  cases hp with
  | nil _ => exact absurd rfl hne
  | snoc hp hm _ =>
    obtain rfl := hsingle _ ⟨_, hp⟩ hm
    exact List.mem_cons_of_mem _ hp.target_mem

end

section

variable {g h : Digraph} {entry a b : Nat}

/-- Paths within a part of `h` that is closed under predecessors, and whose edges are edges of `g`,
are paths in `g`. -/
theorem Path.transfer {K : Nat → Prop} (hsize : entry < g.size)
    (hK : ∀ x y, h.Reaches entry x → y ∈ h.succ x → K y → K x ∧ y ∈ g.succ x ∧ y < g.size)
    {p : List Nat} (hp : h.Path entry b p) (hb : K b) : g.Path entry b p := by
  induction hp with
  | nil _ => exact .nil hsize
  | snoc hp hm _ ih =>
    obtain ⟨hx, hs, hlt⟩ := hK _ _ ⟨_, hp⟩ hm hb
    exact (ih hx).snoc hs hlt

theorem Reaches.transfer {K : Nat → Prop} (hsize : entry < g.size)
    (hK : ∀ x y, h.Reaches entry x → y ∈ h.succ x → K y → K x ∧ y ∈ g.succ x ∧ y < g.size)
    (hr : h.Reaches entry b) (hb : K b) : g.Reaches entry b :=
  let ⟨_, hp⟩ := hr
  ⟨_, hp.transfer hsize hK hb⟩

theorem Dominates.transfer {K : Nat → Prop} (hsize : entry < g.size)
    (hK : ∀ x y, h.Reaches entry x → y ∈ h.succ x → K y → K x ∧ y ∈ g.succ x ∧ y < g.size)
    (hd : g.Dominates entry a b) (hr : h.Reaches entry b) (hb : K b) : h.Dominates entry a b :=
  ⟨hr, fun p hp => hd.2 p (hp.transfer hsize hK hb)⟩

end

end Digraph

end GuardElision
