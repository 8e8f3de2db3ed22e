import GuardElision.Proofs.Flow.Immediate
import GuardElision.Proofs.Flow.SpanningTree

namespace GuardElision

/-- There is a way from `x` to a node, along one edge or more, that passes only numbers above `t` in between. -/
inductive Above (g : Digraph) (num : Nat → Nat) (t x : Nat) : Nat → Prop where
  | edge {y : Nat} : num x ≠ 0 → y ∈ g.succ x → y < g.size → Above g num t x y
  | step {y z : Nat} : Above g num t x y → t < num y → z ∈ g.succ y → z < g.size → Above g num t x z

/-- The node with the lowest number from which there is a way to `w` above the number of `w`. -/
def IsSemidominator (g : Digraph) (num : Nat → Nat) (s w : Nat) : Prop :=
  Above g num (num w) s w ∧ ∀ x, Above g num (num w) x w → num s ≤ num x

namespace Above

variable {g : Digraph} {num : Nat → Nat} {t t' x y : Nat}

theorem mono (hle : t' ≤ t) (h : Above g num t x y) : Above g num t' x y := by
  induction h with
  | edge hx hy hlt => exact .edge hx hy hlt
  | step _ hlow hz hlt ih => exact ih.step (by omega) hz hlt

theorem source (h : Above g num t x y) : num x ≠ 0 := by
  induction h with
  | edge hx => exact hx
  | step _ _ _ _ ih => exact ih

theorem path (h : Above g num t x y) (hx : x < g.size) :
    ∃ p, g.Path x y p ∧ ∀ u ∈ p, u = x ∨ u = y ∨ t < num u := by
  induction h with
  | edge _ hy hlt => exact ⟨_, .snoc (.nil hx) hy hlt, by simp⟩
  | @step y z _ hlow hz hlt ih =>
    obtain ⟨p, hp, hall⟩ := ih
    refine ⟨z :: p, hp.snoc hz hlt, List.forall_mem_cons.mpr ⟨Or.inr (Or.inl rfl), fun u hu => ?_⟩⟩
    rcases hall u hu with he | rfl | hu
    · exact Or.inl he
    · exact Or.inr (Or.inr hlow)
    · exact Or.inr (Or.inr hu)

end Above

namespace Spans

variable {g : Digraph} {entry : Nat} {num : Nat → Nat} {parent : Nat → Option Nat} {a b d s t u v w x y z : Nat}
  (S : Spans g entry num parent)

include S

theorem parent_num (hv : num v ≠ 0) (hne : v ≠ entry) :
    ∃ p, parent v = some p ∧ num p ≠ 0 ∧ num p < num v ∧ v ∈ g.succ p := by
  obtain ⟨p, hp⟩ := S.exists_parent v hv hne
  exact ⟨p, hp, S.parent_spec v p hp⟩

theorem eq_of_anc (h : Anc parent a b) (hle : num b ≤ num a) (ha : num a ≠ 0) : a = b :=
  S.inj a b ha (Nat.le_antisymm (S.num_le h) hle)

theorem anc_entry (hv : num v ≠ 0) : Anc parent entry v := by
  induction hn : num v using Nat.strong_induction_on generalizing v with
  | _ n ih =>
    by_cases hne : v = entry
    · exact hne ▸ .refl
    · obtain ⟨p, hp, hp0, hlt, _⟩ := S.parent_num hv hne
      exact (ih (num p) (hn ▸ hlt) hp0 rfl).down hp

/-- The way down the tree. -/
theorem path_of_anc (h : Anc parent a b) (ha : num a ≠ 0) :
    ∃ p, g.Path a b p ∧ ∀ u ∈ p, Anc parent a u ∧ Anc parent u b := by
  induction h with
  | refl => exact ⟨[a], .nil (S.lt_size a ha), fun u hu => List.mem_singleton.mp hu ▸ ⟨.refl, .refl⟩⟩
  | @down b c hp hab ih =>
    obtain ⟨p, hpath, hall⟩ := ih
    obtain ⟨hb, hlt, hm⟩ := S.parent_spec c b hp
    refine ⟨c :: p, hpath.snoc hm (S.lt_size c (by omega)),
      List.forall_mem_cons.mpr ⟨⟨hab.down hp, .refl⟩, fun u hu => ?_⟩⟩
    exact (hall u hu).imp_right fun hub => hub.down hp

theorem num_ne_zero_iff : num v ≠ 0 ↔ g.Reaches entry v := by
  constructor
  · intro hv
    obtain ⟨p, hp, _⟩ := S.path_of_anc (S.anc_entry hv) (by simp [S.num_entry])
    exact ⟨p, hp⟩
  · rintro ⟨p, hp⟩
    induction hp with
    | nil => simp [S.num_entry]
    | snoc _ hm hlt ih => exact S.closed _ _ ih hm hlt

theorem above_num (h : Above g num t x y) : num y ≠ 0 := by
  induction h with
  | edge hx hy hlt => exact S.closed _ _ hx hy hlt
  | step _ _ hz hlt ih => exact S.closed _ _ ih hz hlt

/-- A way down the tree stays above the number it starts with. -/
theorem above_anc (h : Above g num t x y) (hlow : t < num y) (hyz : Anc parent y z) : Above g num t x z := by
  induction hyz with
  | refl => exact h
  | @down b c hp hyb ih =>
    obtain ⟨_, _, hm⟩ := S.parent_spec c b hp
    exact ih.step (hlow.trans_le (S.num_le hyb)) hm (S.lt_size c (by have := (S.parent_spec c b hp).2.1; omega))

/-- An edge from below `a` leads below `a` again unless it leads to a lower number. -/
theorem anc_of_edge (h : Anc parent a y) (ha : num a ≠ 0) (hz : z ∈ g.succ y) (hle : num a ≤ num z) :
    Anc parent a z := by
  have hy : num y ≠ 0 := by have := S.num_le h; omega
  by_cases hyz : num y < num z
  · exact h.trans (S.edge y z hy hz hyz)
  · exact S.between a z y h ha hle (by omega)

theorem anc_of_above (h : Above g num t x y) (hx : num x ≤ t) (hxy : num x ≤ num y) : Anc parent x y := by
  induction h with
  | edge h0 hy => exact S.anc_of_edge .refl h0 hy hxy
  | step h hlow hz _ ih => exact S.anc_of_edge (ih (by omega)) h.source hz hxy

/-- The node with the lowest number that a way above `t` passes after the last bend stands above its end. -/
theorem exists_low (h : Above g num t x v) (hlow : t < num v) :
    ∃ u, t < num u ∧ Anc parent u v ∧ Above g num (num u) x u := by
  induction h with
  | @edge y hx hy hlt => exact ⟨y, hlow, .refl, .edge hx hy hlt⟩
  | @step y z _ hy hz hlt ih =>
    obtain ⟨u, hu, huy, habove⟩ := ih hy
    by_cases hle : num u ≤ num z
    · exact ⟨u, hu, S.anc_of_edge huy (by omega) hz hle, habove⟩
    · have hyabove := S.above_anc (habove.mono (show num z ≤ num u by omega)) (by omega) huy
      have := S.num_le huy
      exact ⟨z, hlow, .refl, hyabove.step (by omega) hz hlt⟩

/-- A way from the entry that avoids `a` goes above `a` after the last lower number. -/
theorem exists_bypass {p : List Nat} (hp : g.Path entry w p) (ha : a ∉ p) (ha0 : num a ≠ 0) (hlow : num a < num w) :
    ∃ x, num x < num a ∧ Above g num (num a) x w := by
  induction hp with
  | nil =>
    have := S.num_entry
    omega
  | @snoc b c p hp hm hlt ih =>
    have hb : num b ≠ 0 := S.num_ne_zero_iff.mpr ⟨p, hp⟩
    have hap : a ∉ p := fun h => ha (List.mem_cons_of_mem c h)
    by_cases hba : num b < num a
    · exact ⟨b, hba, .edge hb hm hlt⟩
    · have hne : num a ≠ num b := fun he => hap (S.inj a b ha0 he ▸ hp.target_mem)
      obtain ⟨x, hx, habove⟩ := ih hap (by omega)
      exact ⟨x, hx, habove.step (by omega) hm hlt⟩

/-- A way above `y` from a lower number than that of `z` leads past `z` to all that stands below `y`. -/
theorem not_dominates_of_above (h : Above g num (num y) x y) (hxz : num x < num z) (hzy : num z < num y)
    (hyu : Anc parent y u) : ¬g.Dominates entry z u := by
  intro hdom
  have hx := h.source
  obtain ⟨p, hp, hall⟩ := S.path_of_anc (S.anc_entry hx) (by simp [S.num_entry])
  obtain ⟨q, hq, hqall⟩ := h.path (S.lt_size x hx)
  obtain ⟨r, hr, hrall⟩ := S.path_of_anc hyu (S.above_num h)
  have hmem := hdom.2 _ ((hp.append hq).append hr)
  rcases (Digraph.Path.mem_append (hp.append hq) hr).mp hmem with hz | hz
  · rcases (Digraph.Path.mem_append hp hq).mp hz with hz | hz
    · have := S.num_le (hall z hz).2
      omega
    · rcases hqall z hz with rfl | rfl | hz <;> omega
  · have := S.num_le (hrall z hz).1
    omega

theorem anc_of_dominates (h : g.Dominates entry d w) : Anc parent d w := by
  obtain ⟨p, hp, hall⟩ := S.path_of_anc (S.anc_entry (S.num_ne_zero_iff.mpr h.1)) (by simp [S.num_entry])
  exact (hall d (h.2 p hp)).2

/-- What dominates a node and stands strictly above another one on the way to it dominates that one, too. -/
theorem dominates_of_anc (h : g.Dominates entry d w) (huw : Anc parent u w) (hu : num u ≠ 0) (hlow : num d < num u) :
    g.Dominates entry d u := by
  refine ⟨S.num_ne_zero_iff.mp hu, fun p hp => ?_⟩
  obtain ⟨q, hq, hall⟩ := S.path_of_anc huw hu
  refine ((Digraph.Path.mem_append hp hq).mp (h.2 _ (hp.append hq))).resolve_right fun hd => ?_
  have := S.num_le (hall d hd).1
  omega

section

variable (hs : IsSemidominator g num s w) (hw : w ≠ entry)

include hs hw

theorem semidominator_lt : num s < num w := by
  obtain ⟨p, _, hp0, hlt, hm⟩ := S.parent_num (S.above_num hs.1) hw
  exact (hs.2 p (.edge hp0 hm (S.lt_size w (by omega)))).trans_lt hlt

theorem anc_semidominator : Anc parent s w :=
  S.anc_of_above hs.1 (S.semidominator_lt hs hw).le (S.semidominator_lt hs hw).le

/-- The semidominator is no deeper than any strict dominator allows. -/
theorem anc_of_strictlyDominates (h : g.StrictlyDominates entry d w) : Anc parent d s := by
  have hdw := S.anc_of_dominates h.2
  have hd : num d ≠ 0 := S.num_ne_zero_iff.mpr h.2.reaches_left
  have hlt := S.semidominator_lt hs hw
  have hle : num d ≤ num s := by
    by_contra hsd
    have hdw' : num d < num w := by
      refine lt_of_le_of_ne (S.num_le hdw) fun he => h.1 (S.inj d w hd he)
    exact S.not_dominates_of_above hs.1 (by omega) hdw' .refl h.2
  exact S.between d s w hdw hd hle hlt.le

/-- The semidominator is the immediate dominator if no node on the way from it has a lower one. -/
theorem immediatelyDominates_semidominator
    (hmin : ∀ y, Anc parent s y → num s < num y → Anc parent y w → ∀ x, Above g num (num y) x y → num s ≤ num x) :
    g.ImmediatelyDominates entry s w := by
  have hw0 := S.above_num hs.1
  have hs0 := hs.1.source
  have hlt := S.semidominator_lt hs hw
  have hsw := S.anc_semidominator hs hw
  have hdom : g.Dominates entry s w := by
    refine ⟨S.num_ne_zero_iff.mp hw0, fun p hp => ?_⟩
    by_contra hnot
    obtain ⟨x, hx, habove⟩ := S.exists_bypass hp hnot hs0 hlt
    obtain ⟨y, hy, hyw, hyabove⟩ := S.exists_low habove hlt
    have := hmin y (S.between s y w hsw hs0 hy.le (S.num_le hyw)) hy hyw x hyabove
    omega
  refine ⟨⟨by rintro rfl; omega, hdom⟩, fun c hc => ?_⟩
  rcases hc.2.total hdom with hcs | hsc
  · exact hcs
  · have he := S.eq_of_anc (S.anc_of_dominates hsc) (S.num_le (S.anc_of_strictlyDominates hs hw hc)) hs0
    exact he ▸ hsc

/-- A node on the way from the semidominator that has the lowest one of all has the same immediate dominator. -/
theorem immediatelyDominates_of_lower {su : Nat} (hsu : Anc parent s u) (hlow : num s < num u) (huw : Anc parent u w)
    (hu : IsSemidominator g num su u)
    (hmin : ∀ y, Anc parent s y → num s < num y → Anc parent y w → ∀ x, Above g num (num y) x y → num su ≤ num x)
    (hz : g.ImmediatelyDominates entry z u) : g.ImmediatelyDominates entry z w := by
  have hw0 := S.above_num hs.1
  have hu0 := S.above_num hu.1
  have hs0 := hs.1.source
  have hlt := S.semidominator_lt hs hw
  have hsw := S.anc_semidominator hs hw
  have hue : u ≠ entry := by
    rintro rfl
    have := S.num_entry
    omega
  have hz0 : num z ≠ 0 := S.num_ne_zero_iff.mpr hz.1.2.reaches_left
  have hzsu := S.num_le (S.anc_of_strictlyDominates hu hue hz.1)
  have hsult := S.semidominator_lt hu hue
  have hle := S.num_le huw
  have hdom : g.Dominates entry z w := by
    refine ⟨S.num_ne_zero_iff.mp hw0, fun p hp => ?_⟩
    by_contra hnot
    obtain ⟨x, hx, habove⟩ := S.exists_bypass hp hnot hz0 (by omega)
    obtain ⟨y, hy, hyw, hyabove⟩ := S.exists_low habove (by omega)
    by_cases hsy : num s < num y
    · have := hmin y (S.between s y w hsw hs0 hsy.le (S.num_le hyw)) hsy hyw x hyabove
      omega
    · have hys := S.between y s w hyw (S.above_num hyabove) (by omega) hlt.le
      exact S.not_dominates_of_above hyabove hx hy (hys.trans hsu) hz.1.2
  refine ⟨⟨by rintro rfl; omega, hdom⟩, fun c hc => ?_⟩
  rcases hc.2.total hdom with hcz | hzc
  · exact hcz
  · have hcs := S.num_le (S.anc_of_strictlyDominates hs hw hc)
    refine hz.2 c ⟨?_, S.dominates_of_anc hc.2 huw hu0 (by omega)⟩
    rintro rfl
    omega

end

/-- The lowest of what the predecessors give is the semidominator: of the lower numbers among them, and of the
semidominators of the higher numbers above them. -/
theorem isSemidominator_of_lowest {semi : Nat → Nat} (hw0 : num w ≠ 0) (hw : w ≠ entry)
    (hsemi : ∀ v, num w < num v → IsSemidominator g num (semi v) v)
    (hs : s = w ∨ Above g num (num w) s w)
    (hlow : ∀ v, num v ≠ 0 → w ∈ g.succ v → (num v < num w → num s ≤ num v) ∧
      ∀ u, Anc parent u v → num w < num u → num s ≤ num (semi u)) : IsSemidominator g num s w := by
  obtain ⟨p, _, hp0, hplt, hm⟩ := S.parent_num hw0 hw
  have hsw := (hlow p hp0 hm).1 hplt
  refine ⟨hs.resolve_left ?_, fun x hx => ?_⟩
  · rintro rfl
    omega
  · cases hx with
    | edge hx0 hx =>
      rcases Nat.lt_trichotomy (num x) (num w) with hlt | heq | hgt
      · exact (hlow x hx0 hx).1 hlt
      · omega
      · have hxe : x ≠ entry := by
          rintro rfl
          have := S.num_entry
          omega
        have := S.semidominator_lt (hsemi x hgt) hxe
        have := (hlow x hx0 hx).2 x .refl hgt
        omega
    | @step y _ hxy hy hmy _ =>
      obtain ⟨u, hu, huy, habove⟩ := S.exists_low hxy hy
      have := (hlow y (by omega) hmy).2 u huy hu
      have := (hsemi u hu).2 x habove
      omega

end Spans

end GuardElision
