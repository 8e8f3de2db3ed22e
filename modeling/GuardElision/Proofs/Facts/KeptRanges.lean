import GuardElision.Proofs.Facts.Monotone
import GuardElision.Proofs.Facts.Origin
import GuardElision.Proofs.IntervalNarrowing

namespace GuardElision

namespace Interval

theorem Covers.meet?_eq {r s : Interval} {w : Word} (h : r.Covers s) (hw : w ∈ s) : r.meet? s = some s := by
  obtain ⟨t, ht, -⟩ := exists_meet? (h.mem hw) hw
  have hst := Covers.of_meet?_right ht
  have hts := Covers.meet? h (.refl s) ht
  rw [ht, hts.antisymm hst]

end Interval

/-- The range says no less than the interval `base` and leaves some word, and just the bounds that differ
from those of `base` have an origin. -/
structure Narrowing.Refines (n : Narrowing) (base : Interval) : Prop where
  within : base.Covers n.range
  inhabited : ∃ w, w ∈ n.range
  lower : n.lower.isSome ↔ n.range.lo ≠ base.lo
  upper : n.upper.isSome ↔ n.range.hi ≠ base.hi

namespace Narrowing.Refines

variable {n : Narrowing} {base : Interval}

theorem refl (h : ∃ w, w ∈ base) : Refines { range := base } base where
  within := .refl base
  inhabited := h
  lower := by simp
  upper := by simp

/-- Without an origin a range is what it refines. -/
theorem range_eq (h : n.Refines base) (hs : n.source? = none) : n.range = base := by
  have hlower : n.lower = none := by
    cases hl : n.lower with
    | none => rfl
    | some l => cases hu : n.upper <;> simp [source?, hl, hu] at hs
  have hupper : n.upper = none := by
    cases hu : n.upper with
    | none => rfl
    | some u => simp [source?, hlower, hu] at hs
  have hlo : n.range.lo = base.lo := by simpa [hlower] using h.lower
  have hhi : n.range.hi = base.hi := by simpa [hupper] using h.upper
  obtain ⟨lo, hi⟩ := base
  exact congr (congrArg Interval.mk hlo) hhi

theorem narrow {range : Interval} {origin : Origin} (h : n.Refines base) (hcovers : n.range.Covers range)
    (hmem : ∃ w, w ∈ range) :
    Refines ⟨range, if range.lo = n.range.lo then n.lower else some origin,
      if range.hi = n.range.hi then n.upper else some origin⟩ base where
  within := h.within.trans hcovers
  inhabited := hmem
  lower := by
    dsimp only
    split
    next he => rw [he, h.lower]
    next hne =>
      refine iff_of_true rfl fun he => hne ?_
      have hback : Interval.LoLe range.lo n.range.lo := he ▸ h.within.lo
      exact hback.antisymm hcovers.lo
  upper := by
    dsimp only
    split
    next he => rw [he, h.upper]
    next hne =>
      refine iff_of_true rfl fun he => hne ?_
      have hback : Interval.HiGe range.hi n.range.hi := he ▸ h.within.hi
      exact hback.antisymm hcovers.hi

end Narrowing.Refines

namespace Known

variable {stamp : NodeId → Stamp} {k k' : Known} {o : Operand} {x : NodeId} {origin : Origin}

/-- Every kept range refines the range of its node's stamp. -/
def RangesFit (stamp : NodeId → Stamp) (k : Known) : Prop :=
  ∀ x n, k.ranges.get? x = some n → ∃ base, (stamp x).range? = some base ∧ n.Refines base

theorem RangesFit.narrowing?_kept (hk : k.RangesFit stamp) {n : Narrowing} (hn : k.ranges.get? x = some n) :
    k.narrowing? ⟨x, stamp x⟩ = some n := by
  obtain ⟨base, hbase, hrefines⟩ := hk x n hn
  obtain ⟨w, hw⟩ := hrefines.inhabited
  simp [narrowing?, hbase, hn, hrefines.within.meet?_eq hw]

/-- What is known of an operand's range refines its stamp, if what is kept for its node does. -/
theorem exists_narrowing?_refines {base : Interval} (hbase : o.stamp.range? = some base) (hmem : ∃ w, w ∈ base)
    (hkept : ∀ n, k.ranges.get? o.node = some n → n.Refines base) : ∃ n, k.narrowing? o = some n ∧ n.Refines base := by
  cases hn : k.ranges.get? o.node with
  | none => exact ⟨{ range := base }, by simp [narrowing?, hbase, hn], .refl hmem⟩
  | some n =>
    have hrefines := hkept n hn
    -- What is kept lies within the range of the stamp, so their intersection is what is kept.
    obtain ⟨w, hw⟩ := hrefines.inhabited
    exact ⟨n, by simp [narrowing?, hbase, hn, hrefines.within.meet?_eq hw], hrefines⟩

/-- A range that a constraint on an operand changes is that of its node, and refines the operand's stamp if the
one before it does. -/
theorem narrow_refines {constraint : Interval} {m : Narrowing}
    (hkept : ∀ base, o.stamp.range? = some base →
      (∃ w, w ∈ base) ∧ ∀ n, k.ranges.get? o.node = some n → n.Refines base)
    (hm : (k.narrow origin o constraint).ranges.get? x = some m) :
    k.ranges.get? x = some m ∨ x = o.node ∧ ∃ base, o.stamp.range? = some base ∧ m.Refines base := by
  rcases k.narrow_cases origin o constraint with he | ⟨n, range, hn, hrange, he⟩
  · exact .inl (he ▸ hm)
  · rw [he, IdMap.get?_insert] at hm
    split at hm
    next hx =>
      obtain rfl := Option.some.inj hm
      obtain ⟨base, hbase, -⟩ := Option.bind_eq_some_iff.mp hn
      obtain ⟨hmem, hkept⟩ := hkept base hbase
      obtain ⟨n', hn', hrefines⟩ := exists_narrowing?_refines hbase hmem hkept
      cases hn.symm.trans hn'
      have hleft := (Interval.meet?_exact n.range constraint).exists_mem hrange
      exact .inr ⟨hx, base, hbase, hrefines.narrow (.of_meet?_left hrange) hleft⟩
    next => exact .inl hm

theorem RangesFit.refines (hk : k.RangesFit stamp) {base : Interval} (hbase : (stamp x).range? = some base)
    {n : Narrowing} (hn : k.ranges.get? x = some n) : n.Refines base := by
  obtain ⟨base', hbase', hrefines⟩ := hk x n hn
  cases hbase.symm.trans hbase'
  exact hrefines

section

variable (hstamp : ∀ x r, (stamp x).range? = some r → ∃ w, w ∈ r)

include hstamp

theorem RangesFit.exists_narrowing? (hk : k.RangesFit stamp) {base : Interval} (hbase : (stamp x).range? = some base) :
    ∃ n, k.narrowing? ⟨x, stamp x⟩ = some n ∧ n.Refines base :=
  exists_narrowing?_refines hbase (hstamp x base hbase) fun _ hn => hk.refines hbase hn

theorem RangesFit.narrow (hk : k.RangesFit stamp) (ho : o.stamp = stamp o.node) (constraint : Interval) :
    (k.narrow origin o constraint).RangesFit stamp := by
  have hkept : ∀ base, o.stamp.range? = some base →
      (∃ w, w ∈ base) ∧ ∀ n, k.ranges.get? o.node = some n → n.Refines base := by
    intro base hbase
    rw [ho] at hbase
    exact ⟨hstamp o.node base hbase, fun n hn => hk.refines hbase hn⟩
  intro x m hm
  rcases narrow_refines hkept hm with hm | ⟨rfl, base, hbase, hrefines⟩
  · exact hk x m hm
  · exact ⟨base, ho ▸ hbase, hrefines⟩

theorem RangesFit.exists_range? (hk : k.RangesFit stamp) {base : Interval} (hbase : (stamp x).range? = some base) :
    ∃ r w, k.range? ⟨x, stamp x⟩ = some r ∧ base.Covers r ∧ w ∈ r := by
  obtain ⟨n, hn, hrefines⟩ := hk.exists_narrowing? hstamp hbase
  obtain ⟨w, hw⟩ := hrefines.inhabited
  exact ⟨n.range, w, by simp [range?, hn], hrefines.within, hw⟩

theorem Subsumes.refl (hk : k.RangesFit stamp) : k.Subsumes stamp k where
  classFacts _ e he := ⟨e, he, rfl, rfl⟩
  fact? _ f hf := ⟨f, hf, rfl⟩
  ranges x r hr := by
    obtain ⟨n, hn, -⟩ := Option.map_eq_some_iff.mp hr
    obtain ⟨base, hbase, -⟩ := Option.bind_eq_some_iff.mp hn
    obtain ⟨r', w, hr', -, hw⟩ := hk.exists_range? hstamp hbase
    cases hr.symm.trans hr'
    exact ⟨r, w, hr, .refl r, hw⟩

theorem RangesFit.narrow_subsumes (hk : k.RangesFit stamp) (ho : o.stamp = stamp o.node) (constraint : Interval) :
    (k.narrow origin o constraint).Subsumes stamp k := by
  have hfit : (k.narrow origin o constraint).RangesFit stamp := hk.narrow hstamp ho constraint
  refine ⟨fun x e he => ⟨e, ?_, rfl, rfl⟩, fun t f hf => ⟨f, ?_, rfl⟩, fun x r hr => ?_⟩
  · simpa [classFacts] using he
  · simpa [fact?] using hf
  obtain ⟨n, hn, rfl⟩ := Option.map_eq_some_iff.mp hr
  obtain ⟨base, hbase, -⟩ := Option.bind_eq_some_iff.mp hn
  obtain ⟨r', w, hr', -, hw⟩ := hfit.exists_range? hstamp hbase
  refine ⟨r', w, hr', ?_, hw⟩
  rcases k.narrow_cases origin o constraint with he | ⟨m, range, hm, hrange, he⟩
  · rw [he] at hr'
    cases hr.symm.trans hr'
    exact .refl _
  · by_cases hx : x = o.node
    · subst hx
      rw [← ho] at hn
      cases hm.symm.trans hn
      have hkept := hfit.narrowing?_kept (x := o.node) (by rw [he, IdMap.get?_insert, if_pos rfl])
      rw [range?, hkept] at hr'
      cases hr'
      exact .of_meet?_left hrange
    · rw [range?_narrow_of_ne hx] at hr'
      cases hr.symm.trans hr'
      exact .refl _

/-- A lesson about a test without a fact loses nothing that was known. -/
theorem RangesFit.learn {c : Condition} (hk : k.RangesFit stamp) (hs : c.StampedBy stamp) (hnew : k.fact? c.test = none)
    (truth : Bool) :
    (k.learn origin c truth).RangesFit stamp ∧ (k.learn origin c truth).Subsumes stamp k := by
  have hrefl := Subsumes.refl hstamp hk
  refine learn_induct (Q := fun k' => k'.RangesFit stamp ∧ k'.Subsumes stamp k) ⟨?_, ?_, ?_, ?_⟩ ?_
  · simpa [RangesFit] using hk
  · exact fun x e he => ⟨e, mem_classFacts_addFact he _, rfl, rfl⟩
  · intro t f hf
    have ht : t ≠ c.test := by
      rintro rfl
      cases hnew.symm.trans hf
    exact ⟨f, by rw [addFact_fact?, if_neg ht, hf], rfl⟩
  · simpa using hrefl.ranges
  · rintro k' o constraint ho ⟨hfit, hsub⟩
    exact ⟨hfit.narrow hstamp (hs o ho) constraint, (hfit.narrow_subsumes hstamp (hs o ho) constraint).trans hsub⟩

theorem Learnt.rangesFit {classes : ClassTable} {lessons : List Lesson} (h : Learnt classes lessons k)
    (hs : ∀ l ∈ lessons, l.condition.StampedBy stamp) : k.RangesFit stamp := by
  induction h with
  | nil => exact fun x n hn => by simp at hn
  | @cons past k l _ _ _ hnone ih =>
    have hk := ih fun e he => hs e (List.mem_cons_of_mem l he)
    exact (hk.learn hstamp (hs l List.mem_cons_self) (fact?_eq_none_of_lookup? hnone) l.truth).1

end

end Known

end GuardElision
