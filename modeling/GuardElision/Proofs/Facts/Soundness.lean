import GuardElision.Proofs.ClassTable
import GuardElision.Proofs.Facts.Meaning
import GuardElision.Proofs.Facts.Scope
import GuardElision.Proofs.IntervalOrder

namespace GuardElision

/-- One thing learnt: a condition, the outcome of its test, and where it came from. -/
structure Lesson where
  condition : Condition
  truth : Bool
  origin : Origin

namespace Lesson

def fact (l : Lesson) : Fact :=
  ⟨l.condition.test, l.truth, l.origin⟩

end Lesson

namespace Known

/-- What is known was learnt in a series of lessons, latest first, each about a test that was
undecided then. -/
inductive Learnt (classes : ClassTable) : List Lesson → Known → Prop where
  | nil : Learnt classes [] {}
  | cons {past : List Lesson} {k : Known} {l : Lesson} : Learnt classes past k →
    (∀ e ∈ past, e.origin.seq < l.origin.seq) → l.condition.Matched →
    k.lookup? classes l.condition = none →
    Learnt classes (l :: past) (k.learn l.origin l.condition l.truth)

/-- The facts up to a sequence number hold. -/
def HoldsUpTo (V : Valuation) (facts : List Fact) (seq : Nat) : Prop :=
  ∀ f ∈ facts, f.origin.seq ≤ seq → f.Holds V

theorem HoldsUpTo.mono {V : Valuation} {facts : List Fact} {m n : Nat} (h : HoldsUpTo V facts n)
    (hmn : m ≤ n) : HoldsUpTo V facts m :=
  fun f hf hs => h f hf (hs.trans hmn)

/-- The facts that a bound rests on hold. -/
def Backed (V : Valuation) (facts : List Fact) (origin : Option Origin) : Prop :=
  ∀ o, origin = some o → HoldsUpTo V facts o.seq

/-- Each bound follows from the facts it rests on. -/
def Narrows (V : Valuation) (facts : List Fact) (n : Narrowing) (w : Word) : Prop :=
  (Backed V facts n.lower → Interval.AboveLo n.range.lo w) ∧
    (Backed V facts n.upper → Interval.BelowHi n.range.hi w)

/-- Every range that is kept says only what the facts behind its bounds imply. -/
def RangesSound (V : Valuation) (k : Known) : Prop :=
  ∀ x n w, k.ranges.get? x = some n → V.value x = .int w → Narrows V k.facts n w

variable {V : Valuation} {k : Known} {o : Operand} {n : Narrowing} {w : Word}

theorem mem_of_narrows {facts : List Fact} (h : Narrows V facts n w)
    (hall : ∀ f ∈ facts, f.Holds V) : w ∈ n.range :=
  ⟨h.1 fun _ _ f hf _ => hall f hf, h.2 fun _ _ f hf _ => hall f hf⟩

theorem narrowing?_narrows (hk : k.RangesSound V) (ho : V.Admits o) (hn : k.narrowing? o = some n) :
    ∃ w, V.value o.node = .int w ∧ Narrows V k.facts n w := by
  obtain ⟨base, hb, hn⟩ := Option.bind_eq_some_iff.mp hn
  obtain ⟨w, hw, hm⟩ := V.exists_int ho hb
  refine ⟨w, hw, ?_⟩
  split at hn
  next kept hg =>
    obtain ⟨range, hr, rfl⟩ := Option.map_eq_some_iff.mp hn
    obtain ⟨hlo, hhi⟩ := hk _ _ _ hg hw
    rw [Interval.meet?_eq_some hr]
    exact ⟨fun h => Interval.aboveLo_raise.mpr ⟨hm.1, hlo h⟩,
      fun h => Interval.belowHi_lower.mpr ⟨hm.2, hhi h⟩⟩
  next =>
    cases Option.some.inj hn
    exact ⟨fun _ => hm.1, fun _ => hm.2⟩

theorem range?_mem (hk : k.RangesSound V) (hall : ∀ f ∈ k.facts, f.Holds V) (ho : V.Admits o)
    {r : Interval} (hr : k.range? o = some r) : ∃ w, V.value o.node = .int w ∧ w ∈ r := by
  obtain ⟨n, hn, rfl⟩ := Option.map_eq_some_iff.mp hr
  obtain ⟨w, hw, h⟩ := narrowing?_narrows hk ho hn
  exact ⟨w, hw, mem_of_narrows h hall⟩

/-- When the facts hold, an integer operand has a known range. -/
theorem exists_range? (hk : k.RangesSound V) (hall : ∀ f ∈ k.facts, f.Holds V) (ho : V.Admits o)
    {base : Interval} (hb : o.stamp.range? = some base) :
    ∃ w r, V.value o.node = .int w ∧ k.range? o = some r ∧ w ∈ r := by
  obtain ⟨w, hw, hm⟩ := V.exists_int ho hb
  cases hg : k.ranges.get? o.node with
  | none => exact ⟨w, base, hw, by simp [range?, narrowing?, hb, hg], hm⟩
  | some kept =>
    have hin := mem_of_narrows (hk _ _ _ hg hw) hall
    obtain ⟨t, ht, hmt⟩ := Interval.exists_meet? hm hin
    exact ⟨w, t, hw, by simp [range?, narrowing?, hb, hg, ht], hmt⟩

/-- Narrowing does nothing, or keeps the meet and credits its origin with the bounds that moved. -/
theorem narrow_cases (k : Known) (origin : Origin) (o : Operand) (constraint : Interval) :
    k.narrow origin o constraint = k ∨
    ∃ n range, k.narrowing? o = some n ∧ n.range.meet? constraint = some range ∧
      k.narrow origin o constraint =
        { k with
          ranges := k.ranges.insert o.node ⟨range, if range.lo = n.range.lo then n.lower else some origin,
            if range.hi = n.range.hi then n.upper else some origin⟩
          log := .range o.node (k.ranges.get? o.node) :: k.log } := by
  unfold narrow
  split
  next => exact .inl rfl
  next n hn =>
    split
    next => exact .inl rfl
    next range hrange =>
      split
      next => exact .inl rfl
      next => exact .inr ⟨n, range, hn, hrange, rfl⟩

/-- Narrowing to a constraint that holds once all facts do keeps ranges sound, if the credited origin
is at least as late as every fact. -/
theorem narrow_rangesSound (hk : k.RangesSound V) (ho : V.Admits o) {origin : Origin}
    (hlate : ∀ f ∈ k.facts, f.origin.seq ≤ origin.seq) {constraint : Interval}
    (hc : (∀ f ∈ k.facts, f.Holds V) → ∀ w, V.value o.node = .int w → w ∈ constraint) :
    (k.narrow origin o constraint).RangesSound V := by
  rcases k.narrow_cases origin o constraint with he | ⟨current, range, hn, hr, he⟩
  · rwa [he]
  · rw [he]
    intro x n w hg hw
    rw [IdMap.get?_insert] at hg
    split at hg
    next he =>
      subst he
      cases Option.some.inj hg
      obtain ⟨w', hw', hcur⟩ := narrowing?_narrows hk ho hn
      cases hw.symm.trans hw'
      have hfull : HoldsUpTo V k.facts origin.seq → w ∈ range := by
        intro h
        have hall : ∀ f ∈ k.facts, f.Holds V := fun f hf => h f hf (hlate f hf)
        exact (Interval.mem_of_meet? hr).mpr ⟨mem_of_narrows hcur hall, hc hall w hw⟩
      constructor
      · intro hb
        dsimp only at hb ⊢
        split at hb
        next he => exact he ▸ hcur.1 hb
        next => exact (hfull (hb _ rfl)).1
      · intro hb
        dsimp only at hb ⊢
        split at hb
        next he => exact he ▸ hcur.2 hb
        next => exact (hfull (hb _ rfl)).2
    next => exact hk x n w hg hw

@[simp]
theorem narrow?_facts (k : Known) (origin : Origin) (o : Operand) (constraint : Option Interval) :
    (k.narrow? origin o constraint).facts = k.facts := by
  cases constraint <;> simp [narrow?]

theorem narrow?_rangesSound (hk : k.RangesSound V) (ho : V.Admits o) {origin : Origin}
    (hlate : ∀ f ∈ k.facts, f.origin.seq ≤ origin.seq) {constraint : Option Interval}
    (hc : (∀ f ∈ k.facts, f.Holds V) → ∀ w, V.value o.node = .int w → ∀ c, constraint = some c → w ∈ c) :
    (k.narrow? origin o constraint).RangesSound V := by
  cases constraint with
  | none => exact hk
  | some c => exact narrow_rangesSound hk ho hlate fun hall w hw => hc hall w hw c rfl

/-- Narrows both operands of a comparison by constraints made from their ranges. -/
def constrain (a b : Operand) (left right : Interval → Interval → Option Interval) (origin : Origin) (k : Known) :
    Known :=
  match k.range? a, k.range? b with
  | some ra, some rb => (k.narrow? origin a (left ra rb)).narrow? origin b (right rb ra)
  | _, _ => k

theorem learnLess_eq (k : Known) (origin : Origin) (a b : Operand) (truth : Bool) :
    k.learnLess origin a b truth =
      if truth then
        constrain a b (fun _ other => (other.hi.bind Word.pred?).map .atMost)
          (fun _ other => (other.lo.bind Word.succ?).map .atLeast) origin k
      else constrain a b (fun _ other => other.lo.map .atLeast) (fun _ other => other.hi.map .atMost) origin k := by
  unfold learnLess constrain
  cases truth <;> cases k.range? a <;> cases k.range? b <;> rfl

theorem learnEqual_eq (k : Known) (origin : Origin) (a b : Operand) (truth : Bool) :
    k.learnEqual origin a b truth =
      if truth then constrain a b (fun _ other => some other) (fun _ other => some other) origin k
      else
        constrain a b (fun own other => other.constant?.bind (own.assumeEq? · false))
          (fun own other => other.constant?.bind (own.assumeEq? · false)) origin k := by
  unfold learnEqual constrain
  cases truth <;> cases k.range? a <;> cases k.range? b <;> rfl

section Learn

variable {a b : Operand} {origin : Origin} {truth : Bool}

theorem constrain_rangesSound {R : Word → Word → Prop} {left right : Interval → Interval → Option Interval}
    (hk : k.RangesSound V) (ha : V.Admits a) (hb : V.Admits b) (hlate : ∀ f ∈ k.facts, f.origin.seq ≤ origin.seq)
    (hleft : Interval.Tightens R left) (hright : Interval.Tightens (fun y x => R x y) right)
    (hR : (∀ f ∈ k.facts, f.Holds V) → ∀ x y, V.value a.node = .int x → V.value b.node = .int y → R x y) :
    (constrain a b left right origin k).RangesSound V := by
  unfold constrain
  split
  next ra rb hra hrb =>
    have hvalues : (∀ f ∈ k.facts, f.Holds V) → ∃ x y, V.value a.node = .int x ∧ x ∈ ra ∧
        V.value b.node = .int y ∧ y ∈ rb ∧ R x y := by
      intro hall
      obtain ⟨x, hx, hxr⟩ := range?_mem hk hall ha hra
      obtain ⟨y, hy, hyr⟩ := range?_mem hk hall hb hrb
      exact ⟨x, y, hx, hxr, hy, hyr, hR hall x y hx hy⟩
    refine narrow?_rangesSound (narrow?_rangesSound hk ha hlate ?_) hb (by simpa using hlate) ?_
    · intro hall w hw c hc
      obtain ⟨x, y, hx, hxr, -, hyr, hxy⟩ := hvalues hall
      cases hw.symm.trans hx
      exact hleft.mem hxr hyr hxy hc
    · intro hall w hw c hc
      obtain ⟨x, y, -, hxr, hy, hyr, hxy⟩ := hvalues (by simpa using hall)
      cases hw.symm.trans hy
      exact hright.mem hyr hxr hxy hc
  next => exact hk

variable (hk : k.RangesSound V) (ha : V.Admits a) (hb : V.Admits b)
  (hlate : ∀ f ∈ k.facts, f.origin.seq ≤ origin.seq)
include hk ha hb hlate

theorem learnLess_rangesSound (ht : (∀ f ∈ k.facts, f.Holds V) → V.truth (.lessThan a.node b.node) = truth) :
    (k.learnLess origin a b truth).RangesSound V := by
  rw [learnLess_eq]
  cases truth with
  | true =>
    refine constrain_rangesSound hk ha hb hlate Interval.tightens_less Interval.tightens_greater fun hall x y hx hy => ?_
    simpa [Valuation.truth, hx, hy] using ht hall
  | false =>
    refine constrain_rangesSound hk ha hb hlate Interval.tightens_notLess Interval.tightens_notGreater
      fun hall x y hx hy => ?_
    simpa [Valuation.truth, hx, hy] using ht hall

theorem learnEqual_rangesSound (ht : (∀ f ∈ k.facts, f.Holds V) → V.truth (.equals a.node b.node) = truth) :
    (k.learnEqual origin a b truth).RangesSound V := by
  rw [learnEqual_eq]
  cases truth with
  | true =>
    refine constrain_rangesSound hk ha hb hlate Interval.tightens_equal (Interval.tightens_equal.swap fun _ _ => Eq.symm)
      fun hall x y hx hy => ?_
    simpa [Valuation.truth, hx, hy] using ht hall
  | false =>
    refine constrain_rangesSound hk ha hb hlate Interval.tightens_unequal
      (Interval.tightens_unequal.swap fun _ _ => Ne.symm) fun hall x y hx hy => ?_
    simpa [Valuation.truth, hx, hy] using ht hall

theorem learnBelow_rangesSound (ht : (∀ f ∈ k.facts, f.Holds V) → V.truth (.below a.node b.node) = true) :
    (k.learnBelow origin a b).RangesSound V := by
  unfold learnBelow
  split
  next => exact hk
  next rb hrb =>
    split
    next hnn =>
      have hvalues : (∀ f ∈ k.facts, f.Holds V) → ∃ x y, V.value a.node = .int x ∧ V.value b.node = .int y ∧
          y ∈ rb ∧ Word.below x y = true := by
        intro hall
        obtain ⟨y, hy, hyr⟩ := range?_mem hk hall hb hrb
        have hbelow := ht hall
        simp only [Valuation.truth, hy] at hbelow
        split at hbelow
        next x y' hx he =>
          cases he
          exact ⟨x, y, hx, hy, hyr, hbelow⟩
        next => cases hbelow
      have hka : (k.narrow origin a ⟨some 0, rb.hi.bind Word.pred?⟩).RangesSound V := by
        refine narrow_rangesSound hk ha hlate fun hall w hw => ?_
        obtain ⟨x, y, hx, -, hyr, hlt⟩ := hvalues hall
        cases hw.symm.trans hx
        exact Interval.tightens_below_left.mem (show w ∈ Interval.full from ⟨nofun, nofun⟩) hyr hlt (if_pos hnn)
      refine narrow?_rangesSound hka hb (by simpa using hlate) fun hall w hw c hc => ?_
      obtain ⟨x, y, hx, hy, hyr, hlt⟩ := hvalues (by simpa using hall)
      cases hw.symm.trans hy
      obtain ⟨s, hs, rfl⟩ := Option.map_eq_some_iff.mp hc
      obtain ⟨l, hl, hs⟩ := Option.bind_eq_some_iff.mp hs
      obtain ⟨ra, hra, hl⟩ := Option.bind_eq_some_iff.mp hl
      obtain ⟨x', hx', hxr⟩ := range?_mem hka hall ha hra
      cases hx.symm.trans hx'
      exact Interval.tightens_below_right.mem hyr hxr hlt (by simp [hnn, hl, hs])
    next => exact hk

end Learn

theorem learn_eq (k : Known) (l : Lesson) :
    k.learn l.origin l.condition l.truth =
      match l.condition.test with
      | .lessThan _ _ => (k.addFact l.fact).learnLess l.origin
          l.condition.left l.condition.right l.truth
      | .equals _ _ => (k.addFact l.fact).learnEqual l.origin
          l.condition.left l.condition.right l.truth
      | .below _ _ =>
        if l.truth then (k.addFact l.fact).learnBelow l.origin
          l.condition.left l.condition.right
        else k.addFact l.fact
      | .isNull _ | .instanceOf _ _ => k.addFact l.fact :=
  rfl

theorem Learnt.facts {classes : ClassTable} {lessons : List Lesson} (h : Learnt classes lessons k) :
    k.facts = lessons.map Lesson.fact := by
  induction h with
  | nil => rfl
  | cons _ _ _ hnone ih =>
    rw [learn_facts (fact?_eq_none_of_lookup? hnone), ih]
    rfl

theorem Learnt.mirrored {classes : ClassTable} {lessons : List Lesson} (h : Learnt classes lessons k) : k.Mirrored := by
  induction h with
  | nil => exact mirrored_empty
  | cons _ _ _ hnone ih => exact ih.learn (fact?_eq_none_of_lookup? hnone) _ _

theorem Learnt.rangesSound {classes : ClassTable} {lessons : List Lesson}
    (h : Learnt classes lessons k) (hV : ∀ l ∈ lessons, ∀ o ∈ l.condition.operands, V.Admits o) :
    k.RangesSound V := by
  induction h with
  | nil =>
    intro x n w hg
    simp at hg
  | @cons past k l hpast hseq hm hnone ih =>
    have hk := ih fun e he => hV e (List.mem_cons_of_mem _ he)
    have hops := hV l List.mem_cons_self
    have hfacts : (k.addFact l.fact).facts = l.fact :: k.facts :=
      addFact_facts_of_none (f := l.fact) (fact?_eq_none_of_lookup? hnone)
    have hadd : Known.RangesSound V (k.addFact l.fact) := by
      intro x n w hg hw
      rw [addFact_ranges] at hg
      obtain ⟨hlo, hhi⟩ := hk x n w hg hw
      rw [hfacts]
      exact ⟨fun hb => hlo fun o ho f hf => hb o ho f (List.mem_cons_of_mem _ hf),
        fun hb => hhi fun o ho f hf => hb o ho f (List.mem_cons_of_mem _ hf)⟩
    have hlate : ∀ f ∈ (k.addFact l.fact).facts, f.origin.seq ≤ l.origin.seq := by
      rw [hfacts]
      intro f hf
      rcases List.mem_cons.mp hf with rfl | hf
      · exact Nat.le_refl _
      · rw [hpast.facts] at hf
        obtain ⟨e, he, rfl⟩ := List.mem_map.mp hf
        exact (hseq e he).le
    have ht : (∀ f ∈ (k.addFact l.fact).facts, f.Holds V) → V.truth l.condition.test = l.truth :=
      fun hall => hall l.fact (hfacts ▸ List.mem_cons_self)
    unfold Condition.operands at hops
    unfold Condition.Matched at hm
    rw [learn_eq]
    split
    next x y hc =>
      rw [hc] at hops hm ht
      obtain ⟨rfl, rfl⟩ := hm
      exact learnLess_rangesSound hadd (hops _ (by simp)) (hops _ (by simp)) hlate ht
    next x y hc =>
      rw [hc] at hops hm ht
      obtain ⟨rfl, rfl⟩ := hm
      exact learnEqual_rangesSound hadd (hops _ (by simp)) (hops _ (by simp)) hlate ht
    next x y hc =>
      rw [hc] at hops hm ht
      obtain ⟨rfl, rfl⟩ := hm
      split
      next htrue =>
        exact learnBelow_rangesSound hadd (hops _ (by simp)) (hops _ (by simp)) hlate
          fun hall => (ht hall).trans htrue
      next => exact hadd
    next => exact hadd
    next => exact hadd

/-- The facts an answer rests on hold; a stamp needs none. -/
def Rests (V : Valuation) (facts : List Fact) : Source → Prop
  | .stamp => True
  | .guard o => HoldsUpTo V facts o.seq

/-- The answer is right whenever what it rests on holds. -/
def Right (V : Valuation) (facts : List Fact) (t : Test) (e : Evidence) : Prop :=
  Rests V facts e.source → V.truth t = e.truth

/-- The better of two pieces of evidence is one of them. -/
theorem best?_eq_some {x y : Option Evidence} {e : Evidence} (h : Evidence.best? x y = some e) :
    x = some e ∨ y = some e := by
  unfold Evidence.best? at h
  split at h
  next a b =>
    split at h
    · exact .inl h
    · exact .inr h
  next =>
    cases x with
    | none => exact .inr (by simpa using h)
    | some a => exact .inl (by simpa using h)

theorem foldl_best?_eq_some {α : Type} {answer : α → Option Evidence} {tests : List α} {start : Option Evidence}
    {e : Evidence} (h : tests.foldl (fun best p => Evidence.best? best (answer p)) start = some e) :
    start = some e ∨ ∃ p ∈ tests, answer p = some e := by
  induction tests generalizing start with
  | nil => exact .inl h
  | cons p tests ih =>
    rcases ih h with hbest | ⟨q, hq, he⟩
    · rcases best?_eq_some hbest with he | he
      · exact .inl he
      · exact .inr ⟨p, List.mem_cons_self, he⟩
    · exact .inr ⟨q, List.mem_cons_of_mem p hq, he⟩

theorem fact?_right {t : Test} {f : Fact} (h : k.fact? t = some f) :
    f.test = t ∧ (HoldsUpTo V k.facts f.origin.seq → V.truth t = f.truth) := by
  have ht : f.test = t := by simpa using List.find?_some h
  have hm : f ∈ k.facts := List.mem_of_find?_eq_some h
  exact ⟨ht, fun hh => ht ▸ hh f hm (Nat.le_refl _)⟩

theorem Mirrored.mem_classFacts (h : k.Mirrored) {x : NodeId} {e : ClassFact} :
    e ∈ k.classFacts x ↔ ⟨.instanceOf x e.cls, e.truth, e.origin⟩ ∈ k.facts := by
  rw [h.classFacts_eq, List.mem_filterMap]
  constructor
  · rintro ⟨f, hf, he⟩
    exact Fact.classFact?_eq_some_iff.mp he ▸ hf
  · intro hf
    exact ⟨_, hf, Fact.classFact?_eq_some_iff.mpr rfl⟩

theorem impliedNull?_right (hk : k.Mirrored) {x : NodeId} {s : Stamp} {e : Evidence} (hs : V.Admits ⟨x, s⟩)
    (h : k.impliedNull? x s = some e) : Right V k.facts (.isNull x) e := by
  unfold impliedNull? at h
  unfold Valuation.Admits at hs
  split at h
  next hn =>
    cases Option.some.inj h
    intro _
    cases s <;> simp_all [Stamp.isNonNull, Stamp.object?]
    simp only [Valuation.truth, Evidence.ofStamp, decide_eq_false_iff_not]
    intro hv
    simp [hv, Stamp.Admits, hn] at hs
  next =>
    split at h
    next ha =>
      cases Option.some.inj h
      intro _
      cases s <;> simp_all [Stamp.isAlwaysNull, Stamp.object?]
      simp only [Valuation.truth, Evidence.ofStamp, decide_eq_true_iff]
      cases hv : V.value x <;> simp_all [Stamp.Admits]
    next =>
      obtain ⟨p, hp, rfl⟩ := Option.map_eq_some_iff.mp h
      have hm := hk.mem_classFacts.mp (List.mem_of_find?_eq_some hp)
      have htrue : p.truth = true := List.find?_some hp
      intro hr
      have hh := hr _ hm (Nat.le_refl _)
      simp only [Fact.Holds, htrue, Valuation.truth, Value.isInstance] at hh
      simp only [Valuation.truth, Evidence.ofOrigin, decide_eq_false_iff_not]
      intro hv
      simp [hv] at hh

theorem isInstance_eq_true_iff {classes : ClassTable} {heap : Heap} {cls : ClassId} {v : Value} :
    v.isInstance classes heap cls = true ↔
      ∃ i obj, v = .ref i ∧ heap[i]? = some obj ∧ classes.isSubclass obj.cls cls = true := by
  cases v <;> simp [Value.isInstance, Option.any_eq_true]

theorem stampClass?_right {x : NodeId} {cls : ClassId} {o : ObjectStamp} {truth : Bool}
    (hs : V.Admits ⟨x, .object o⟩) (h : stampClass? V.classes cls o = some truth) :
    V.truth (.instanceOf x cls) = truth := by
  unfold Valuation.Admits at hs
  dsimp only at hs
  unfold stampClass? at h
  split at h
  next ha =>
    cases Option.some.inj h
    cases hv : V.value x <;> simp_all [Stamp.Admits, Valuation.truth, Value.isInstance]
  next ha =>
    obtain ⟨declared, hd, h⟩ := Option.bind_eq_some_iff.mp h
    have hobj : ∀ i, V.value x = .ref i → ∃ obj, V.heap[i]? = some obj ∧
        V.classes.isSubclass obj.cls declared = true ∧ (o.exact = true → obj.cls = declared) := by
      intro i hi
      rw [hi] at hs
      exact hs.2 declared hd
    have hnot : (∀ obj, V.classes.isSubclass obj declared = true → (o.exact = true → obj = declared) →
        V.classes.isSubclass obj cls = false) → V.truth (.instanceOf x cls) = false := by
      intro hno
      rw [← Bool.not_eq_true, Valuation.truth, isInstance_eq_true_iff]
      rintro ⟨i, obj, hi, hg, hsub⟩
      obtain ⟨obj', hg', hd', he⟩ := hobj i hi
      cases hg.symm.trans hg'
      simp [hno obj.cls hd' he] at hsub
    split at h
    next hc =>
      cases Option.some.inj h
      rw [Bool.and_eq_true] at hc
      rw [Valuation.truth, isInstance_eq_true_iff]
      cases hv : V.value x with
      | null => simp [hv, Stamp.Admits, hc.1] at hs
      | ref i =>
        obtain ⟨obj, hg, hsub, _⟩ := hobj i hv
        exact ⟨i, obj, rfl, hg, ClassTable.isSubclass_trans hsub hc.2⟩
      | int w => simp [hv, Stamp.Admits] at hs
      | bool b => simp [hv, Stamp.Admits] at hs
    next =>
      split at h
      next hdis =>
        cases Option.some.inj h
        exact hnot fun obj hsub _ => ClassTable.not_isSubclass_of_disjoint hdis hsub
      next =>
        split at h
        next he =>
          cases Option.some.inj h
          rw [Bool.and_eq_true, Bool.not_eq_true'] at he
          exact hnot fun obj _ heq => heq he.1 ▸ he.2
        next => cases h

theorem nullClass?_right {x : NodeId} {cls : ClassId} {s : Stamp} {isNull truth : Bool}
    (hs : V.Admits ⟨x, s⟩) (hnull : V.truth (.isNull x) = isNull)
    (h : nullClass? V.classes cls (s.object?.bind (·.cls)) isNull = some truth) :
    V.truth (.instanceOf x cls) = truth := by
  unfold nullClass? at h
  simp only [Valuation.truth] at hnull
  split at h
  next hn =>
    cases Option.some.inj h
    rw [hn, decide_eq_true_iff] at hnull
    simp [Valuation.truth, hnull, Value.isInstance]
  next hn =>
    split at h
    next hd =>
      cases Option.some.inj h
      rw [← hnull, decide_eq_true_iff] at hn
      obtain ⟨declared, hdecl, hsub⟩ := (Option.any_eq_true _ _).mp hd
      obtain ⟨o, ho, hcls⟩ := Option.bind_eq_some_iff.mp hdecl
      unfold Valuation.Admits at hs
      cases s <;> simp only [Stamp.object?, reduceCtorEq, Option.some.injEq] at ho
      subst ho
      rw [Valuation.truth, isInstance_eq_true_iff]
      cases hv : V.value x with
      | null => exact absurd hv hn
      | ref i =>
        rw [hv] at hs
        obtain ⟨obj, hg, hd, _⟩ := hs.2 declared hcls
        exact ⟨i, obj, rfl, hg, ClassTable.isSubclass_trans hd hsub⟩
      | int w => simp [hv, Stamp.Admits] at hs
      | bool b => simp [hv, Stamp.Admits] at hs
    next => cases h

theorem classClass?_right {x : NodeId} {cls tested : ClassId} {known truth : Bool}
    (hknown : V.truth (.instanceOf x tested) = known)
    (h : classClass? V.classes cls tested known = some truth) : V.truth (.instanceOf x cls) = truth := by
  unfold classClass? at h
  simp only [Valuation.truth] at hknown ⊢
  split at h
  next hk =>
    rw [hk, isInstance_eq_true_iff] at hknown
    obtain ⟨i, obj, hi, hg, hsub⟩ := hknown
    split at h
    next hc =>
      cases Option.some.inj h
      exact isInstance_eq_true_iff.mpr ⟨i, obj, hi, hg, ClassTable.isSubclass_trans hsub hc⟩
    next =>
      split at h
      next hd =>
        cases Option.some.inj h
        rw [hi, Value.isInstance, hg]
        exact ClassTable.not_isSubclass_of_disjoint hd hsub
      next => cases h
  next hk =>
    split at h
    next hc =>
      cases Option.some.inj h
      rw [Bool.not_eq_true] at hk
      rw [hk, ← Bool.not_eq_true] at hknown
      rw [← Bool.not_eq_true]
      intro hi
      obtain ⟨i, obj, hi, hg, hsub⟩ := isInstance_eq_true_iff.mp hi
      exact hknown (isInstance_eq_true_iff.mpr ⟨i, obj, hi, hg, ClassTable.isSubclass_trans hsub hc⟩)
    next => cases h

theorem impliedClass?_right (hk : k.Mirrored) {x : NodeId} {cls : ClassId} {s : Stamp} {e : Evidence}
    (hs : V.Admits ⟨x, s⟩) (h : impliedClass? V.classes k x cls s = some e) :
    Right V k.facts (.instanceOf x cls) e := by
  unfold impliedClass? at h
  split at h
  next truth ht =>
    cases Option.some.inj h
    obtain ⟨o, ho, ht⟩ := Option.bind_eq_some_iff.mp ht
    cases s <;> simp only [Stamp.object?, reduceCtorEq, Option.some.injEq] at ho
    subst ho
    exact fun _ => stampClass?_right hs ht
  next =>
    rcases foldl_best?_eq_some h with he | ⟨p, hp, he⟩
    · obtain ⟨f, hf, he⟩ := Option.bind_eq_some_iff.mp he
      obtain ⟨truth, ht, rfl⟩ := Option.map_eq_some_iff.mp he
      exact fun hr => nullClass?_right hs ((fact?_right hf).2 hr) ht
    · obtain ⟨truth, ht, rfl⟩ := Option.map_eq_some_iff.mp he
      exact fun hr => classClass?_right (hr _ (hk.mem_classFacts.mp hp) (Nat.le_refl _)) ht

theorem source?_rests {facts : List Fact} {s : Source} (hs : n.source? = some s) (hr : Rests V facts s) :
    Backed V facts n.lower ∧ Backed V facts n.upper := by
  unfold Narrowing.source? at hs
  cases hl : n.lower with
  | none =>
    cases hu : n.upper with
    | none => simp [hl, hu] at hs
    | some u =>
      simp only [hl, hu, Option.orElse_eq_orElse, Option.orElse_eq_or, Option.none_or, Option.map_some,
        Option.some.injEq] at hs
      subst hs
      exact ⟨by simp [Backed], fun o ho => by cases ho; exact hr⟩
  | some l =>
    cases hu : n.upper with
    | none =>
      simp only [hl, hu, Option.orElse_eq_orElse, Option.orElse_eq_or, Option.some_or, Option.map_some,
        Option.some.injEq] at hs
      subst hs
      exact ⟨fun o ho => by cases ho; exact hr, by simp [Backed]⟩
    | some u =>
      simp only [hl, hu, Option.some.injEq] at hs
      subst hs
      have hmax : ∃ m, HoldsUpTo V facts m ∧ l.seq ≤ m ∧ u.seq ≤ m := by
        split at hr
        · exact ⟨u.seq, hr, by assumption, Nat.le_refl _⟩
        · exact ⟨l.seq, hr, Nat.le_refl _, by omega⟩
      obtain ⟨m, hm, hlm, hum⟩ := hmax
      exact ⟨fun o ho => by cases ho; exact hm.mono hlm, fun o ho => by cases ho; exact hm.mono hum⟩

theorem backed_of_source?_none {facts : List Fact} (hs : n.source? = none) :
    Backed V facts n.lower ∧ Backed V facts n.upper := by
  unfold Narrowing.source? at hs
  cases hl : n.lower <;> cases hu : n.upper <;> simp_all [Backed]

theorem closer_rests {facts : List Fact} {s t : Source} (hr : Rests V facts (s.closer t)) :
    (∃ a b, s = .guard a ∧ t = .guard b) → Rests V facts s ∧ Rests V facts t := by
  rintro ⟨a, b, rfl, rfl⟩
  simp only [Source.closer] at hr
  split at hr
  · exact ⟨hr, HoldsUpTo.mono hr (by assumption)⟩
  · exact ⟨HoldsUpTo.mono hr (by omega), hr⟩

theorem source?_isGuard {s : Source} (hs : n.source? = some s) : ∃ a, s = .guard a := by
  unfold Narrowing.source? at hs
  split at hs
  · exact ⟨_, (Option.some.inj hs).symm⟩
  · obtain ⟨o, _, rfl⟩ := Option.map_eq_some_iff.mp hs
    exact ⟨o, rfl⟩

theorem pair_source_rests {facts : List Fact} {m n : Narrowing}
    (hr : Rests V facts (match m.source?, n.source? with
      | some x, some y => x.closer y
      | some x, none => x
      | none, some y => y
      | none, none => .stamp)) :
    (Backed V facts m.lower ∧ Backed V facts m.upper) ∧ (Backed V facts n.lower ∧ Backed V facts n.upper) := by
  cases hm : m.source? with
  | none =>
    cases hn : n.source? with
    | none => exact ⟨backed_of_source?_none hm, backed_of_source?_none hn⟩
    | some y =>
      simp only [hm, hn] at hr
      exact ⟨backed_of_source?_none hm, source?_rests hn hr⟩
  | some x =>
    cases hn : n.source? with
    | none =>
      simp only [hm, hn] at hr
      exact ⟨source?_rests hm hr, backed_of_source?_none hn⟩
    | some y =>
      simp only [hm, hn] at hr
      obtain ⟨a, ha⟩ := source?_isGuard hm
      obtain ⟨b, hb⟩ := source?_isGuard hn
      obtain ⟨hx, hy⟩ := closer_rests hr ⟨a, b, ha, hb⟩
      exact ⟨source?_rests hm hx, source?_rests hn hy⟩

theorem impliedOrder?_right {decide? : Interval → Interval → Option Bool} {a b : Operand} {t : Test}
    {e : Evidence} (hk : k.RangesSound V) (ha : V.Admits a) (hb : V.Admits b)
    (hdecide : ∀ r s x y truth, decide? r s = some truth → V.value a.node = .int x → x ∈ r →
      V.value b.node = .int y → y ∈ s → V.truth t = truth)
    (h : k.impliedOrder? decide? a b = some e) : Right V k.facts t e := by
  obtain ⟨ra, hra, h⟩ := Option.bind_eq_some_iff.mp h
  obtain ⟨rb, hrb, h⟩ := Option.bind_eq_some_iff.mp h
  obtain ⟨x, hx, hxr⟩ := V.exists_int ha hra
  obtain ⟨y, hy, hyr⟩ := V.exists_int hb hrb
  split at h
  next truth ht =>
    cases Option.some.inj h
    exact fun _ => hdecide ra rb x y truth ht hx hxr hy hyr
  next =>
    obtain ⟨na, hna, h⟩ := Option.bind_eq_some_iff.mp h
    obtain ⟨nb, hnb, h⟩ := Option.bind_eq_some_iff.mp h
    obtain ⟨truth, ht, h⟩ := Option.bind_eq_some_iff.mp h
    cases Option.some.inj h
    intro hr
    obtain ⟨⟨hal, hau⟩, hbl, hbu⟩ := pair_source_rests hr
    obtain ⟨x', hx', hxn⟩ := narrowing?_narrows hk ha hna
    obtain ⟨y', hy', hyn⟩ := narrowing?_narrows hk hb hnb
    exact hdecide _ _ x' y' truth ht hx' ⟨hxn.1 hal, hxn.2 hau⟩ hy' ⟨hyn.1 hbl, hyn.2 hbu⟩

theorem implied?_right {c : Condition} {e : Evidence} (hmirrored : k.Mirrored) (hk : k.RangesSound V) (hm : c.Matched)
    (hc : ∀ o ∈ c.operands, V.Admits o) (h : implied? V.classes k c = some e) :
    Right V k.facts c.test e := by
  unfold implied? at h
  unfold Condition.Matched at hm
  unfold Condition.operands at hc
  cases ht : c.test with
  | isNull x =>
    simp only [ht] at h hm hc
    subst hm
    exact impliedNull?_right hmirrored (hc c.left (by simp)) h
  | instanceOf x cls =>
    simp only [ht] at h hm hc
    subst hm
    exact impliedClass?_right hmirrored (hc c.left (by simp)) h
  | equals x y =>
    simp only [ht] at h hm hc
    obtain ⟨rfl, rfl⟩ := hm
    refine impliedOrder?_right hk (hc _ (by simp)) (hc _ (by simp)) ?_ h
    intro r s x y truth hd hx hxr hy hys
    simpa [Valuation.truth, hx, hy] using Interval.eq?_sound hd hxr hys
  | lessThan x y =>
    simp only [ht] at h hm hc
    obtain ⟨rfl, rfl⟩ := hm
    refine impliedOrder?_right hk (hc _ (by simp)) (hc _ (by simp)) ?_ h
    intro r s x y truth hd hx hxr hy hys
    simpa [Valuation.truth, hx, hy] using Interval.lt?_sound hd hxr hys
  | below x y =>
    simp only [ht] at h hm hc
    obtain ⟨rfl, rfl⟩ := hm
    refine impliedOrder?_right hk (hc _ (by simp)) (hc _ (by simp)) ?_ h
    intro r s x y truth hd hx hxr hy hys
    simpa [Valuation.truth, hx, hy] using Interval.below?_sound hd hxr hys

theorem lookup?_right {c : Condition} {e : Evidence} (hmirrored : k.Mirrored) (hk : k.RangesSound V) (hm : c.Matched)
    (hc : ∀ o ∈ c.operands, V.Admits o) (h : lookup? V.classes k c = some e) :
    Right V k.facts c.test e := by
  rcases best?_eq_some h with he | he
  · obtain ⟨f, hf, rfl⟩ := Option.map_eq_some_iff.mp he
    exact (fact?_right hf).2
  · exact implied?_right hmirrored hk hm hc he

theorem Learnt.lookup?_right {lessons : List Lesson} {c : Condition} (h : Learnt V.classes lessons k)
    (hadmits : ∀ l ∈ lessons, ∀ o ∈ l.condition.operands, V.Admits o)
    (hholds : ∀ l ∈ lessons, l.fact.Holds V) (hc : c.Matched) (hops : ∀ o ∈ c.operands, V.Admits o)
    {e : Evidence} (he : lookup? V.classes k c = some e) : V.truth c.test = e.truth := by
  refine Known.lookup?_right h.mirrored (h.rangesSound hadmits) hc hops he ?_
  have hall : ∀ f ∈ k.facts, f.Holds V := by
    intro f hf
    rw [h.facts] at hf
    obtain ⟨l, hl, rfl⟩ := List.mem_map.mp hf
    exact hholds l hl
  unfold Rests
  split
  · trivial
  · exact fun f hf _ => hall f hf

end Known

namespace Facts

theorem implies_right {V : Valuation} {c d : Condition} {truth truth' : Bool}
    (himp : implies V.classes c truth d truth' = true) (hc : c.Matched) (hd : d.Matched)
    (hopsc : ∀ o ∈ c.operands, V.Admits o) (hopsd : ∀ o ∈ d.operands, V.Admits o)
    (ht : V.truth c.test = truth) : V.truth d.test = truth' := by
  have hanswer : ∀ lessons k, Known.Learnt V.classes lessons k →
      (∀ l ∈ lessons, (∀ o ∈ l.condition.operands, V.Admits o) ∧ l.fact.Holds V) →
      (k.lookup? V.classes d).any (·.truth = truth') = true → V.truth d.test = truth' := by
    intro lessons k hk hlessons hany
    obtain ⟨e, he, ht⟩ := (Option.any_eq_true _ _).mp hany
    rw [hk.lookup?_right (fun l hl => (hlessons l hl).1) (fun l hl => (hlessons l hl).2) hd hopsd he]
    exact of_decide_eq_true ht
  unfold implies at himp
  cases hl : (ofClasses V.classes).lookup? c with
  | some e =>
    rw [push_of_some hl] at himp
    dsimp only at himp
    split at himp
    next => cases himp
    next => exact hanswer [] {} .nil (by simp) himp
  | none =>
    rw [push_of_none hl] at himp
    let l : Lesson := ⟨c, truth, ⟨c.test.subject, 0⟩⟩
    refine hanswer [l] _ (.cons (l := l) .nil (by simp) hc hl) (fun l' hl' => ?_) himp
    obtain rfl := List.mem_singleton.mp hl'
    exact ⟨hopsc, ht⟩

/-- What can happen to facts. -/
inductive Action where
  | enter
  | exit
  | push (condition : Condition) (truth : Bool) (guard : NodeId)

def act (f : Facts) : Action → Facts
  | .enter => f.enterScope
  | .exit => f.exitScope
  | .push c truth guard => (f.push c truth guard).2

/-- The facts after a series of actions, from none on. -/
def replay (classes : ClassTable) (actions : List Action) : Facts :=
  actions.foldl act (ofClasses classes)

/-- Every scope was learnt from conditions of some sort, and later pushes get later numbers. -/
structure Traced (P : Condition → Prop) (f : Facts) : Prop where
  known : ∃ lessons, Known.Learnt f.classes lessons f.known ∧
    ∀ l ∈ lessons, P l.condition ∧ l.origin.seq < f.nextSeq
  outer : ∀ k ∈ f.outer, ∃ lessons, Known.Learnt f.classes lessons k ∧
    ∀ l ∈ lessons, P l.condition ∧ l.origin.seq < f.nextSeq

namespace Traced

variable {P : Condition → Prop} {f : Facts}

theorem ofClasses (classes : ClassTable) : Traced P (Facts.ofClasses classes) where
  known := ⟨[], .nil, by simp⟩
  outer := by simp [Facts.outer, Facts.ofClasses, Known.unwind]

theorem enterScope (h : f.Traced P) : f.enterScope.Traced P where
  known := h.known
  outer := by
    intro k hk
    rcases List.mem_cons.mp (f.enterScope_outer ▸ hk) with rfl | hk
    · exact h.known
    · exact h.outer k hk

theorem exitScope (h : f.Traced P) : f.exitScope.Traced P := by
  obtain ⟨-, he⟩ | ⟨known, outer, ho, hknown, houter, hclasses, hseq⟩ := f.exitScope_cases
  · exact he.symm ▸ h
  · constructor
    · rw [hknown, hclasses, hseq]
      exact h.outer known (by simp [ho])
    · intro k hk
      rw [hclasses, hseq]
      exact h.outer k (by simp [ho, houter ▸ hk])

theorem push (h : f.Traced P) {c : Condition} (hP : P c) (hm : c.Matched) (truth : Bool)
    (guard : NodeId) : (f.push c truth guard).2.Traced P := by
  have houter := f.push_outer c truth guard
  cases hl : f.lookup? c with
  | some e =>
    rw [push_of_some hl]
    exact h
  | none =>
    rw [push_of_none hl] at houter ⊢
    obtain ⟨lessons, hk, hs⟩ := h.known
    refine ⟨⟨⟨c, truth, ⟨guard, f.nextSeq⟩⟩ :: lessons, ?_, ?_⟩, ?_⟩
    · exact Known.Learnt.cons (l := ⟨c, truth, ⟨guard, f.nextSeq⟩⟩) hk (fun l hm => (hs l hm).2) hm hl
    · intro l hl
      rcases List.mem_cons.mp hl with rfl | hl
      · exact ⟨hP, Nat.lt_succ_self _⟩
      · exact ⟨(hs l hl).1, Nat.lt_succ_of_lt (hs l hl).2⟩
    · intro k hk
      obtain ⟨lessons, hk, hs⟩ := h.outer k (houter ▸ hk)
      exact ⟨lessons, hk, fun l hl => ⟨(hs l hl).1, Nat.lt_succ_of_lt (hs l hl).2⟩⟩

end Traced

theorem act_classes (f : Facts) (a : Action) : (f.act a).classes = f.classes := by
  cases a with
  | enter => rfl
  | exit =>
    simp only [act, exitScope]
    split <;> rfl
  | push c truth guard => exact f.push_classes c truth guard

theorem foldl_act_classes (actions : List Action) (f : Facts) : (actions.foldl act f).classes = f.classes := by
  induction actions generalizing f with
  | nil => rfl
  | cons a actions ih => exact (ih (f.act a)).trans (act_classes f a)

theorem replay_classes (classes : ClassTable) (actions : List Action) :
    (replay classes actions).classes = classes :=
  foldl_act_classes actions (ofClasses classes)

theorem replay_traced {P : Condition → Prop} {classes : ClassTable} {actions : List Action}
    (hP : ∀ c truth guard, .push c truth guard ∈ actions → P c ∧ c.Matched) :
    (replay classes actions).Traced P := by
  suffices h : ∀ f : Facts, f.Traced P → (actions.foldl act f).Traced P from h _ (.ofClasses classes)
  induction actions with
  | nil => exact fun _ h => h
  | cons a actions ih =>
    intro f hf
    refine ih (fun c t g hm => hP c t g (List.mem_cons_of_mem _ hm)) _ ?_
    cases a with
    | enter => exact hf.enterScope
    | exit => exact hf.exitScope
    | push c truth guard =>
      obtain ⟨hc, hm⟩ := hP c truth guard List.mem_cons_self
      exact hf.push hc hm truth guard

/-- After any series of scopes and pushes, answers and ranges are right about every valuation that
fits the stamps of the operands in play: an answer with an origin as soon as the facts up to that
origin hold, an answer by stamps always, and ranges as soon as all facts hold. -/
theorem replay_answers_hold (V : Valuation) (actions : List Action)
    (hpush : ∀ c truth guard, .push c truth guard ∈ actions →
      c.Matched ∧ ∀ o ∈ c.operands, V.Admits o)
    (c : Condition) (hc : c.Matched) (hops : ∀ o ∈ c.operands, V.Admits o) :
    (∀ truth origin, (replay V.classes actions).lookup? c = some ⟨truth, .guard origin⟩ →
      (∀ f ∈ (replay V.classes actions).known.facts, f.origin.seq ≤ origin.seq → f.Holds V) →
      V.truth c.test = truth) ∧
    (∀ truth, (replay V.classes actions).lookup? c = some ⟨truth, .stamp⟩ →
      V.truth c.test = truth) ∧
    ((∀ f ∈ (replay V.classes actions).known.facts, f.Holds V) →
      ∀ o base, o.stamp = .int base → V.Admits o →
        ∃ w r, V.value o.node = .int w ∧ (replay V.classes actions).range? o = some r ∧ w ∈ r) := by
  have htraced : (replay V.classes actions).Traced fun c => ∀ o ∈ c.operands, V.Admits o :=
    replay_traced fun c t g hm => (hpush c t g hm).symm
  obtain ⟨lessons, hlearnt, hs⟩ := htraced.known
  have hsound := hlearnt.rangesSound fun l hl => (hs l hl).1
  have hright : ∀ e, (replay V.classes actions).lookup? c = some e →
      Known.Right V (replay V.classes actions).known.facts c.test e := by
    intro e he
    rw [lookup?, replay_classes] at he
    exact Known.lookup?_right hlearnt.mirrored hsound hc hops he
  refine ⟨fun truth origin he hf => hright _ he hf, fun truth he => hright _ he trivial, ?_⟩
  intro hall o base hb ho
  exact Known.exists_range? hsound hall ho (by rw [hb]; rfl)

/-- In a scope that knows node 1 to be less than 10, a test of node 1 against 20 is answered from
that fact, and the answer and the range are right for the value 5. -/
theorem replay_answers_hold_less :
    let x : Operand := ⟨1, .int .full⟩
    let ten : Operand := ⟨2, .int (.constant 10)⟩
    let twenty : Operand := ⟨3, .int (.constant 20)⟩
    let V : Valuation := ⟨.root, [], fun n => .int (if n = 1 then 5 else if n = 2 then 10 else 20)⟩
    let f := replay .root [.enter, .push ⟨.lessThan 1 2, false, x, ten⟩ true 7]
    f.lookup? ⟨.lessThan 1 3, false, x, twenty⟩ = some ⟨true, .guard ⟨7, 0⟩⟩ ∧
    V.truth (.lessThan 1 3) = true ∧
    ∃ w r, V.value 1 = .int w ∧ f.range? x = some r ∧ w ∈ r := by
  intro x ten twenty V f
  have hx : V.Admits x := ⟨5, rfl, Interval.admits_iff.mp (by decide)⟩
  have hten : V.Admits ten := ⟨10, rfl, Interval.admits_iff.mp (by decide)⟩
  have htwenty : V.Admits twenty := ⟨20, rfl, Interval.admits_iff.mp (by decide)⟩
  have hlookup : f.lookup? ⟨.lessThan 1 3, false, x, twenty⟩ = some ⟨true, .guard ⟨7, 0⟩⟩ := by decide
  have hall : ∀ fact ∈ f.known.facts, fact.Holds V := by
    intro fact hm
    obtain rfl : fact = ⟨.lessThan 1 2, true, ⟨7, 0⟩⟩ := List.mem_singleton.mp hm
    unfold Fact.Holds
    decide
  obtain ⟨hguard, -, hrange⟩ := replay_answers_hold V [.enter, .push ⟨.lessThan 1 2, false, x, ten⟩ true 7]
    (by simp [Condition.Matched, Condition.operands, x, ten, hx, hten])
    ⟨.lessThan 1 3, false, x, twenty⟩ ⟨rfl, rfl⟩ (by simp [Condition.operands, hx, htwenty])
  exact ⟨hlookup, hguard true ⟨7, 0⟩ hlookup fun fact hm _ => hall fact hm, hrange hall x .full rfl hx⟩

end Facts

end GuardElision
