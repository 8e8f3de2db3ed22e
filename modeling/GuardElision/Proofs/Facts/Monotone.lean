import GuardElision.Proofs.Facts.Soundness
import GuardElision.Proofs.IntervalAnswers

/-!
Fewer lessons decide no more, as long as some values pass all of them. Without such values a constraint that
leaves nothing is ignored, and whoever ignores one may know less in the end.
-/

namespace GuardElision

/-- The operands of a condition come with the stamps of their nodes. -/
def Condition.StampedBy (stamp : NodeId → Stamp) (c : Condition) : Prop :=
  ∀ o ∈ c.operands, o.stamp = stamp o.node

namespace Known

variable {V : Valuation} {stamp : NodeId → Stamp} {k k' : Known} {o : Operand} {x : NodeId} {origin origin' : Origin}
  {w : Word}

/-- The values agree with all that is known. -/
structure Fits (V : Valuation) (k : Known) : Prop where
  facts : ∀ f ∈ k.facts, f.Holds V
  ranges : ∀ x n w, k.ranges.get? x = some n → V.value x = .int w → w ∈ n.range

namespace Fits

theorem rangesSound (h : k.Fits V) : k.RangesSound V := by
  intro x n w hn hw
  have hmem := h.ranges x n w hn hw
  exact ⟨fun _ => hmem.1, fun _ => hmem.2⟩

theorem mem_range? (h : k.Fits V) (ho : V.Admits o) {r : Interval} (hr : k.range? o = some r) :
    ∃ w, V.value o.node = .int w ∧ w ∈ r :=
  range?_mem h.rangesSound h.facts ho hr

/-- Whether an operand has a range is for its stamp to say. -/
theorem range?_isSome (h : k.Fits V) (ho : V.Admits o) : (k.range? o).isSome = o.stamp.range?.isSome := by
  cases hb : o.stamp.range? with
  | none => simp [range?, narrowing?, hb]
  | some base =>
    obtain ⟨w, r, -, hr, -⟩ := Known.exists_range? h.rangesSound h.facts ho hb
    rw [hr]
    rfl

theorem exists_range? (h : k.Fits V) (h' : k'.Fits V) (ho : V.Admits o) {r' : Interval} (hr' : k'.range? o = some r') :
    ∃ r, k.range? o = some r := by
  refine Option.isSome_iff_exists.mp ?_
  rw [h.range?_isSome ho, ← h'.range?_isSome ho, hr']
  rfl

theorem narrow {c : Interval} (h : k.Fits V) (ho : V.Admits o) (hc : ∀ w, V.value o.node = .int w → w ∈ c) :
    (k.narrow origin o c).Fits V := by
  refine ⟨by simpa using h.facts, ?_⟩
  rcases k.narrow_cases origin o c with he | ⟨current, range, hcurrent, hmeet, he⟩
  · rw [he]
    exact h.ranges
  · rw [he]
    intro y n w hn hw
    rw [IdMap.get?_insert] at hn
    split at hn
    next hy =>
      subst hy
      obtain rfl := Option.some.inj hn
      have hrange : k.range? o = some current.range := by simp [range?, hcurrent]
      obtain ⟨w', hw', hmem⟩ := h.mem_range? ho hrange
      cases hw.symm.trans hw'
      exact (Interval.mem_of_meet? hmeet).mpr ⟨hmem, hc w hw⟩
    next => exact h.ranges y n w hn hw

end Fits

theorem range?_narrow_of_ne {c : Interval} {o' : Operand} (h : o'.node ≠ o.node) :
    (k.narrow origin o c).range? o' = k.range? o' := by
  rcases k.narrow_cases origin o c with he | ⟨n, range, -, -, he⟩
  · rw [he]
  · rw [he]
    simp [range?, narrowing?, IdMap.get?_insert, h]

theorem covers_range? {base r : Interval} (hb : o.stamp.range? = some base) (hr : k.range? o = some r) :
    base.Covers r := by
  obtain ⟨n, hn, rfl⟩ := Option.map_eq_some_iff.mp hr
  unfold narrowing? at hn
  rw [hb, Option.bind_some] at hn
  split at hn
  next kept _ =>
    obtain ⟨range, hmeet, rfl⟩ := Option.map_eq_some_iff.mp hn
    exact .of_meet?_left hmeet
  next =>
    obtain rfl := Option.some.inj hn
    exact .refl base

/-- An operand's range after a constraint that its value satisfies: the largest one within the range
before and the constraint. -/
theorem range?_narrow {c r u : Interval} (h : k.Fits V) (ho : V.Admits o)
    (hc : ∀ w, V.value o.node = .int w → w ∈ c) (hr : k.range? o = some r)
    (hu : (k.narrow origin o c).range? o = some u) :
    r.Covers u ∧ c.Covers u ∧ ∀ b, r.Covers b → c.Covers b → u.Covers b := by
  obtain ⟨w, hw, hwr⟩ := h.mem_range? ho hr
  obtain ⟨t, ht, hwt⟩ := Interval.exists_meet? hwr (hc w hw)
  obtain ⟨n, hn, rfl⟩ := Option.map_eq_some_iff.mp hr
  have hrt := Interval.Covers.of_meet?_left ht
  have hct := Interval.Covers.of_meet?_right ht
  have hleast : ∀ b, n.range.Covers b → c.Covers b → t.Covers b := fun b hb hb' => .meet? hb hb' ht
  unfold narrow at hu
  rw [hn] at hu
  dsimp only at hu
  rw [ht] at hu
  dsimp only at hu
  split at hu
  next hsame =>
    obtain rfl := Option.some.inj (hr.symm.trans hu)
    rw [hsame] at hrt hct hleast
    exact ⟨hrt, hct, hleast⟩
  next =>
    obtain ⟨base, hbase, -⟩ := Option.bind_eq_some_iff.mp hn
    have hmeet : base.meet? t = some u := by
      simpa [range?, narrowing?, hbase, IdMap.get?_insert] using hu
    have htu := Interval.Covers.of_meet?_right hmeet
    refine ⟨hrt.trans htu, hct.trans htu, fun b hb hb' => ?_⟩
    exact .meet? ((covers_range? hbase hr).trans hb) (hleast b hb hb') hmeet

/-- `k` knows no more than `k'`, and the values agree with both. -/
structure NoMore (V : Valuation) (stamp : NodeId → Stamp) (k k' : Known) : Prop where
  fits : k.Fits V
  fits' : k'.Fits V
  facts : ∀ f ∈ k.facts, ∃ f' ∈ k'.facts, f'.test = f.test
  ranges : ∀ x r r', k.range? ⟨x, stamp x⟩ = some r → k'.range? ⟨x, stamp x⟩ = some r' → r.Covers r'

namespace NoMore

theorem refl (h : k.Fits V) : NoMore V stamp k k := by
  refine ⟨h, h, fun f hf => ⟨f, hf, rfl⟩, fun x r r' hr hr' => ?_⟩
  obtain rfl := Option.some.inj (hr.symm.trans hr')
  exact .refl r

/-- With no lessons nothing more is known than with some. -/
theorem empty (h : k.Fits V) : NoMore V stamp {} k := by
  refine ⟨⟨by simp, by simp⟩, h, by simp, fun x r r' hr hr' => ?_⟩
  have hbase : (stamp x).range? = some r := by simpa [Known.range?, narrowing?] using hr
  exact covers_range? hbase hr'

/-- Constraints that a value satisfies keep the order, if the side that knows more has the sharper one. -/
theorem narrow {c c' : Interval} (h : NoMore V stamp k k') (hx : V.Admits ⟨x, stamp x⟩) (hcovers : c.Covers c')
    (hc' : ∀ w, V.value x = .int w → w ∈ c') :
    NoMore V stamp (k.narrow origin ⟨x, stamp x⟩ c) (k'.narrow origin' ⟨x, stamp x⟩ c') := by
  have hc : ∀ w, V.value x = .int w → w ∈ c := fun w hw => hcovers.mem (hc' w hw)
  have hfits : (k.narrow origin ⟨x, stamp x⟩ c).Fits V := h.fits.narrow hx hc
  have hfits' : (k'.narrow origin' ⟨x, stamp x⟩ c').Fits V := h.fits'.narrow hx hc'
  refine ⟨hfits, hfits', by simpa using h.facts, fun y u u' hu hu' => ?_⟩
  by_cases hy : y = x
  · subst hy
    obtain ⟨r, hr⟩ := h.fits.exists_range? hfits hx hu
    obtain ⟨r', hr'⟩ := h.fits'.exists_range? hfits' hx hu'
    obtain ⟨-, -, hleast⟩ := range?_narrow h.fits hx hc hr hu
    obtain ⟨hru, hcu, -⟩ := range?_narrow h.fits' hx hc' hr' hu'
    exact hleast u' ((h.ranges y r r' hr hr').trans hru) (hcovers.trans hcu)
  · rw [range?_narrow_of_ne hy] at hu hu'
    exact h.ranges y u u' hu hu'

theorem narrow_right {c' : Interval} (h : NoMore V stamp k k') (hx : V.Admits ⟨x, stamp x⟩)
    (hc' : ∀ w, V.value x = .int w → w ∈ c') : NoMore V stamp k (k'.narrow origin' ⟨x, stamp x⟩ c') := by
  have hfits' : (k'.narrow origin' ⟨x, stamp x⟩ c').Fits V := h.fits'.narrow hx hc'
  refine ⟨h.fits, hfits', by simpa using h.facts, fun y r u' hr hu' => ?_⟩
  by_cases hy : y = x
  · subst hy
    obtain ⟨r', hr'⟩ := h.fits'.exists_range? hfits' hx hu'
    obtain ⟨hru, -, -⟩ := range?_narrow h.fits' hx hc' hr' hu'
    exact (h.ranges y r r' hr hr').trans hru
  · rw [range?_narrow_of_ne hy] at hu'
    exact h.ranges y r u' hr hu'

theorem narrow?_right {c' : Option Interval} (h : NoMore V stamp k k') (hx : V.Admits ⟨x, stamp x⟩)
    (hc' : ∀ i w, c' = some i → V.value x = .int w → w ∈ i) :
    NoMore V stamp k (k'.narrow? origin' ⟨x, stamp x⟩ c') := by
  cases c' with
  | none => exact h
  | some i' => exact h.narrow_right hx fun w hw => hc' i' w rfl hw

theorem narrow? {c c' : Option Interval} (h : NoMore V stamp k k') (hx : V.Admits ⟨x, stamp x⟩)
    (hcovers : ∀ i, c = some i → ∃ i', c' = some i' ∧ i.Covers i')
    (hc' : ∀ i w, c' = some i → V.value x = .int w → w ∈ i) :
    NoMore V stamp (k.narrow? origin ⟨x, stamp x⟩ c) (k'.narrow? origin' ⟨x, stamp x⟩ c') := by
  cases c with
  | none => exact h.narrow?_right hx hc'
  | some i =>
    obtain ⟨i', rfl, hi⟩ := hcovers i rfl
    exact h.narrow hx hi fun w hw => hc' i' w rfl hw

theorem range?_cases (h : NoMore V stamp k k') (hx : V.Admits ⟨x, stamp x⟩) :
    (k.range? ⟨x, stamp x⟩ = none ∧ k'.range? ⟨x, stamp x⟩ = none) ∨
      ∃ r r' w, k.range? ⟨x, stamp x⟩ = some r ∧ k'.range? ⟨x, stamp x⟩ = some r' ∧ r.Covers r' ∧
        V.value x = .int w ∧ w ∈ r' := by
  cases hr' : k'.range? ⟨x, stamp x⟩ with
  | none =>
    have hnone : (k.range? ⟨x, stamp x⟩).isSome = false := by
      rw [h.fits.range?_isSome hx, ← h.fits'.range?_isSome hx, hr']
      rfl
    exact .inl ⟨Option.not_isSome_iff_eq_none.mp (by simp [hnone]), rfl⟩
  | some r' =>
    obtain ⟨r, hr⟩ := h.fits.exists_range? h.fits' hx hr'
    obtain ⟨w, hw, hmem⟩ := h.fits'.mem_range? hx hr'
    exact .inr ⟨r, r', w, hr, rfl, h.ranges x r r' hr hr', hw, hmem⟩

end NoMore

/-- The order of knowledge survives a lesson, taken by both sides or only by the one that knows more. -/
structure Teaches (V : Valuation) (stamp : NodeId → Stamp) (lesson : Origin → Known → Known) : Prop where
  both : ∀ {k k' : Known} {origin origin' : Origin}, NoMore V stamp k k' →
    NoMore V stamp (lesson origin k) (lesson origin' k')
  more : ∀ {k k' : Known} {origin' : Origin}, NoMore V stamp k k' → NoMore V stamp k (lesson origin' k')

theorem Teaches.andThen {first second : Origin → Known → Known} (h : Teaches V stamp first)
    (h' : Teaches V stamp second) : Teaches V stamp fun origin k => second origin (first origin k) where
  both h₀ := h'.both (h.both h₀)
  more h₀ := h'.more (h.more h₀)

theorem Fits.addFact {f : Fact} (h : k.Fits V) (hf : f.Holds V) : (k.addFact f).Fits V := by
  refine ⟨?_, by simpa using h.ranges⟩
  rw [addFact_facts]
  exact List.forall_mem_cons.mpr ⟨hf, fun e he => h.facts e (List.mem_filter.mp he).1⟩

/-- A fact about each test with one before, and about the test of the new fact. -/
theorem exists_mem_addFact {f e : Fact} (h : e.test = f.test ∨ ∃ e' ∈ k.facts, e'.test = e.test) :
    ∃ e' ∈ (k.addFact f).facts, e'.test = e.test := by
  rw [addFact_facts]
  by_cases ht : e.test = f.test
  · exact ⟨f, List.mem_cons_self, ht.symm⟩
  · obtain ⟨e', he', hsame⟩ := h.resolve_left ht
    exact ⟨e', List.mem_cons_of_mem _ (List.mem_filter.mpr ⟨he', by simpa [hsame] using ht⟩), hsame⟩

theorem teaches_addFact {t : Test} {truth : Bool} (ht : V.truth t = truth) :
    Teaches V stamp fun origin k => k.addFact ⟨t, truth, origin⟩ where
  both := by
    intro k k' origin origin' h
    refine ⟨h.fits.addFact ht, h.fits'.addFact ht, fun f hf => exists_mem_addFact ?_, by simpa using h.ranges⟩
    rw [addFact_facts] at hf
    rcases List.mem_cons.mp hf with rfl | hf
    · exact .inl rfl
    · exact .inr (h.facts f (List.mem_filter.mp hf).1)
  more := by
    intro k k' origin' h
    exact ⟨h.fits, h.fits'.addFact ht, fun f hf => exists_mem_addFact (.inr (h.facts f hf)), by simpa using h.ranges⟩

/-- An unsigned comparison narrows one operand after the other. -/
theorem learnBelow_eq {a b : Operand} (hne : a.node ≠ b.node) (k : Known) (origin : Origin) :
    k.learnBelow origin a b =
      constrain a b (fun _ _ => none)
        (fun own other => if own.isNonNegative then (other.lo.bind Word.succ?).map .atLeast else none) origin
        (constrain a b (fun _ other => if other.isNonNegative then some ⟨some 0, other.hi.bind Word.pred?⟩ else none)
          (fun _ _ => none) origin k) := by
  unfold learnBelow
  cases hrb : k.range? b with
  | none => simp [constrain, hrb]
  | some rb =>
    cases hra : k.range? a with
    | none =>
      have hn : k.narrowing? a = none := by simpa [range?] using hra
      have hk : ∀ c, k.narrow origin a c = k := by
        intro c
        simp [narrow, hn]
      simp [constrain, hra, hk, narrow?]
    | some ra =>
      by_cases hnn : rb.isNonNegative = true
      · have hrb' : ∀ c, (k.narrow origin a c).range? b = some rb := by
          intro c
          rw [range?_narrow_of_ne hne.symm, hrb]
        simp only [constrain, hra, hrb, hrb', hnn, ↓reduceIte, narrow?]
        cases (k.narrow origin a ⟨some 0, rb.hi.bind Word.pred?⟩).range? a with
        | none => rfl
        | some ra' => simp only [hnn, ↓reduceIte, Option.bind_some]
      · simp [constrain, hra, hrb, hnn, narrow?]

theorem operands_eq {c : Condition} {a b : NodeId} (hm : c.left.node = a ∧ c.right.node = b)
    (hs : ∀ o ∈ [c.left, c.right], o.stamp = stamp o.node) : c.left = ⟨a, stamp a⟩ ∧ c.right = ⟨b, stamp b⟩ := by
  obtain ⟨rfl, rfl⟩ := hm
  exact ⟨congrArg (Operand.mk _) (hs c.left (by simp)), congrArg (Operand.mk _) (hs c.right (by simp))⟩

section Lessons

variable {R : Word → Word → Prop} {left right : Interval → Interval → Option Interval} {a b : NodeId}
  (hV : ∀ x, V.Admits ⟨x, stamp x⟩)
include hV

theorem teaches_constrain (hleft : Interval.Tightens R left) (hright : Interval.Tightens (fun y x => R x y) right)
    (hR : ∀ x y, V.value a = .int x → V.value b = .int y → R x y) :
    Teaches V stamp (constrain ⟨a, stamp a⟩ ⟨b, stamp b⟩ left right) where
  both := by
    intro k k' origin origin' h
    unfold constrain
    obtain ⟨hra, hra'⟩ | ⟨ra, ra', x, hra, hra', hca, hx, hxr⟩ := h.range?_cases (hV a)
    · rw [hra, hra']
      exact h
    obtain ⟨hrb, hrb'⟩ | ⟨rb, rb', y, hrb, hrb', hcb, hy, hyr⟩ := h.range?_cases (hV b)
    · rw [hra, hra', hrb, hrb']
      exact h
    have hxy := hR x y hx hy
    rw [hra, hra', hrb, hrb']
    have ha : NoMore V stamp (k.narrow? origin ⟨a, stamp a⟩ (left ra rb))
        (k'.narrow? origin' ⟨a, stamp a⟩ (left ra' rb')) := by
      refine h.narrow? (hV a) (fun i hi => hleft.covers hca hcb hxr hyr hxy hi) fun i w hi hw => ?_
      cases hw.symm.trans hx
      exact hleft.mem hxr hyr hxy hi
    refine ha.narrow? (hV b) (fun i hi => hright.covers hcb hca hyr hxr hxy hi) fun i w hi hw => ?_
    cases hw.symm.trans hy
    exact hright.mem hyr hxr hxy hi
  more := by
    intro k k' origin' h
    unfold constrain
    obtain ⟨-, hra'⟩ | ⟨-, ra', x, -, hra', -, hx, hxr⟩ := h.range?_cases (hV a)
    · rw [hra']
      exact h
    obtain ⟨-, hrb'⟩ | ⟨-, rb', y, -, hrb', -, hy, hyr⟩ := h.range?_cases (hV b)
    · rw [hra', hrb']
      exact h
    have hxy := hR x y hx hy
    rw [hra', hrb']
    have ha : NoMore V stamp k (k'.narrow? origin' ⟨a, stamp a⟩ (left ra' rb')) := by
      refine h.narrow?_right (hV a) fun i w hi hw => ?_
      cases hw.symm.trans hx
      exact hleft.mem hxr hyr hxy hi
    refine ha.narrow?_right (hV b) fun i w hi hw => ?_
    cases hw.symm.trans hy
    exact hright.mem hyr hxr hxy hi

theorem teaches_learnLess {truth : Bool} (ht : V.truth (.lessThan a b) = truth) :
    Teaches V stamp fun origin k => k.learnLess origin ⟨a, stamp a⟩ ⟨b, stamp b⟩ truth := by
  simp only [learnLess_eq]
  cases truth with
  | true =>
    refine teaches_constrain hV Interval.tightens_less Interval.tightens_greater fun x y hx hy => ?_
    simpa [Valuation.truth, hx, hy] using ht
  | false =>
    refine teaches_constrain hV Interval.tightens_notLess Interval.tightens_notGreater fun x y hx hy => ?_
    simpa [Valuation.truth, hx, hy] using ht

theorem teaches_learnEqual {truth : Bool} (ht : V.truth (.equals a b) = truth) :
    Teaches V stamp fun origin k => k.learnEqual origin ⟨a, stamp a⟩ ⟨b, stamp b⟩ truth := by
  simp only [learnEqual_eq]
  cases truth with
  | true =>
    have hsymm := Interval.tightens_equal.swap fun _ _ => Eq.symm
    refine teaches_constrain hV Interval.tightens_equal hsymm fun x y hx hy => ?_
    simpa [Valuation.truth, hx, hy] using ht
  | false =>
    have hsymm := Interval.tightens_unequal.swap fun _ _ => Ne.symm
    refine teaches_constrain hV Interval.tightens_unequal hsymm fun x y hx hy => ?_
    simpa [Valuation.truth, hx, hy] using ht

theorem teaches_learnBelow (ht : V.truth (.below a b) = true) :
    Teaches V stamp fun origin k => k.learnBelow origin ⟨a, stamp a⟩ ⟨b, stamp b⟩ := by
  have hne : (⟨a, stamp a⟩ : Operand).node ≠ (⟨b, stamp b⟩ : Operand).node := by
    rintro rfl
    simp only [Valuation.truth] at ht
    split at ht
    next x y hx hy =>
      cases hx.symm.trans hy
      simp [Word.below] at ht
    next => cases ht
  have hR : ∀ x y, V.value a = .int x → V.value b = .int y → Word.below x y = true := by
    intro x y hx hy
    simpa [Valuation.truth, hx, hy] using ht
  simp only [learnBelow_eq hne]
  exact (teaches_constrain hV Interval.tightens_below_left Interval.tightens_nothing hR).andThen
    (teaches_constrain hV Interval.tightens_nothing Interval.tightens_below_right hR)

theorem teaches_learn {c : Condition} {truth : Bool} (hm : c.Matched) (hs : c.StampedBy stamp)
    (ht : V.truth c.test = truth) : Teaches V stamp fun origin k => k.learn origin c truth := by
  have hfact : Teaches V stamp fun origin k => k.addFact ⟨c.test, truth, origin⟩ := teaches_addFact ht
  unfold Condition.StampedBy Condition.operands at hs
  unfold Condition.Matched at hm
  cases hc : c.test with
  | lessThan a b =>
    rw [hc] at hm hs ht hfact
    obtain ⟨hl, hr⟩ := operands_eq hm hs
    simp only [learn, hc, hl, hr]
    exact hfact.andThen (teaches_learnLess hV ht)
  | equals a b =>
    rw [hc] at hm hs ht hfact
    obtain ⟨hl, hr⟩ := operands_eq hm hs
    simp only [learn, hc, hl, hr]
    exact hfact.andThen (teaches_learnEqual hV ht)
  | below a b =>
    rw [hc] at hm hs ht hfact
    obtain ⟨hl, hr⟩ := operands_eq hm hs
    simp only [learn, hc, hl, hr]
    cases truth with
    | true => exact hfact.andThen (teaches_learnBelow hV ht)
    | false => exact hfact
  | isNull x | instanceOf x cls =>
    rw [hc] at hfact
    simp only [learn, hc]
    exact hfact

end Lessons

theorem best?_isSome (x y : Option Evidence) : (Evidence.best? x y).isSome = (x.isSome || y.isSome) := by
  unfold Evidence.best?
  split
  next a b =>
    split <;> rfl
  next => cases x <;> cases y <;> simp_all

theorem foldl_best?_isSome {α : Type} {answer : α → Option Evidence} {tests : List α} {start : Option Evidence} :
    (tests.foldl (fun best p => Evidence.best? best (answer p)) start).isSome =
      (start.isSome || tests.any fun p => (answer p).isSome) := by
  induction tests generalizing start with
  | nil => simp
  | cons p tests ih => simp [ih, best?_isSome, Bool.or_assoc]

theorem impliedOrder?_isSome {decide? : Interval → Interval → Option Bool} {a b : Operand} :
    (k.impliedOrder? decide? a b).isSome ↔
      ∃ ra rb, a.stamp.range? = some ra ∧ b.stamp.range? = some rb ∧
        ((decide? ra rb).isSome ∨ ∃ na nb, k.range? a = some na ∧ k.range? b = some nb ∧ (decide? na nb).isSome) := by
  unfold impliedOrder? range?
  cases a.stamp.range? with
  | none => simp
  | some ra =>
    cases b.stamp.range? with
    | none => simp
    | some rb =>
      cases hd : decide? ra rb with
      | some truth => simp [hd]
      | none =>
        cases k.narrowing? a with
        | none => simp [hd]
        | some na =>
          cases k.narrowing? b with
          | none => simp [hd]
          | some nb => cases hd' : decide? na.range nb.range <;> simp [hd, hd']

/-- What `k` knows, `k'` knows too: its facts and class tests, and its ranges at least as sharply. -/
structure Subsumes (stamp : NodeId → Stamp) (k' k : Known) : Prop where
  classFacts : ∀ x, ∀ e ∈ k.classFacts x, ∃ e' ∈ k'.classFacts x, e'.cls = e.cls ∧ e'.truth = e.truth
  fact? : ∀ t f, k.fact? t = some f → ∃ f', k'.fact? t = some f' ∧ f'.truth = f.truth
  ranges : ∀ x r, k.range? ⟨x, stamp x⟩ = some r →
    ∃ r' w, k'.range? ⟨x, stamp x⟩ = some r' ∧ r.Covers r' ∧ w ∈ r'

namespace Subsumes

theorem trans {k'' : Known} (h' : k''.Subsumes stamp k') (h : k'.Subsumes stamp k) : k''.Subsumes stamp k where
  classFacts x e he := by
    obtain ⟨e', he', hcls, htruth⟩ := h.classFacts x e he
    obtain ⟨e'', he'', hcls', htruth'⟩ := h'.classFacts x e' he'
    exact ⟨e'', he'', hcls'.trans hcls, htruth'.trans htruth⟩
  fact? t f hf := by
    obtain ⟨f', hf', htruth⟩ := h.fact? t f hf
    obtain ⟨f'', hf'', htruth'⟩ := h'.fact? t f' hf'
    exact ⟨f'', hf'', htruth'.trans htruth⟩
  ranges x r hr := by
    obtain ⟨r', w, hr', hcovers, -⟩ := h.ranges x r hr
    obtain ⟨r'', w', hr'', hcovers', hw'⟩ := h'.ranges x r' hr'
    exact ⟨r'', w', hr'', hcovers.trans hcovers', hw'⟩

theorem impliedNull? (h : k'.Subsumes stamp k) {s : Stamp} (hs : (k.impliedNull? x s).isSome) :
    (k'.impliedNull? x s).isSome := by
  unfold Known.impliedNull? at hs ⊢
  split
  next => rfl
  split
  next => rfl
  next hnn hnull =>
    rw [if_neg hnn, if_neg hnull, Option.isSome_map, List.find?_isSome] at hs
    obtain ⟨e, hmem, htrue⟩ := hs
    obtain ⟨e', hmem', -, htruth⟩ := h.classFacts _ e hmem
    rw [Option.isSome_map, List.find?_isSome]
    exact ⟨e', hmem', htruth.trans htrue⟩

theorem impliedClass? (h : k'.Subsumes stamp k) {classes : ClassTable} {cls : ClassId} {s : Stamp}
    (hs : (Known.impliedClass? classes k x cls s).isSome) : (Known.impliedClass? classes k' x cls s).isSome := by
  unfold Known.impliedClass? at hs ⊢
  split
  next => rfl
  next hstamp =>
    simp only [hstamp, foldl_best?_isSome, Bool.or_eq_true, Option.isSome_map, List.any_eq_true] at hs ⊢
    refine hs.imp (fun hs => ?_) fun hs => ?_
    · obtain ⟨e, he⟩ := Option.isSome_iff_exists.mp hs
      obtain ⟨f, hf, he⟩ := Option.bind_eq_some_iff.mp he
      obtain ⟨f', hf', htruth⟩ := h.fact? _ f hf
      rw [hf', Option.bind_some, htruth, Option.isSome_map]
      exact Option.isSome_map.symm.trans (Option.isSome_iff_exists.mpr ⟨e, he⟩)
    · obtain ⟨e, hmem, hsome⟩ := hs
      obtain ⟨e', hmem', hcls, htruth⟩ := h.classFacts _ e hmem
      exact ⟨e', hmem', by rw [hcls, htruth]; exact hsome⟩

theorem impliedOrder? (h : k'.Subsumes stamp k) {R : Word → Word → Bool} {decide? : Interval → Interval → Option Bool}
    (hd : Interval.Answers R decide?) {a b : NodeId}
    (hs : (k.impliedOrder? decide? ⟨a, stamp a⟩ ⟨b, stamp b⟩).isSome) :
    (k'.impliedOrder? decide? ⟨a, stamp a⟩ ⟨b, stamp b⟩).isSome := by
  rw [impliedOrder?_isSome] at hs ⊢
  obtain ⟨ra, rb, hra, hrb, hs | ⟨na, nb, hna, hnb, hs⟩⟩ := hs
  · exact ⟨ra, rb, hra, hrb, .inl hs⟩
  · obtain ⟨na', x, hna', hca, hx⟩ := h.ranges a na hna
    obtain ⟨nb', y, hnb', hcb, hy⟩ := h.ranges b nb hnb
    exact ⟨ra, rb, hra, hrb, .inr ⟨na', nb', hna', hnb', hd.shrink hca hcb hx hy hs⟩⟩

theorem implied? (h : k'.Subsumes stamp k) {classes : ClassTable} {c : Condition} (hstamp : c.StampedBy stamp)
    (hs : (Known.implied? classes k c).isSome) : (Known.implied? classes k' c).isSome := by
  unfold Condition.StampedBy Condition.operands at hstamp
  unfold Known.implied? at hs ⊢
  cases hc : c.test with
  | isNull x =>
    simp only [hc] at hs ⊢
    exact h.impliedNull? hs
  | instanceOf x cls =>
    simp only [hc] at hs ⊢
    exact h.impliedClass? hs
  | equals a b =>
    rw [hc] at hstamp
    obtain ⟨hl, hr⟩ := operands_eq ⟨rfl, rfl⟩ hstamp
    rw [hl, hr] at hs ⊢
    simp only [hc] at hs ⊢
    exact h.impliedOrder? Interval.answers_eq hs
  | lessThan a b =>
    rw [hc] at hstamp
    obtain ⟨hl, hr⟩ := operands_eq ⟨rfl, rfl⟩ hstamp
    rw [hl, hr] at hs ⊢
    simp only [hc] at hs ⊢
    exact h.impliedOrder? Interval.answers_lt hs
  | below a b =>
    rw [hc] at hstamp
    obtain ⟨hl, hr⟩ := operands_eq ⟨rfl, rfl⟩ hstamp
    rw [hl, hr] at hs ⊢
    simp only [hc] at hs ⊢
    exact h.impliedOrder? Interval.answers_below hs

/-- What is decided stays decided for whoever knows more. -/
theorem lookup?_isSome (h : k'.Subsumes stamp k) {classes : ClassTable} {c : Condition} (hstamp : c.StampedBy stamp)
    (hs : (k.lookup? classes c).isSome) : (k'.lookup? classes c).isSome := by
  unfold Known.lookup? at hs ⊢
  rw [best?_isSome, Option.isSome_map, Bool.or_eq_true] at hs ⊢
  refine hs.imp (fun hs => ?_) (h.implied? hstamp)
  obtain ⟨f, hf⟩ := Option.isSome_iff_exists.mp hs
  obtain ⟨f', hf', -⟩ := h.fact? _ f hf
  rw [hf']
  rfl

end Subsumes

namespace NoMore

theorem exists_fact (h : NoMore V stamp k k') {f : Fact} (hf : f ∈ k.facts) :
    ∃ f' ∈ k'.facts, f'.test = f.test ∧ f'.truth = f.truth := by
  obtain ⟨f', hf', ht⟩ := h.facts f hf
  have hV : V.truth f.test = f.truth := h.fits.facts f hf
  have hV' : V.truth f'.test = f'.truth := h.fits'.facts f' hf'
  exact ⟨f', hf', ht, by rw [← hV, ← hV', ht]⟩

theorem subsumes (h : NoMore V stamp k k') (hV : ∀ x, V.Admits ⟨x, stamp x⟩) (hk : k.Mirrored) (hk' : k'.Mirrored) :
    k'.Subsumes stamp k where
  classFacts x e he := by
    obtain ⟨⟨_, truth, origin⟩, hf', rfl, rfl⟩ := h.exists_fact (hk.mem_classFacts.mp he)
    exact ⟨⟨e.cls, e.truth, origin⟩, hk'.mem_classFacts.mpr hf', rfl, rfl⟩
  fact? t f hf := by
    have ht : f.test = t := by simpa using List.find?_some hf
    obtain ⟨f', hf', ht', -⟩ := h.exists_fact (List.mem_of_find?_eq_some hf)
    have hsome : (k'.fact? t).isSome := List.find?_isSome.mpr ⟨f', hf', by simp [ht', ht]⟩
    obtain ⟨f'', hf''⟩ := Option.isSome_iff_exists.mp hsome
    have ht'' : f''.test = t := by simpa using List.find?_some hf''
    have hV : V.truth f.test = f.truth := h.fits.facts f (List.mem_of_find?_eq_some hf)
    have hV'' : V.truth f''.test = f''.truth := h.fits'.facts f'' (List.mem_of_find?_eq_some hf'')
    exact ⟨f'', hf'', by rw [← hV, ← hV'', ht, ht'']⟩
  ranges x r hr := by
    obtain ⟨hnone, -⟩ | ⟨s, s', w, hs, hs', hcovers, -, hw⟩ := h.range?_cases (hV x)
    · cases hr.symm.trans hnone
    · cases hr.symm.trans hs
      exact ⟨s', w, hs', hcovers, hw⟩

theorem lookup?_eq_none (h : NoMore V stamp k k') (hV : ∀ x, V.Admits ⟨x, stamp x⟩) (hk : k.Mirrored)
    (hk' : k'.Mirrored) {classes : ClassTable} {c : Condition} (hstamp : c.StampedBy stamp)
    (hnone : k'.lookup? classes c = none) :
    k.lookup? classes c = none := by
  rw [← Option.not_isSome_iff_eq_none] at hnone ⊢
  exact fun hs => hnone ((h.subsumes hV hk hk').lookup?_isSome hstamp hs)

end NoMore

end Known

/-- A condition with the outcome its test is said to have. -/
structure Assertion where
  condition : Condition
  truth : Bool
deriving DecidableEq

namespace Assertion

/-- The operands have the stamps of their nodes, and the values pass the test. -/
structure Passes (V : Valuation) (stamp : NodeId → Stamp) (a : Assertion) : Prop where
  matched : a.condition.Matched
  stamped : a.condition.StampedBy stamp
  holds : V.truth a.condition.test = a.truth

end Assertion

namespace Facts

/-- The facts after a series of pushes, each by a node of its own. -/
def pushAll (f : Facts) : List (Assertion × NodeId) → Facts
  | [] => f
  | p :: rest => (f.push p.1.condition p.1.truth p.2).2.pushAll rest

/-- Each of the pushes is about a test that is undecided then. -/
def Registers (f : Facts) : List (Assertion × NodeId) → Prop
  | [] => True
  | p :: rest => f.lookup? p.1.condition = none ∧ (f.push p.1.condition p.1.truth p.2).2.Registers rest

instance decidableRegisters (f : Facts) : (pushes : List (Assertion × NodeId)) → Decidable (f.Registers pushes)
  | [] => .isTrue trivial
  | p :: rest =>
    have := decidableRegisters (f.push p.1.condition p.1.truth p.2).2 rest
    inferInstanceAs (Decidable (_ ∧ _))

variable {V : Valuation} {stamp : NodeId → Stamp} {f f' : Facts} {all : List (Assertion × NodeId)}

/-- The facts are about the same classes, and `f` knows no more than `f'`. -/
structure NoMore (V : Valuation) (stamp : NodeId → Stamp) (f f' : Facts) : Prop where
  classes : f.classes = f'.classes
  known : Known.NoMore V stamp f.known f'.known

theorem push_known {c : Condition} (h : f.lookup? c = none) (truth : Bool) (guard : NodeId) :
    (f.push c truth guard).2.known = f.known.learn ⟨guard, f.nextSeq⟩ c truth := by
  rw [push_of_none h]
  rfl

namespace NoMore

theorem lookup?_eq_none (h : NoMore V stamp f f') (hV : ∀ x, V.Admits ⟨x, stamp x⟩) {c : Condition}
    (hs : c.StampedBy stamp) (hnone : f'.lookup? c = none) : f.lookup? c = none := by
  unfold lookup? at hnone ⊢
  rw [h.classes]
  exact h.known.lookup?_eq_none hV f.known_mirrored f'.known_mirrored hs hnone

/-- A push that registers on both sides keeps the order. -/
theorem push (h : NoMore V stamp f f') (hV : ∀ x, V.Admits ⟨x, stamp x⟩) {a : Assertion} (ha : a.Passes V stamp)
    (hnone : f.lookup? a.condition = none) (hnone' : f'.lookup? a.condition = none) (guard guard' : NodeId) :
    NoMore V stamp (f.push a.condition a.truth guard).2 (f'.push a.condition a.truth guard').2 := by
  refine ⟨by rw [push_classes, push_classes, h.classes], ?_⟩
  rw [push_known hnone, push_known hnone']
  exact (Known.teaches_learn hV ha.matched ha.stamped ha.holds).both h.known

theorem push_right (h : NoMore V stamp f f') (hV : ∀ x, V.Admits ⟨x, stamp x⟩) {a : Assertion} (ha : a.Passes V stamp)
    (hnone' : f'.lookup? a.condition = none) (guard' : NodeId) :
    NoMore V stamp f (f'.push a.condition a.truth guard').2 := by
  refine ⟨by rw [push_classes, h.classes], ?_⟩
  rw [push_known hnone']
  exact (Known.teaches_learn hV ha.matched ha.stamped ha.holds).more h.known

/-- A part of the pushes registers where all of them do, and the order is kept to the end. -/
theorem pushAll (h : NoMore V stamp f f') (hV : ∀ x, V.Admits ⟨x, stamp x⟩) {all part : List (Assertion × NodeId)}
    (hall : ∀ p ∈ all, p.1.Passes V stamp) (hreg : f'.Registers all)
    (hpart : (part.map Prod.fst).Sublist (all.map Prod.fst)) :
    f.Registers part ∧ NoMore V stamp (f.pushAll part) (f'.pushAll all) := by
  induction all generalizing part f f' with
  | nil =>
    obtain rfl : part = [] := by simpa using hpart
    exact ⟨trivial, h⟩
  | cons p all ih =>
    obtain ⟨hnone', hreg⟩ := hreg
    have hp := hall p List.mem_cons_self
    have hall' : ∀ q ∈ all, q.1.Passes V stamp := fun q hq => hall q (List.mem_cons_of_mem p hq)
    cases part with
    | nil => exact ih (h.push_right hV hp hnone' p.2) hall' hreg (List.nil_sublist _)
    | cons q part =>
      rcases List.cons_sublist_cons'.mp hpart with hskip | ⟨heq, hrest⟩
      · exact ih (h.push_right hV hp hnone' p.2) hall' hreg hskip
      · obtain ⟨a, guard⟩ := p
        obtain ⟨b, guard'⟩ := q
        obtain rfl : b = a := heq
        have hnone : f.lookup? b.condition = none := h.lookup?_eq_none hV hp.stamped hnone'
        obtain ⟨hreg, hend⟩ := ih (h.push hV hp hnone hnone' guard' guard) hall' hreg hrest
        exact ⟨⟨hnone, hreg⟩, hend⟩

end NoMore

theorem pushAll_append (f : Facts) (xs ys : List (Assertion × NodeId)) :
    f.pushAll (xs ++ ys) = (f.pushAll xs).pushAll ys := by
  induction xs generalizing f with
  | nil => rfl
  | cons p xs ih => exact ih _

theorem registers_append {xs ys : List (Assertion × NodeId)} :
    f.Registers (xs ++ ys) ↔ f.Registers xs ∧ (f.pushAll xs).Registers ys := by
  induction xs generalizing f with
  | nil => simp [Registers, pushAll]
  | cons p xs ih => simp only [List.cons_append, Registers, pushAll, ih, and_assoc]

theorem pushAll_classes (f : Facts) (all : List (Assertion × NodeId)) : (f.pushAll all).classes = f.classes := by
  induction all generalizing f with
  | nil => rfl
  | cons p all ih => exact (ih _).trans (push_classes f _ _ _)

theorem pushAll_outer (f : Facts) (all : List (Assertion × NodeId)) : (f.pushAll all).outer = f.outer := by
  induction all generalizing f with
  | nil => rfl
  | cons p all ih => exact (ih _).trans (f.push_outer _ _ _)

theorem pushAll_fits (hV : ∀ x, V.Admits ⟨x, stamp x⟩) (hf : f.known.Fits V) (hall : ∀ p ∈ all, p.1.Passes V stamp)
    (hreg : f.Registers all) : (f.pushAll all).known.Fits V := by
  have h : NoMore V stamp f f := ⟨rfl, .refl hf⟩
  exact (h.pushAll hV hall hreg (List.Sublist.refl _)).2.known.fits'

theorem NoMore.undecided (h : NoMore V stamp f f') (hV : ∀ x, V.Admits ⟨x, stamp x⟩)
    (hall : ∀ p ∈ all, p.1.Passes V stamp) (hreg : f'.Registers all) :
    ∀ p ∈ all, f.lookup? p.1.condition = none := by
  induction all generalizing f' with
  | nil => simp
  | cons p all ih =>
    obtain ⟨hnone, hreg⟩ := hreg
    obtain ⟨hp, hall⟩ := List.forall_mem_cons.mp hall
    refine List.forall_mem_cons.mpr ⟨h.lookup?_eq_none hV hp.stamped hnone, ?_⟩
    exact ih (h.push_right hV hp hnone p.2) hall hreg

theorem lookup?_holds (hV : ∀ x, V.Admits ⟨x, stamp x⟩) (hclasses : f.classes = V.classes) (hf : f.known.Fits V)
    {a : Assertion} (ha : a.Passes V stamp) {e : Evidence} (he : f.lookup? a.condition = some e) : e.truth = a.truth := by
  have hadmits : ∀ o ∈ a.condition.operands, V.Admits o := by
    intro o ho
    have hstamp := ha.stamped o ho
    obtain ⟨x, s⟩ := o
    obtain rfl : s = stamp x := hstamp
    exact hV x
  unfold lookup? at he
  rw [hclasses] at he
  have hright := Known.lookup?_right f.known_mirrored hf.rangesSound ha.matched hadmits he
  have hrests : Known.Rests V f.known.facts e.source := by
    cases e.source with
    | stamp => trivial
    | guard o => exact fun fact hfact _ => hf.facts fact hfact
  exact (hright hrests).symm.trans ha.holds

/-- Of a series of pushes that all register, a part registers too and leaves undecided what the series
leaves undecided, if some values fit the stamps and pass the whole series. -/
theorem part_decides_no_more (classes : ClassTable) (V : Valuation) (stamp : NodeId → Stamp)
    (hV : ∀ x, V.Admits ⟨x, stamp x⟩) (all part : List (Assertion × NodeId)) (hall : ∀ p ∈ all, p.1.Passes V stamp)
    (hreg : (ofClasses classes).Registers all) (hpart : (part.map Prod.fst).Sublist (all.map Prod.fst)) :
    (ofClasses classes).Registers part ∧
      ∀ c : Condition, c.Matched → c.StampedBy stamp → ((ofClasses classes).pushAll all).lookup? c = none →
        ((ofClasses classes).pushAll part).lookup? c = none := by
  have hempty : NoMore V stamp (ofClasses classes) (ofClasses classes) :=
    ⟨rfl, .refl ⟨by simp [ofClasses], by simp [ofClasses]⟩⟩
  obtain ⟨hreg', hend⟩ := hempty.pushAll hV hall hreg hpart
  exact ⟨hreg', fun c _ hs hnone => hend.lookup?_eq_none hV hs hnone⟩

/-- Without the push that bounds node 2 by 40, nothing bounds node 1 by 40 either, nor by 30. -/
theorem part_decides_no_more_less :
    let stamp : NodeId → Stamp := fun n =>
      if n = 3 then .int (.constant 40) else if n = 4 then .int (.constant 30) else .int .full
    let V : Valuation := ⟨.root, [], fun n => .int (if n = 2 then 35 else if n = 3 then 40 else 30)⟩
    let less (a b : NodeId) : Condition := ⟨.lessThan a b, false, ⟨a, stamp a⟩, ⟨b, stamp b⟩⟩
    let bound : Assertion × NodeId := (⟨less 2 3, true⟩, 7)
    let order : Assertion × NodeId := (⟨less 1 2, true⟩, 8)
    (∀ x, V.Admits ⟨x, stamp x⟩) ∧
    ((ofClasses .root).pushAll [bound, order]).lookup? (less 1 3) = some ⟨true, .guard ⟨8, 1⟩⟩ ∧
    ((ofClasses .root).pushAll [bound, order]).lookup? (less 1 4) = none ∧
    ((ofClasses .root).pushAll [order]).lookup? (less 1 4) = none := by
  intro stamp V less bound order
  have hV : ∀ x, V.Admits ⟨x, stamp x⟩ := by
    intro x
    simp only [Valuation.Admits, ← Stamp.admits_iff, V, stamp]
    by_cases h3 : x = 3
    · subst h3
      decide
    · by_cases h4 : x = 4
      · subst h4
        decide
      · simp only [h3, h4, ↓reduceIte]
        rfl
  have hpass : ∀ p ∈ [bound, order], p.1.Passes V stamp := by
    intro p hp
    rcases List.mem_pair.mp hp with rfl | rfl
    · exact ⟨⟨rfl, rfl⟩, by simp [Condition.StampedBy, Condition.operands, bound, less], by decide⟩
    · exact ⟨⟨rfl, rfl⟩, by simp [Condition.StampedBy, Condition.operands, order, less], by decide⟩
  have hnone : ((ofClasses .root).pushAll [bound, order]).lookup? (less 1 4) = none := by decide
  obtain ⟨-, hpart⟩ := part_decides_no_more .root V stamp hV [bound, order] [order] hpass (by decide) (by decide)
  have hstamped : (less 1 4).StampedBy stamp := by simp [Condition.StampedBy, Condition.operands, less]
  exact ⟨hV, by decide, hnone, hpart (less 1 4) ⟨rfl, rfl⟩ hstamped hnone⟩

/-- Values are needed. With node 1 in `[0, 1]` and node 3 in `[0, 50]`, `n1 < 1` leaves no value for node 2 below
node 1, which is not noticed. A series that also says `n2 < 1` knows that node 2 is at most 0, so that `n3 ≤ n2` leaves
nothing for node 4 below node 3, which is not noticed either; the part without it takes node 3 to be at most 50 and node
4 to be less. -/
theorem part_decides_more_of_contradiction :
    let stamp : NodeId → Stamp := fun n =>
      if n = 1 then .int ⟨some 0, some 1⟩ else if n = 3 then .int ⟨some 0, some 50⟩
      else if n = 5 then .int (.constant 1) else if n = 6 then .int (.constant 50) else .int .full
    let operand (n : NodeId) : Operand := ⟨n, stamp n⟩
    let test (t : NodeId → NodeId → Test) (a b : NodeId) : Condition := ⟨t a b, false, operand a, operand b⟩
    let before : List (Assertion × NodeId) := [(⟨test .lessThan 1 5, true⟩, 13)]
    let bound : Assertion × NodeId := (⟨test .lessThan 2 5, true⟩, 14)
    let after : List (Assertion × NodeId) :=
      [(⟨test .below 2 1, true⟩, 15), (⟨test .lessThan 2 3, false⟩, 16), (⟨test .below 4 3, true⟩, 17)]
    (ofClasses .root).Registers (before ++ bound :: after) ∧
    ((ofClasses .root).pushAll (before ++ bound :: after)).lookup? (test .lessThan 4 6) = none ∧
    ((ofClasses .root).pushAll (before ++ after)).lookup? (test .lessThan 4 6) = some ⟨true, .guard ⟨17, 3⟩⟩ := by
  intro stamp operand test before bound after
  exact ⟨by decide, by decide, by decide⟩

end Facts

end GuardElision
