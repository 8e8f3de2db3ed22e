import GuardElision.Proofs.Interval

namespace GuardElision

namespace Word

theorem exists_pred? {x y : Word} (h : x < y) : ∃ p, pred? y = some p := by
  have hy : y ≠ Int64.minValue := by
    rintro rfl
    have hx := Int64.le_toInt x
    have hm : Int64.minValue.toInt = -2 ^ 63 := rfl
    rw [Int64.lt_iff_toInt_lt] at h
    omega
  exact ⟨y - 1, by simp [pred?, hy]⟩

theorem exists_succ? {x y : Word} (h : x < y) : ∃ s, succ? x = some s := by
  have hx : x ≠ Int64.maxValue := by
    rintro rfl
    have hy := Int64.toInt_lt y
    have hm : Int64.maxValue.toInt = 2 ^ 63 - 1 := rfl
    rw [Int64.lt_iff_toInt_lt] at h
    omega
  exact ⟨x + 1, by simp [succ?, hx]⟩

end Word

namespace Interval

/-- The lower bound `b` is at least as sharp as `a`. -/
def LoLe (a b : Option Word) : Prop :=
  ∀ l, a = some l → ∃ l', b = some l' ∧ l ≤ l'

/-- The upper bound `b` is at least as sharp as `a`. -/
def HiGe (a b : Option Word) : Prop :=
  ∀ h, a = some h → ∃ h', b = some h' ∧ h' ≤ h

theorem LoLe.refl (a : Option Word) : LoLe a a :=
  fun l h => ⟨l, h, Int64.le_refl l⟩

theorem HiGe.refl (a : Option Word) : HiGe a a :=
  fun h hh => ⟨h, hh, Int64.le_refl h⟩

theorem LoLe.trans {a b c : Option Word} (h : LoLe a b) (h' : LoLe b c) : LoLe a c := by
  intro l hl
  obtain ⟨m, hm, hlm⟩ := h l hl
  obtain ⟨n, hn, hmn⟩ := h' m hm
  exact ⟨n, hn, Int64.le_trans hlm hmn⟩

theorem HiGe.trans {a b c : Option Word} (h : HiGe a b) (h' : HiGe b c) : HiGe a c := by
  intro l hl
  obtain ⟨m, hm, hlm⟩ := h l hl
  obtain ⟨n, hn, hmn⟩ := h' m hm
  exact ⟨n, hn, Int64.le_trans hmn hlm⟩

theorem loLe_raise_left (a b : Option Word) : LoLe a (raise a b) := by
  rintro l rfl
  cases b with
  | none => exact ⟨l, rfl, Int64.le_refl l⟩
  | some y =>
    have hm : max l y = if l ≤ y then y else l := rfl
    refine ⟨max l y, rfl, ?_⟩
    rw [hm]
    split
    next h => exact h
    next => exact Int64.le_refl l

theorem loLe_raise_right (a b : Option Word) : LoLe b (raise a b) := by
  rintro l rfl
  cases a with
  | none => exact ⟨l, rfl, Int64.le_refl l⟩
  | some y =>
    have hm : max y l = if y ≤ l then l else y := rfl
    refine ⟨max y l, rfl, ?_⟩
    simp only [hm, Int64.le_iff_toInt_le]
    split <;> omega

/-- The sharper of two bounds is the least one above both. -/
theorem LoLe.raise {a b c : Option Word} (ha : LoLe a c) (hb : LoLe b c) : LoLe (raise a b) c := by
  cases a with
  | none => cases b <;> exact hb
  | some x =>
    cases b with
    | none => exact ha
    | some y =>
      have hm : max x y = if x ≤ y then y else x := rfl
      rintro l ⟨⟩
      rw [hm]
      split
      next => exact hb y rfl
      next => exact ha x rfl

theorem hiGe_lower_left (a b : Option Word) : HiGe a (lower a b) := by
  rintro l rfl
  cases b with
  | none => exact ⟨l, rfl, Int64.le_refl l⟩
  | some y =>
    have hm : min l y = if l ≤ y then l else y := rfl
    refine ⟨min l y, rfl, ?_⟩
    simp only [hm, Int64.le_iff_toInt_le]
    split <;> omega

theorem hiGe_lower_right (a b : Option Word) : HiGe b (lower a b) := by
  rintro l rfl
  cases a with
  | none => exact ⟨l, rfl, Int64.le_refl l⟩
  | some y =>
    have hm : min y l = if y ≤ l then y else l := rfl
    refine ⟨min y l, rfl, ?_⟩
    simp only [hm, Int64.le_iff_toInt_le]
    split <;> omega

theorem HiGe.lower {a b c : Option Word} (ha : HiGe a c) (hb : HiGe b c) : HiGe (lower a b) c := by
  cases a with
  | none => cases b <;> exact hb
  | some x =>
    cases b with
    | none => exact ha
    | some y =>
      have hm : min x y = if x ≤ y then x else y := rfl
      rintro l ⟨⟩
      rw [hm]
      split
      next => exact ha x rfl
      next => exact hb y rfl

theorem boundLt_mono {a a' b b' : Option Word} (ha : HiGe a a') (hb : LoLe b b') (h : boundLt a b = true) :
    boundLt a' b' = true := by
  obtain ⟨x, y, hx, hy, hlt⟩ := boundLt_eq_true_iff.mp h
  obtain ⟨x', hx', hle⟩ := ha x hx
  obtain ⟨y', hy', hle'⟩ := hb y hy
  refine boundLt_eq_true_iff.mpr ⟨x', y', hx', hy', ?_⟩
  simp only [Int64.le_iff_toInt_le, Int64.lt_iff_toInt_lt] at *
  omega

/-- The bounds of `s` are at least as sharp as those of `r`. -/
structure Covers (r s : Interval) : Prop where
  lo : LoLe r.lo s.lo
  hi : HiGe r.hi s.hi

namespace Covers

variable {r s t u r' s' c c' : Interval} {x y v w : Word}

theorem refl (r : Interval) : r.Covers r :=
  ⟨.refl _, .refl _⟩

theorem trans (h : r.Covers s) (h' : s.Covers t) : r.Covers t :=
  ⟨h.lo.trans h'.lo, h.hi.trans h'.hi⟩

theorem mem (h : r.Covers s) (hw : w ∈ s) : w ∈ r := by
  refine ⟨fun l hl => ?_, fun b hb => ?_⟩
  · obtain ⟨l', hl', hle⟩ := h.lo l hl
    exact Int64.le_trans hle (hw.1 l' hl')
  · obtain ⟨b', hb', hle⟩ := h.hi b hb
    exact Int64.le_trans (hw.2 b' hb') hle

theorem of_meet?_left (h : r.meet? s = some t) : r.Covers t := by
  rw [meet?_eq_some h]
  exact ⟨loLe_raise_left _ _, hiGe_lower_left _ _⟩

theorem of_meet?_right (h : r.meet? s = some t) : s.Covers t := by
  rw [meet?_eq_some h]
  exact ⟨loLe_raise_right _ _, hiGe_lower_right _ _⟩

theorem meet? (hr : r.Covers u) (hs : s.Covers u) (h : r.meet? s = some t) : t.Covers u := by
  rw [meet?_eq_some h]
  exact ⟨hr.lo.raise hs.lo, hr.hi.lower hs.hi⟩

theorem constant? (h : r.Covers s) (hv : r.constant? = some v) (hw : w ∈ s) : s.constant? = some v := by
  unfold Interval.constant? at hv ⊢
  split at hv
  next a b ha hb =>
    split at hv
    next hab =>
      cases Option.some.inj hv
      obtain ⟨l, hl, hal⟩ := h.lo v ha
      obtain ⟨m, hm, hmb⟩ := h.hi b hb
      have hlw := hw.1 l hl
      have hwm := hw.2 m hm
      simp only [← hab, Int64.le_iff_toInt_le] at hal hmb hlw hwm
      have hlv : l = v := Int64.toInt_inj.mp (by omega)
      have hmv : m = v := Int64.toInt_inj.mp (by omega)
      rw [hl, hm, hlv, hmv]
      exact if_pos rfl
    next => cases hv
  next => cases hv

theorem isNonNegative (h : r.Covers s) (hr : r.isNonNegative = true) : s.isNonNegative = true := by
  obtain ⟨z, l, hz, hl, hle⟩ := boundLe_eq_true_iff.mp hr
  obtain ⟨l', hl', hle'⟩ := h.lo l hl
  exact boundLe_eq_true_iff.mpr ⟨z, l', hz, hl', Int64.le_trans hle hle'⟩

/-- Sharper ranges decide what others decide. -/
theorem lt? (hr : r.Covers r') (hs : s.Covers s') (h : (r.lt? s).isSome) : (r'.lt? s').isSome := by
  unfold Interval.lt? at h ⊢
  split at h
  next hlt =>
    rw [if_pos (boundLt_mono hr.hi hs.lo hlt)]
    rfl
  next =>
    split at h
    next hle =>
      obtain ⟨a, b, ha, hb, hle⟩ := boundLe_eq_true_iff.mp hle
      obtain ⟨a', ha', haa⟩ := hs.hi a ha
      obtain ⟨b', hb', hbb⟩ := hr.lo b hb
      have hle' : boundLe s'.hi r'.lo = true :=
        boundLe_eq_true_iff.mpr ⟨a', b', ha', hb', Int64.le_trans haa (Int64.le_trans hle hbb)⟩
      by_cases hlt' : Interval.boundLt r'.hi s'.lo = true
      · rw [if_pos hlt']
        rfl
      · rw [if_neg hlt', if_pos hle']
        rfl
    next => cases h

theorem eq? (hr : r.Covers r') (hs : s.Covers s') (hx : x ∈ r') (hy : y ∈ s') (h : (r.eq? s).isSome) :
    (r'.eq? s').isSome := by
  unfold Interval.eq? at h ⊢
  split at h
  next hapart =>
    have hapart' : (!r'.overlaps s') = true := by
      simp only [overlaps, Bool.not_and, Bool.not_not, Bool.or_eq_true] at hapart ⊢
      exact hapart.imp (boundLt_mono hr.hi hs.lo) (boundLt_mono hs.hi hr.lo)
    rw [if_pos hapart']
    rfl
  next =>
    split at h
    next hconst =>
      rw [Bool.and_eq_true, decide_eq_true_eq] at hconst
      obtain ⟨v, hv⟩ := Option.isSome_iff_exists.mp hconst.1
      have hr' := hr.constant? hv hx
      have hs' := hs.constant? (hconst.2 ▸ hv) hy
      split
      next => rfl
      next => simp [hr', hs']
    next => cases h

theorem below? (hr : r.Covers r') (hs : s.Covers s') (h : (r.below? s).isSome) : (r'.below? s').isSome := by
  unfold Interval.below? at h ⊢
  split at h
  next => cases h
  next hnn =>
    have hnn' : s'.isNonNegative = true := hs.isNonNegative (by simpa using hnn)
    simp only [hnn', Bool.not_true, Bool.false_eq_true, ↓reduceIte, Option.orElse_eq_orElse, Option.orElse_eq_or,
      Option.isSome_or, Bool.or_eq_true] at h ⊢
    refine h.imp (fun h => ?_) fun h => ?_
    · split at h
      next hpos =>
        rw [if_pos (hr.isNonNegative hpos)]
        exact hr.lt? hs h
      next => cases h
    · split at h
      next hneg =>
        rw [if_pos (boundLt_mono hr.hi (.refl _) hneg)]
        rfl
      next => cases h

end Covers

/-- A constraint for the values of one operand, made from its own range and from the other operand's:
it holds of every value that stands in the relation to a value of the other, and it gets sharper with
the ranges. -/
structure Tightens (R : Word → Word → Prop) (constraint : Interval → Interval → Option Interval) : Prop where
  mem : ∀ {own other i : Interval} {x y : Word}, x ∈ own → y ∈ other → R x y → constraint own other = some i → x ∈ i
  covers : ∀ {own other own' other' i : Interval} {x y : Word}, own.Covers own' → other.Covers other' →
    x ∈ own' → y ∈ other' → R x y → constraint own other = some i →
    ∃ i', constraint own' other' = some i' ∧ i.Covers i'

theorem Tightens.swap {R : Word → Word → Prop} {constraint : Interval → Interval → Option Interval}
    (h : Tightens R constraint) (hR : ∀ x y, R x y → R y x) : Tightens (fun y x => R x y) constraint :=
  ⟨fun hx hy hxy => h.mem hx hy (hR _ _ hxy), fun hown hother hx hy hxy => h.covers hown hother hx hy (hR _ _ hxy)⟩

theorem tightens_nothing {R : Word → Word → Prop} : Tightens R fun _ _ => none :=
  ⟨nofun, nofun⟩

theorem covers_atMost {p p' : Word} (h : p' ≤ p) : (atMost p).Covers (atMost p') :=
  ⟨.refl _, by rintro b ⟨⟩; exact ⟨p', rfl, h⟩⟩

theorem covers_atLeast {p p' : Word} (h : p ≤ p') : (atLeast p).Covers (atLeast p') :=
  ⟨by rintro b ⟨⟩; exact ⟨p', rfl, h⟩, .refl _⟩

/-- What `x < y` says of `x`. -/
theorem tightens_less : Tightens (· < ·) fun _ other => (other.hi.bind Word.pred?).map .atMost where
  mem := by
    intro own other i x y _ hy hlt hi
    obtain ⟨p, hp, rfl⟩ := Option.map_eq_some_iff.mp hi
    obtain ⟨h, hh, hp⟩ := Option.bind_eq_some_iff.mp hp
    have hyh := hy.2 h hh
    rw [Word.pred?_eq_some_iff] at hp
    rw [mem_atMost]
    simp only [Int64.le_iff_toInt_le, Int64.lt_iff_toInt_lt] at *
    omega
  covers := by
    intro own other own' other' i x y _ hother _ hy hlt hi
    obtain ⟨p, hp, rfl⟩ := Option.map_eq_some_iff.mp hi
    obtain ⟨h, hh, hp⟩ := Option.bind_eq_some_iff.mp hp
    obtain ⟨h', hh', hle⟩ := hother.hi h hh
    have hyh := hy.2 h' hh'
    obtain ⟨p', hp'⟩ := Word.exists_pred? (Int64.lt_of_lt_of_le hlt hyh)
    refine ⟨.atMost p', by simp [hh', hp'], covers_atMost ?_⟩
    rw [Word.pred?_eq_some_iff] at hp hp'
    rw [Int64.le_iff_toInt_le] at hle ⊢
    omega

theorem tightens_greater : Tightens (fun y x => x < y) fun _ other => (other.lo.bind Word.succ?).map .atLeast where
  mem := by
    intro own other i y x _ hx hlt hi
    obtain ⟨s, hs, rfl⟩ := Option.map_eq_some_iff.mp hi
    obtain ⟨l, hl, hs⟩ := Option.bind_eq_some_iff.mp hs
    have hxl := hx.1 l hl
    rw [Word.succ?_eq_some_iff] at hs
    rw [mem_atLeast]
    simp only [Int64.le_iff_toInt_le, Int64.lt_iff_toInt_lt] at *
    omega
  covers := by
    intro own other own' other' i y x _ hother _ hx hlt hi
    obtain ⟨s, hs, rfl⟩ := Option.map_eq_some_iff.mp hi
    obtain ⟨l, hl, hs⟩ := Option.bind_eq_some_iff.mp hs
    obtain ⟨l', hl', hle⟩ := hother.lo l hl
    have hxl := hx.1 l' hl'
    obtain ⟨s', hs'⟩ := Word.exists_succ? (Int64.lt_of_le_of_lt hxl hlt)
    refine ⟨.atLeast s', by simp [hl', hs'], covers_atLeast ?_⟩
    rw [Word.succ?_eq_some_iff] at hs hs'
    rw [Int64.le_iff_toInt_le] at hle ⊢
    omega

theorem tightens_below_left :
    Tightens (fun x y => Word.below x y = true) fun _ other =>
      if other.isNonNegative then some ⟨some 0, other.hi.bind Word.pred?⟩ else none where
  mem := by
    intro own other i x y hx hy hlt hi
    split at hi
    next hnn =>
      obtain rfl := Option.some.inj hi
      obtain ⟨hx0, hlt⟩ := (Word.below_iff_of_nonneg (nonneg_of_isNonNegative hnn hy)).mp hlt
      refine ⟨aboveLo_some.mpr hx0, fun p hp => ?_⟩
      have hmost : (other.hi.bind Word.pred?).map atMost = some (atMost p) := congrArg (Option.map atMost) hp
      exact mem_atMost.mp (tightens_less.mem hx hy hlt hmost)
    next => cases hi
  covers := by
    intro own other own' other' i x y hown hother hx hy hlt hi
    split at hi
    next hnn =>
      obtain rfl := Option.some.inj hi
      have hnn' := hother.isNonNegative hnn
      obtain ⟨-, hlt⟩ := (Word.below_iff_of_nonneg (nonneg_of_isNonNegative hnn' hy)).mp hlt
      refine ⟨_, if_pos hnn', .refl _, fun p hp => ?_⟩
      have hmost : (other.hi.bind Word.pred?).map atMost = some (atMost p) := congrArg (Option.map atMost) hp
      obtain ⟨i', hi', hcovers⟩ := tightens_less.covers hown hother hx hy hlt hmost
      obtain ⟨p', hp', rfl⟩ := Option.map_eq_some_iff.mp hi'
      obtain ⟨q, ⟨⟩, hle⟩ := hcovers.hi p rfl
      exact ⟨p', hp', hle⟩
    next => cases hi

theorem tightens_below_right :
    Tightens (fun y x => Word.below x y = true) fun own other =>
      if own.isNonNegative then (other.lo.bind Word.succ?).map .atLeast else none where
  mem := by
    intro own other i y x hy hx hlt hi
    split at hi
    next hnn =>
      obtain ⟨-, hlt⟩ := (Word.below_iff_of_nonneg (nonneg_of_isNonNegative hnn hy)).mp hlt
      exact tightens_greater.mem hy hx hlt hi
    next => cases hi
  covers := by
    intro own other own' other' i y x hown hother hy hx hlt hi
    split at hi
    next hnn =>
      have hnn' := hown.isNonNegative hnn
      obtain ⟨-, hlt⟩ := (Word.below_iff_of_nonneg (nonneg_of_isNonNegative hnn' hy)).mp hlt
      rw [if_pos hnn']
      exact tightens_greater.covers hown hother hy hx hlt hi
    next => cases hi

theorem tightens_notLess : Tightens (fun x y => ¬x < y) fun _ other => other.lo.map .atLeast where
  mem := by
    intro own other i x y _ hy hlt hi
    obtain ⟨l, hl, rfl⟩ := Option.map_eq_some_iff.mp hi
    have hyl := hy.1 l hl
    rw [mem_atLeast]
    simp only [Int64.le_iff_toInt_le, Int64.lt_iff_toInt_lt] at *
    omega
  covers := by
    intro own other own' other' i x y _ hother _ _ _ hi
    obtain ⟨l, hl, rfl⟩ := Option.map_eq_some_iff.mp hi
    obtain ⟨l', hl', hle⟩ := hother.lo l hl
    exact ⟨.atLeast l', by simp [hl'], covers_atLeast hle⟩

theorem tightens_notGreater : Tightens (fun y x => ¬x < y) fun _ other => other.hi.map .atMost where
  mem := by
    intro own other i y x _ hx hlt hi
    obtain ⟨h, hh, rfl⟩ := Option.map_eq_some_iff.mp hi
    have hxh := hx.2 h hh
    rw [mem_atMost]
    simp only [Int64.le_iff_toInt_le, Int64.lt_iff_toInt_lt] at *
    omega
  covers := by
    intro own other own' other' i y x _ hother _ _ _ hi
    obtain ⟨h, hh, rfl⟩ := Option.map_eq_some_iff.mp hi
    obtain ⟨h', hh', hle⟩ := hother.hi h hh
    exact ⟨.atMost h', by simp [hh'], covers_atMost hle⟩

theorem tightens_equal : Tightens (· = ·) fun _ other => some other where
  mem := by
    rintro own other i x y - hy rfl ⟨⟩
    exact hy
  covers := by
    rintro own other own' other' i x y - hother - - - ⟨⟩
    exact ⟨other', rfl, hother⟩

/-- The lower bound of what is left of an interval without `v`. -/
def SkipsLo (v : Word) (a b : Option Word) : Prop :=
  (if a = some v then (Word.succ? v).map some else some a) = some b

def SkipsHi (v : Word) (a b : Option Word) : Prop :=
  (if a = some v then (Word.pred? v).map some else some a) = some b

theorem assumeEq?_false_skips {r i : Interval} {v : Word} (h : r.assumeEq? v false = some i) :
    SkipsLo v r.lo i.lo ∧ SkipsHi v r.hi i.hi := by
  rw [assumeEq?_false] at h
  obtain ⟨lo, hlo, h⟩ := Option.bind_eq_some_iff.mp h
  obtain ⟨hi, hhi, h⟩ := Option.bind_eq_some_iff.mp h
  unfold nonempty? at h
  split at h
  next => cases h
  next =>
    obtain rfl := Option.some.inj h
    exact ⟨hlo, hhi⟩

/-- Skipping a value moves a sharper bound at least as far. -/
theorem LoLe.skips {v : Word} {a a' b b' : Option Word} (h : LoLe a a') (hb : SkipsLo v a b) (hb' : SkipsLo v a' b') :
    LoLe b b' := by
  unfold SkipsLo at hb hb'
  split at hb
  next ha =>
    obtain ⟨s, hs, rfl⟩ := Option.map_eq_some_iff.mp hb
    obtain ⟨l, hl, hvl⟩ := h v ha
    split at hb'
    next =>
      rw [hs] at hb'
      obtain rfl := Option.some.inj hb'
      exact .refl _
    next hne =>
      obtain rfl := Option.some.inj hb'
      rintro m ⟨⟩
      refine ⟨l, hl, ?_⟩
      have hvl' : v.toInt ≠ l.toInt := fun he => hne (Int64.toInt_inj.mp he ▸ hl)
      rw [Word.succ?_eq_some_iff] at hs
      rw [Int64.le_iff_toInt_le] at hvl ⊢
      omega
  next =>
    obtain rfl := Option.some.inj hb
    split at hb'
    next ha' =>
      obtain ⟨s, hs, rfl⟩ := Option.map_eq_some_iff.mp hb'
      intro l hl
      obtain ⟨l', hl', hle⟩ := h l hl
      cases hl'.symm.trans ha'
      refine ⟨s, rfl, ?_⟩
      rw [Word.succ?_eq_some_iff] at hs
      rw [Int64.le_iff_toInt_le] at hle ⊢
      omega
    next =>
      obtain rfl := Option.some.inj hb'
      exact h

theorem HiGe.skips {v : Word} {a a' b b' : Option Word} (h : HiGe a a') (hb : SkipsHi v a b) (hb' : SkipsHi v a' b') :
    HiGe b b' := by
  unfold SkipsHi at hb hb'
  split at hb
  next ha =>
    obtain ⟨s, hs, rfl⟩ := Option.map_eq_some_iff.mp hb
    obtain ⟨l, hl, hvl⟩ := h v ha
    split at hb'
    next =>
      rw [hs] at hb'
      obtain rfl := Option.some.inj hb'
      exact .refl _
    next hne =>
      obtain rfl := Option.some.inj hb'
      rintro m ⟨⟩
      refine ⟨l, hl, ?_⟩
      have hvl' : v.toInt ≠ l.toInt := fun he => hne (Int64.toInt_inj.mp he ▸ hl)
      rw [Word.pred?_eq_some_iff] at hs
      rw [Int64.le_iff_toInt_le] at hvl ⊢
      omega
  next =>
    obtain rfl := Option.some.inj hb
    split at hb'
    next ha' =>
      obtain ⟨s, hs, rfl⟩ := Option.map_eq_some_iff.mp hb'
      intro l hl
      obtain ⟨l', hl', hle⟩ := h l hl
      cases hl'.symm.trans ha'
      refine ⟨s, rfl, ?_⟩
      rw [Word.pred?_eq_some_iff] at hs
      rw [Int64.le_iff_toInt_le] at hle ⊢
      omega
    next =>
      obtain rfl := Option.some.inj hb'
      exact h

theorem Covers.assumeEq?_false {r r' i i' : Interval} {v : Word} (h : r.Covers r')
    (hi : r.assumeEq? v false = some i) (hi' : r'.assumeEq? v false = some i') : i.Covers i' := by
  obtain ⟨hlo, hhi⟩ := assumeEq?_false_skips hi
  obtain ⟨hlo', hhi'⟩ := assumeEq?_false_skips hi'
  exact ⟨h.lo.skips hlo hlo', h.hi.skips hhi hhi'⟩

theorem tightens_unequal :
    Tightens (fun x y => ¬x = y) fun own other => other.constant?.bind (own.assumeEq? · false) where
  mem := by
    intro own other i x y hx hy hne hi
    obtain ⟨v, hv, hi⟩ := Option.bind_eq_some_iff.mp hi
    obtain rfl := eq_of_constant? hv hy
    obtain ⟨t, ht, hm⟩ := exists_assumeEq?_false hx hne
    cases hi.symm.trans ht
    exact hm
  covers := by
    intro own other own' other' i x y hown hother hx hy hne hi
    obtain ⟨v, hv, hi⟩ := Option.bind_eq_some_iff.mp hi
    have hv' := hother.constant? hv hy
    obtain rfl := eq_of_constant? hv' hy
    obtain ⟨i', hi', -⟩ := exists_assumeEq?_false hx hne
    exact ⟨i', by simp [hv', hi'], hown.assumeEq?_false hi hi'⟩

end Interval

end GuardElision
