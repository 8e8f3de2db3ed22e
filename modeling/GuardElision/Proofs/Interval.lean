import GuardElision.Interval
import Mathlib.Tactic.Tauto

namespace GuardElision

namespace Word

theorem toInt_below (a : Word) :
    (a.toUInt64.toNat : Int) = if 0 ≤ a.toInt then a.toInt else a.toInt + 0x10000000000000000 := by
  have hn : a.toUInt64.toNat = a.toBitVec.toNat := rfl
  have hi : a.toInt = a.toBitVec.toInt := rfl
  have hc := BitVec.toInt_eq_toNat_cond a.toBitVec
  have hb := a.toBitVec.isLt
  rw [hn, hi]
  split at hc <;> split <;> omega

theorem below_iff_of_nonneg {a b : Word} (hb : 0 ≤ b) : below a b = true ↔ 0 ≤ a ∧ a < b := by
  have h0 : (0 : Int64).toInt = 0 := rfl
  have ha := toInt_below a
  have hb' := toInt_below b
  have hau := Int64.toInt_lt a
  have hal := Int64.le_toInt a
  have hbu := Int64.toInt_lt b
  rw [Int64.le_iff_toInt_le, h0] at hb
  have hd : below a b = true ↔ a.toUInt64.toNat < b.toUInt64.toNat := decide_eq_true_iff
  rw [hd, Int64.le_iff_toInt_le, Int64.lt_iff_toInt_lt, h0]
  rw [if_pos hb] at hb'
  split at ha <;> omega

end Word

namespace Interval

/-- The half of membership that a lower bound decides. -/
def AboveLo (b : Option Word) (w : Word) : Prop :=
  ∀ l, b = some l → l ≤ w

/-- The half of membership that an upper bound decides. -/
def BelowHi (b : Option Word) (w : Word) : Prop :=
  ∀ h, b = some h → w ≤ h

theorem mem_iff_halves {r : Interval} {w : Word} : w ∈ r ↔ AboveLo r.lo w ∧ BelowHi r.hi w :=
  Iff.rfl

theorem aboveLo_none (w : Word) : AboveLo none w := by
  simp [AboveLo]

theorem belowHi_none (w : Word) : BelowHi none w := by
  simp [BelowHi]

theorem aboveLo_some {l w : Word} : AboveLo (some l) w ↔ l ≤ w := by
  simp [AboveLo]

theorem belowHi_some {h w : Word} : BelowHi (some h) w ↔ w ≤ h := by
  simp [BelowHi]

theorem aboveLo_raise {a b : Option Word} {w : Word} :
    AboveLo (raise a b) w ↔ AboveLo a w ∧ AboveLo b w := by
  cases a with
  | none => cases b <;> simp [raise, AboveLo]
  | some x =>
    cases b with
    | none => simp [raise, AboveLo]
    | some y =>
      have hm : max x y = if x ≤ y then y else x := rfl
      simp only [raise, aboveLo_some, hm, Int64.le_iff_toInt_le]
      split <;> omega

theorem belowHi_lower {a b : Option Word} {w : Word} :
    BelowHi (lower a b) w ↔ BelowHi a w ∧ BelowHi b w := by
  cases a with
  | none => cases b <;> simp [lower, BelowHi]
  | some x =>
    cases b with
    | none => simp [lower, BelowHi]
    | some y =>
      have hm : min x y = if x ≤ y then x else y := rfl
      simp only [lower, belowHi_some, hm, Int64.le_iff_toInt_le]
      split <;> omega

theorem boundLt_eq_true_iff {a b : Option Word} :
    boundLt a b = true ↔ ∃ x y, a = some x ∧ b = some y ∧ x < y := by
  cases a <;> cases b <;> simp [boundLt]

theorem boundLe_eq_true_iff {a b : Option Word} :
    boundLe a b = true ↔ ∃ x y, a = some x ∧ b = some y ∧ x ≤ y := by
  cases a <;> cases b <;> simp [boundLe]

theorem isEmpty_eq_false_of_mem {r : Interval} {w : Word} (h : w ∈ r) : r.isEmpty = false := by
  rw [← Bool.not_eq_true, isEmpty, boundLt_eq_true_iff]
  rintro ⟨x, y, hx, hy, hlt⟩
  have hw := h.2 x hx
  have hw' := h.1 y hy
  simp only [Int64.le_iff_toInt_le, Int64.lt_iff_toInt_lt] at hw hw' hlt
  omega

theorem nonempty?_of_mem {r : Interval} {w : Word} (h : w ∈ r) : r.nonempty? = some r := by
  simp [nonempty?, isEmpty_eq_false_of_mem h]

theorem meet?_eq_some {r s t : Interval} (h : r.meet? s = some t) :
    t = ⟨raise r.lo s.lo, lower r.hi s.hi⟩ := by
  unfold meet? nonempty? at h
  split at h
  · cases h
  · exact (Option.some.inj h).symm

theorem mem_of_meet? {r s t : Interval} (h : r.meet? s = some t) {w : Word} :
    w ∈ t ↔ w ∈ r ∧ w ∈ s := by
  rw [meet?_eq_some h]
  simp only [mem_iff_halves, aboveLo_raise, belowHi_lower]
  tauto

theorem exists_meet? {r s : Interval} {w : Word} (hr : w ∈ r) (hs : w ∈ s) :
    ∃ t, r.meet? s = some t ∧ w ∈ t := by
  have hm : w ∈ (⟨raise r.lo s.lo, lower r.hi s.hi⟩ : Interval) :=
    ⟨aboveLo_raise.mpr ⟨hr.1, hs.1⟩, belowHi_lower.mpr ⟨hr.2, hs.2⟩⟩
  exact ⟨_, nonempty?_of_mem hm, hm⟩

theorem mem_constant {v w : Word} : w ∈ constant v ↔ w = v := by
  simp only [constant, mem_iff_halves, aboveLo_some, belowHi_some, Int64.le_iff_toInt_le, ← Int64.toInt_inj]
  omega

theorem mem_atMost {v w : Word} : w ∈ atMost v ↔ w ≤ v := by
  simp [atMost, mem_iff_halves, aboveLo_none, belowHi_some]

theorem mem_atLeast {v w : Word} : w ∈ atLeast v ↔ v ≤ w := by
  simp [atLeast, mem_iff_halves, belowHi_none, aboveLo_some]

theorem eq_of_constant? {r : Interval} {v w : Word} (h : r.constant? = some v) (hw : w ∈ r) : w = v := by
  unfold constant? at h
  split at h
  next a b ha hb =>
    split at h
    next he =>
      cases Option.some.inj h
      have hl := hw.1 v ha
      have hh := hw.2 v (he ▸ hb)
      rw [← Int64.toInt_inj]
      simp only [Int64.le_iff_toInt_le] at hl hh
      omega
    next => cases h
  next => cases h

variable {r s : Interval} {x y : Word} {truth : Bool}

theorem lt?_sound (h : r.lt? s = some truth) (hx : x ∈ r) (hy : y ∈ s) : decide (x < y) = truth := by
  unfold lt? at h
  split at h
  next hb =>
    cases Option.some.inj h
    obtain ⟨a, b, ha, hb, hlt⟩ := boundLt_eq_true_iff.mp hb
    have hxa := hx.2 a ha
    have hyb := hy.1 b hb
    simp only [decide_eq_true_eq, Int64.le_iff_toInt_le, Int64.lt_iff_toInt_lt] at *
    omega
  next =>
    split at h
    next hb =>
      cases Option.some.inj h
      obtain ⟨a, b, ha, hb, hle⟩ := boundLe_eq_true_iff.mp hb
      have hya := hy.2 a ha
      have hxb := hx.1 b hb
      simp only [decide_eq_false_iff_not, Int64.le_iff_toInt_le, Int64.lt_iff_toInt_lt] at *
      omega
    next => cases h

theorem ne_of_not_overlaps (h : r.overlaps s = false) (hx : x ∈ r) (hy : y ∈ s) : x ≠ y := by
  rintro rfl
  simp only [overlaps, Bool.and_eq_false_iff, Bool.not_eq_false', boundLt_eq_true_iff] at h
  rcases h with ⟨a, b, ha, hb, hlt⟩ | ⟨a, b, ha, hb, hlt⟩
  · have hxa := hx.2 a ha
    have hxb := hy.1 b hb
    simp only [Int64.le_iff_toInt_le, Int64.lt_iff_toInt_lt] at hxa hxb hlt
    omega
  · have hxa := hy.2 a ha
    have hxb := hx.1 b hb
    simp only [Int64.le_iff_toInt_le, Int64.lt_iff_toInt_lt] at hxa hxb hlt
    omega

theorem eq?_sound (h : r.eq? s = some truth) (hx : x ∈ r) (hy : y ∈ s) : decide (x = y) = truth := by
  unfold eq? at h
  split at h
  next ho =>
    cases Option.some.inj h
    exact decide_eq_false (ne_of_not_overlaps (by simpa using ho) hx hy)
  next =>
    split at h
    next hc =>
      cases Option.some.inj h
      rw [Bool.and_eq_true, decide_eq_true_eq] at hc
      obtain ⟨v, hv⟩ := Option.isSome_iff_exists.mp hc.1
      have hxv := eq_of_constant? hv hx
      have hyv := eq_of_constant? (hc.2 ▸ hv) hy
      exact decide_eq_true (hxv.trans hyv.symm)
    next => cases h

theorem nonneg_of_isNonNegative (h : r.isNonNegative = true) (hx : x ∈ r) : 0 ≤ x := by
  obtain ⟨a, b, ha, hb, hle⟩ := boundLe_eq_true_iff.mp h
  cases Option.some.inj ha
  have hxb := hx.1 b hb
  simp only [Int64.le_iff_toInt_le] at *
  omega

theorem below?_sound (h : r.below? s = some truth) (hx : x ∈ r) (hy : y ∈ s) :
    Word.below x y = truth := by
  unfold below? at h
  split at h
  next => cases h
  next hs =>
    have hy0 := nonneg_of_isNonNegative (by simpa using hs) hy
    have hiff := Word.below_iff_of_nonneg (a := x) hy0
    rw [Option.orElse_eq_orElse, Option.orElse_eq_or] at h
    rcases Option.or_eq_some_iff.mp h with h | ⟨_, h⟩
    · split at h
      next hr =>
        have hx0 := nonneg_of_isNonNegative hr hx
        have ht := lt?_sound h hx hy
        rw [← ht, Bool.eq_iff_iff, hiff, decide_eq_true_iff]
        exact and_iff_right hx0
      next => cases h
    · split at h
      next hb =>
        cases Option.some.inj h
        obtain ⟨a, b, ha, hb, hlt⟩ := boundLt_eq_true_iff.mp hb
        cases Option.some.inj hb
        have hxa := hx.2 a ha
        rw [← Bool.not_eq_true, hiff]
        simp only [Int64.le_iff_toInt_le, Int64.lt_iff_toInt_lt] at *
        omega
      next => cases h

theorem assumeEq?_false (r : Interval) (v : Word) :
    r.assumeEq? v false =
      (if r.lo = some v then (Word.succ? v).map some else some r.lo).bind fun lo =>
        (if r.hi = some v then (Word.pred? v).map some else some r.hi).bind fun hi =>
          nonempty? ⟨lo, hi⟩ := by
  by_cases hl : r.lo = some v <;> by_cases hh : r.hi = some v <;> simp [assumeEq?, hl, hh]

/-- Assuming an inequality keeps every member but the excluded one. -/
theorem exists_assumeEq?_false {v : Word} (hx : x ∈ r) (hne : x ≠ v) :
    ∃ t, r.assumeEq? v false = some t ∧ x ∈ t := by
  have hlo : ∃ lo, (if r.lo = some v then (Word.succ? v).map some else some r.lo) = some lo ∧ AboveLo lo x := by
    split
    next he =>
      have hvx := hx.1 v he
      have hxu := Int64.toInt_lt x
      have hne' : v.toInt ≠ x.toInt := fun h => hne (Int64.toInt_inj.mp h).symm
      have hs : Word.succ? v = some (v + 1) := by
        have hm : Int64.maxValue.toInt = 2 ^ 63 - 1 := rfl
        have hv : v ≠ Int64.maxValue := by
          rintro rfl
          rw [Int64.le_iff_toInt_le] at hvx
          omega
        simp [Word.succ?, hv]
      refine ⟨some (v + 1), by rw [hs]; rfl, ?_⟩
      have ht := Word.succ?_eq_some_iff.mp hs
      rw [aboveLo_some]
      rw [Int64.le_iff_toInt_le] at hvx ⊢
      omega
    next => exact ⟨r.lo, rfl, hx.1⟩
  have hhi : ∃ hi, (if r.hi = some v then (Word.pred? v).map some else some r.hi) = some hi ∧ BelowHi hi x := by
    split
    next he =>
      have hvx := hx.2 v he
      have hxl := Int64.le_toInt x
      have hne' : v.toInt ≠ x.toInt := fun h => hne (Int64.toInt_inj.mp h).symm
      have hs : Word.pred? v = some (v - 1) := by
        have hm : Int64.minValue.toInt = -2 ^ 63 := rfl
        have hv : v ≠ Int64.minValue := by
          rintro rfl
          rw [Int64.le_iff_toInt_le] at hvx
          omega
        simp [Word.pred?, hv]
      refine ⟨some (v - 1), by rw [hs]; rfl, ?_⟩
      have ht := Word.pred?_eq_some_iff.mp hs
      rw [belowHi_some]
      rw [Int64.le_iff_toInt_le] at hvx ⊢
      omega
    next => exact ⟨r.hi, rfl, hx.2⟩
  obtain ⟨lo, hlo, hxl⟩ := hlo
  obtain ⟨hi, hhi, hxh⟩ := hhi
  have hm : x ∈ (⟨lo, hi⟩ : Interval) := ⟨hxl, hxh⟩
  refine ⟨⟨lo, hi⟩, ?_, hm⟩
  rw [assumeEq?_false, hlo, Option.bind_some, hhi, Option.bind_some]
  exact nonempty?_of_mem hm

end Interval

end GuardElision
