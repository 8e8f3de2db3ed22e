import GuardElision.Proofs.IntervalAnswers
import Mathlib.Tactic.ByContra

namespace GuardElision

namespace Word

theorem pred?_eq_none_iff {w : Word} : pred? w = none ↔ ∀ x, ¬x < w := by
  constructor
  · intro hn x hx
    obtain ⟨p, hp⟩ := exists_pred? hx
    cases hn.symm.trans hp
  · intro h
    cases hp : pred? w with
    | none => rfl
    | some p =>
      have hint := pred?_eq_some_iff.mp hp
      exact absurd (Int64.lt_iff_toInt_lt.mpr (by omega)) (h p)

theorem le_pred_iff {w p x : Word} (h : pred? w = some p) : x ≤ p ↔ x < w := by
  have hp := pred?_eq_some_iff.mp h
  rw [Int64.le_iff_toInt_le, Int64.lt_iff_toInt_lt]
  omega

theorem succ_le_iff {w s x : Word} (h : succ? w = some s) : s ≤ x ↔ w < x := by
  have hs := succ?_eq_some_iff.mp h
  rw [Int64.le_iff_toInt_le, Int64.lt_iff_toInt_lt]
  omega

theorem exists_neighbour (w : Word) : (∃ x, x < w) ∨ ∃ x, w < x := by
  have hmin : Int64.minValue.toInt = -2 ^ 63 := rfl
  have hmax : Int64.maxValue.toInt = 2 ^ 63 - 1 := rfl
  by_cases h : Int64.minValue < w
  · exact .inl ⟨_, h⟩
  · refine .inr ⟨Int64.maxValue, ?_⟩
    rw [Int64.lt_iff_toInt_lt] at h ⊢
    omega

end Word

namespace Interval

variable {r s t : Interval} {v x : Word}

/-- The result is an interval of just the words with the property, and there is none just if no word has
it. -/
structure Exactly (result : Option Interval) (P : Word → Prop) : Prop where
  mem : ∀ t, result = some t → ∀ x, x ∈ t ↔ P x
  eq_none : result = none ↔ ∀ x, ¬P x

theorem Exactly.congr {result : Option Interval} {P Q : Word → Prop} (h : Exactly result P) (hPQ : ∀ x, P x ↔ Q x) :
    Exactly result Q := by
  obtain rfl : P = Q := funext fun x => propext (hPQ x)
  exact h

/-- A result has members. -/
theorem Exactly.exists_mem {result : Option Interval} {P : Word → Prop} (h : Exactly result P) (ht : result = some t) :
    ∃ x, x ∈ t := by
  by_contra hno
  have hnone : result = none := h.eq_none.mpr fun x hx => hno ⟨x, (h.mem t ht x).mpr hx⟩
  cases hnone.symm.trans ht

theorem exactly_none {P : Word → Prop} (h : ∀ x, ¬P x) : Exactly none P :=
  ⟨nofun, fun _ => h, fun _ => rfl⟩

theorem nonempty?_exact (r : Interval) : Exactly r.nonempty? (· ∈ r) := by
  have hempty : r.isEmpty = true ↔ ∀ x, x ∉ r := by
    have hiff := exists_mem_iff (r := r)
    rw [← not_exists, hiff, Bool.not_eq_false]
  unfold nonempty?
  split
  next h => exact exactly_none (hempty.mp h)
  next h =>
    refine ⟨?_, ?_⟩
    · rintro t ⟨⟩ x
      exact Iff.rfl
    · rw [← hempty]
      simp [h]

theorem meet?_exact (r s : Interval) : Exactly (r.meet? s) fun x => x ∈ r ∧ x ∈ s := by
  refine (nonempty?_exact _).congr fun x => ?_
  simp only [mem_iff_halves, aboveLo_raise, belowHi_lower]
  tauto

theorem assumeLt?_exact (r : Interval) (v : Word) (holds : Bool) :
    Exactly (r.assumeLt? v holds) fun x => x ∈ r ∧ decide (x < v) = holds := by
  cases holds with
  | false =>
    refine (meet?_exact r (atLeast v)).congr fun x => ?_
    rw [mem_atLeast, decide_eq_false_iff_not, Int64.not_lt]
  | true =>
    simp only [assumeLt?, ↓reduceIte]
    cases hp : Word.pred? v with
    | none =>
      have hleast := Word.pred?_eq_none_iff.mp hp
      exact exactly_none fun x hx => hleast x (of_decide_eq_true hx.2)
    | some p =>
      refine (meet?_exact r (atMost p)).congr fun x => ?_
      rw [mem_atMost, Word.le_pred_iff hp, decide_eq_true_iff]

theorem assumeEq?_true_exact (r : Interval) (v : Word) : Exactly (r.assumeEq? v true) fun x => x ∈ r ∧ x = v :=
  (meet?_exact r (constant v)).congr fun _ => and_congr_right' mem_constant

theorem SkipsLo.loLe {a b : Option Word} (h : SkipsLo v a b) : LoLe a b := by
  unfold SkipsLo at h
  split at h
  next ha =>
    obtain ⟨s, hs, rfl⟩ := Option.map_eq_some_iff.mp h
    rw [ha]
    rintro l ⟨⟩
    exact ⟨s, rfl, Int64.le_of_lt ((Word.succ_le_iff hs).mp (Int64.le_refl s))⟩
  next =>
    obtain rfl := Option.some.inj h
    exact .refl a

theorem SkipsHi.hiGe {a b : Option Word} (h : SkipsHi v a b) : HiGe a b := by
  unfold SkipsHi at h
  split at h
  next ha =>
    obtain ⟨p, hp, rfl⟩ := Option.map_eq_some_iff.mp h
    rw [ha]
    rintro l ⟨⟩
    exact ⟨p, rfl, Int64.le_of_lt ((Word.le_pred_iff hp).mp (Int64.le_refl p))⟩
  next =>
    obtain rfl := Option.some.inj h
    exact .refl a

theorem covers_assumeEq?_false (h : r.assumeEq? v false = some t) : r.Covers t := by
  obtain ⟨hlo, hhi⟩ := assumeEq?_false_skips h
  exact ⟨hlo.loLe, hhi.hiGe⟩

theorem notMem_assumeEq?_false (h : r.assumeEq? v false = some t) (hv : r.lo = some v ∨ r.hi = some v) : v ∉ t := by
  obtain ⟨hlo, hhi⟩ := assumeEq?_false_skips h
  intro hmem
  rcases hv with hv | hv
  · rw [SkipsLo, if_pos hv] at hlo
    obtain ⟨s, hs, ht⟩ := Option.map_eq_some_iff.mp hlo
    have hlt : v < v := (Word.succ_le_iff hs).mp (hmem.1 s ht.symm)
    exact Int64.lt_irrefl hlt
  · rw [SkipsHi, if_pos hv] at hhi
    obtain ⟨p, hp, ht⟩ := Option.map_eq_some_iff.mp hhi
    have hlt : v < v := (Word.le_pred_iff hp).mp (hmem.2 p ht.symm)
    exact Int64.lt_irrefl hlt

theorem exists_mem_lt (hv : v ∈ r) (hlo : r.lo ≠ some v) (hx : x < v) : ∃ p ∈ r, p < v := by
  obtain ⟨p, hp⟩ := Word.exists_pred? hx
  have hpv : p < v := (Word.le_pred_iff hp).mp (Int64.le_refl p)
  refine ⟨p, ⟨fun l hl => ?_, fun h hh => Int64.le_trans (Int64.le_of_lt hpv) (hv.2 h hh)⟩, hpv⟩
  have hne : l ≠ v := fun he => hlo (he ▸ hl)
  exact (Word.le_pred_iff hp).mpr (Int64.lt_of_le_of_ne (hv.1 l hl) hne)

theorem exists_mem_gt (hv : v ∈ r) (hhi : r.hi ≠ some v) (hx : v < x) : ∃ s ∈ r, v < s := by
  obtain ⟨s, hs⟩ := Word.exists_succ? hx
  have hvs : v < s := (Word.succ_le_iff hs).mp (Int64.le_refl s)
  refine ⟨s, ⟨fun l hl => Int64.le_trans (hv.1 l hl) (Int64.le_of_lt hvs), fun h hh => ?_⟩, hvs⟩
  have hne : v ≠ h := fun he => hhi (he ▸ hh)
  exact (Word.succ_le_iff hs).mpr (Int64.lt_of_le_of_ne (hv.2 h hh) hne)

theorem bound_of_only_member (hv : v ∈ r) (honly : ∀ x ∈ r, x = v) : r.lo = some v ∨ r.hi = some v := by
  by_contra hno
  obtain ⟨hlo, hhi⟩ := not_or.mp hno
  rcases Word.exists_neighbour v with ⟨x, hx⟩ | ⟨x, hx⟩
  · obtain ⟨p, hp, hlt⟩ := exists_mem_lt hv hlo hx
    exact Int64.lt_irrefl (honly p hp ▸ hlt)
  · obtain ⟨s, hs, hlt⟩ := exists_mem_gt hv hhi hx
    exact Int64.lt_irrefl (honly s hs ▸ hlt)

theorem exists_mem_assumeEq?_false (h : r.assumeEq? v false = some t) : ∃ w, w ∈ t := by
  rw [assumeEq?_false] at h
  obtain ⟨lo, -, h⟩ := Option.bind_eq_some_iff.mp h
  obtain ⟨hi, -, h⟩ := Option.bind_eq_some_iff.mp h
  exact (nonempty?_exact ⟨lo, hi⟩).exists_mem h

theorem assumeEq?_false_eq_none_iff : r.assumeEq? v false = none ↔ ∀ x ∈ r, x = v := by
  constructor
  · intro hnone x hx
    by_contra hne
    obtain ⟨t, ht, -⟩ := exists_assumeEq?_false hx hne
    cases hnone.symm.trans ht
  · intro honly
    cases ht : r.assumeEq? v false with
    | none => rfl
    | some t =>
      obtain ⟨w, hw⟩ := exists_mem_assumeEq?_false ht
      have hwr : w ∈ r := (covers_assumeEq?_false ht).mem hw
      obtain rfl := honly w hwr
      exact absurd hw (notMem_assumeEq?_false ht (bound_of_only_member hwr honly))

theorem covers_join_left (r s : Interval) : (r.join s).Covers r := by
  obtain ⟨rlo, rhi⟩ := r
  obtain ⟨slo, shi⟩ := s
  refine ⟨?_, ?_⟩
  · cases rlo with
    | none => simp [join, LoLe]
    | some a =>
      cases slo with
      | none => simp [join, LoLe]
      | some b =>
        have hm : min a b = if a ≤ b then a else b := rfl
        rintro l ⟨⟩
        refine ⟨a, rfl, ?_⟩
        simp only [hm, Int64.le_iff_toInt_le]
        split <;> omega
  · cases rhi with
    | none => simp [join, HiGe]
    | some a =>
      cases shi with
      | none => simp [join, HiGe]
      | some b =>
        have hm : max a b = if a ≤ b then b else a := rfl
        rintro l ⟨⟩
        refine ⟨a, rfl, ?_⟩
        simp only [hm, Int64.le_iff_toInt_le]
        split <;> omega

theorem join_comm (r s : Interval) : r.join s = s.join r := by
  have hmin : ∀ a b : Word, min a b = min b a := fun a b => by
    have h : min a b = if a ≤ b then a else b := rfl
    have h' : min b a = if b ≤ a then b else a := rfl
    rw [h, h', ← Int64.toInt_inj]
    simp only [Int64.le_iff_toInt_le]
    split <;> split <;> omega
  have hmax : ∀ a b : Word, max a b = max b a := fun a b => by
    have h : max a b = if a ≤ b then b else a := rfl
    have h' : max b a = if b ≤ a then a else b := rfl
    rw [h, h', ← Int64.toInt_inj]
    simp only [Int64.le_iff_toInt_le]
    split <;> split <;> omega
  obtain ⟨rlo, rhi⟩ := r
  obtain ⟨slo, shi⟩ := s
  cases rlo <;> cases rhi <;> cases slo <;> cases shi <;> simp [join, hmin, hmax]

/-- Intersections, assumed comparisons with a word and assumed equality keep exactly the members they speak
of; an assumed inequality takes out the word where it is a bound, and nothing else; and there is no result
just if no member is left. The hull of two intervals holds the members of both. -/
theorem narrowing_exact (a b : Interval) (v : Word) :
    Exactly (a.meet? b) (fun x => x ∈ a ∧ x ∈ b) ∧
    (∀ holds, Exactly (a.assumeLt? v holds) fun x => x ∈ a ∧ decide (x < v) = holds) ∧
    Exactly (a.assumeEq? v true) (fun x => x ∈ a ∧ x = v) ∧
    (∀ t, a.assumeEq? v false = some t →
      (∀ x ∈ t, x ∈ a) ∧ (∀ x ∈ a, x ≠ v → x ∈ t) ∧ (a.lo = some v ∨ a.hi = some v → v ∉ t)) ∧
    (a.assumeEq? v false = none ↔ ¬∃ x ∈ a, x ≠ v) ∧
    ∀ x, x ∈ a ∨ x ∈ b → x ∈ a.join b := by
  refine ⟨meet?_exact a b, assumeLt?_exact a v, assumeEq?_true_exact a v, fun t ht => ⟨?_, ?_, ?_⟩, ?_, ?_⟩
  · exact fun x hx => (covers_assumeEq?_false ht).mem hx
  · intro x hx hne
    obtain ⟨t', ht', hmem⟩ := exists_assumeEq?_false hx hne
    cases ht.symm.trans ht'
    exact hmem
  · exact notMem_assumeEq?_false ht
  · rw [assumeEq?_false_eq_none_iff]
    simp
  · rintro x (hx | hx)
    · exact (covers_join_left a b).mem hx
    · exact join_comm b a ▸ (covers_join_left b a).mem hx

/-- At the ends of the words: nothing is less than the least word, and the interval from the greatest word
on is empty without that word. -/
theorem narrowing_exact_ends :
    (full.assumeLt? Int64.minValue true = none ∧ ∀ x ∈ full, ¬x < Int64.minValue) ∧
    (atLeast Int64.maxValue).assumeEq? Int64.maxValue false = none ∧
    ¬∃ x ∈ atLeast Int64.maxValue, x ≠ Int64.maxValue := by
  obtain ⟨-, hless, -⟩ := narrowing_exact full full Int64.minValue
  obtain ⟨-, -, -, -, hother, -⟩ := narrowing_exact (atLeast Int64.maxValue) full Int64.maxValue
  have hleast : full.assumeLt? Int64.minValue true = none := by decide
  have hgreatest : (atLeast Int64.maxValue).assumeEq? Int64.maxValue false = none := by decide
  refine ⟨⟨hleast, fun x hx hlt => ?_⟩, hgreatest, hother.mp hgreatest⟩
  exact (hless true).eq_none.mp hleast x ⟨hx, decide_eq_true hlt⟩

end Interval

end GuardElision
