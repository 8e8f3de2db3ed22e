import GuardElision.Proofs.IntervalOrder

namespace GuardElision

namespace Interval

variable {r s r' s' : Interval} {x y v : Word} {truth : Bool}

theorem exists_mem_iff : (∃ w, w ∈ r) ↔ r.isEmpty = false := by
  constructor
  · rintro ⟨w, hw⟩
    exact isEmpty_eq_false_of_mem hw
  · intro h
    obtain ⟨lo, hi⟩ := r
    cases lo with
    | none =>
      cases hi with
      | none => exact ⟨0, aboveLo_none 0, belowHi_none 0⟩
      | some b => exact ⟨b, aboveLo_none b, belowHi_some.mpr (Int64.le_refl b)⟩
    | some a =>
      cases hi with
      | none => exact ⟨a, aboveLo_some.mpr (Int64.le_refl a), belowHi_none a⟩
      | some b =>
        have hab : ¬b < a := of_decide_eq_false h
        exact ⟨a, aboveLo_some.mpr (Int64.le_refl a), belowHi_some.mpr (Int64.not_lt.mp hab)⟩

theorem ltWord?_eq_lt? (r : Interval) (v : Word) : r.ltWord? v = r.lt? (constant v) :=
  rfl

theorem overlaps_constant (r : Interval) (v : Word) : r.overlaps (constant v) = r.admits v :=
  Bool.and_comm _ _

theorem constant?_constant (v : Word) : (constant v).constant? = some v := by
  simp [constant, constant?]

theorem eqWord?_eq_eq? (r : Interval) (v : Word) : r.eqWord? v = r.eq? (constant v) := by
  unfold eqWord? eq?
  rw [overlaps_constant, constant?_constant]
  cases r.constant? <;> simp

theorem loLe_iff {a b : Option Word} : (a.isNone || boundLe a b) = true ↔ LoLe a b := by
  cases a with
  | none => simp [LoLe]
  | some x => cases b <;> simp [LoLe, boundLe]

theorem hiGe_iff {a b : Option Word} : (a.isNone || boundLe b a) = true ↔ HiGe a b := by
  cases a with
  | none => simp [HiGe]
  | some x => cases b <;> simp [HiGe, boundLe]

theorem covers_iff : r.covers s = true ↔ r.Covers s := by
  unfold covers
  rw [Bool.and_eq_true, loLe_iff, hiGe_iff]
  exact ⟨fun h => ⟨h.1, h.2⟩, fun h => ⟨h.lo, h.hi⟩⟩

theorem LoLe.antisymm {a b : Option Word} (h : LoLe a b) (h' : LoLe b a) : a = b := by
  cases a with
  | none =>
    cases b with
    | none => rfl
    | some y =>
      obtain ⟨x, hx, -⟩ := h' y rfl
      cases hx
  | some x =>
    obtain ⟨y, rfl, hxy⟩ := h x rfl
    obtain ⟨z, hz, hyz⟩ := h' y rfl
    cases hz
    exact congrArg some (Int64.le_antisymm hxy hyz)

theorem HiGe.antisymm {a b : Option Word} (h : HiGe a b) (h' : HiGe b a) : a = b := by
  cases a with
  | none =>
    cases b with
    | none => rfl
    | some y =>
      obtain ⟨x, hx, -⟩ := h' y rfl
      cases hx
  | some x =>
    obtain ⟨y, rfl, hyx⟩ := h x rfl
    obtain ⟨z, hz, hzy⟩ := h' y rfl
    cases hz
    exact congrArg some (Int64.le_antisymm hzy hyx)

theorem Covers.antisymm (h : r.Covers s) (h' : s.Covers r) : r = s := by
  have hlo := h.lo.antisymm h'.lo
  have hhi := h.hi.antisymm h'.hi
  obtain ⟨rlo, rhi⟩ := r
  obtain ⟨slo, shi⟩ := s
  exact congr (congrArg Interval.mk hlo) hhi

/-- A way to compare intervals that tells the relation of any two members, and that tells no less of
smaller intervals with members. -/
structure Answers (R : Word → Word → Bool) (decide? : Interval → Interval → Option Bool) : Prop where
  sound : ∀ {r s : Interval} {truth : Bool} {x y : Word}, decide? r s = some truth → x ∈ r → y ∈ s → R x y = truth
  shrink : ∀ {r s r' s' : Interval} {x y : Word}, r.Covers r' → s.Covers s' → x ∈ r' → y ∈ s' →
    (decide? r s).isSome → (decide? r' s').isSome

/-- An answer stays when the intervals shrink. -/
theorem Answers.persists {R : Word → Word → Bool} {decide? : Interval → Interval → Option Bool} (h : Answers R decide?)
    (hr : r.Covers r') (hs : s.Covers s') (hx : x ∈ r') (hy : y ∈ s') (ht : decide? r s = some truth) :
    decide? r' s' = some truth := by
  have hsome : (decide? r s).isSome := by
    rw [ht]
    rfl
  obtain ⟨truth', ht'⟩ := Option.isSome_iff_exists.mp (h.shrink hr hs hx hy hsome)
  have hbefore : R x y = truth := h.sound ht (hr.mem hx) (hs.mem hy)
  have hafter : R x y = truth' := h.sound ht' hx hy
  rw [ht', ← hafter, hbefore]

theorem answers_lt : Answers (fun x y => decide (x < y)) lt? :=
  ⟨lt?_sound, fun hr hs _ _ => hr.lt? hs⟩

theorem answers_eq : Answers (fun x y => decide (x = y)) eq? :=
  ⟨eq?_sound, fun hr hs hx hy => hr.eq? hs hx hy⟩

theorem answers_below : Answers Word.below below? :=
  ⟨below?_sound, fun hr hs _ _ => hr.below? hs⟩

/-- Whatever two intervals answer, about one word or about each other, holds of all their members;
coverage and disjointness hold of the members too; and of intervals within them that have members they
answer the same. -/
theorem answers_hold_and_persist (a b : Interval) :
    (∀ x ∈ a, ∀ v truth,
      (a.ltWord? v = some truth → decide (x < v) = truth) ∧ (a.eqWord? v = some truth → decide (x = v) = truth)) ∧
    (∀ x ∈ a, ∀ y ∈ b, ∀ truth,
      (a.lt? b = some truth → decide (x < y) = truth) ∧ (a.eq? b = some truth → decide (x = y) = truth) ∧
      (a.below? b = some truth → decide (x.toUInt64 < y.toUInt64) = truth)) ∧
    (a.covers b = true → ∀ y ∈ b, y ∈ a) ∧
    (a.overlaps b = false → ¬∃ x, x ∈ a ∧ x ∈ b) ∧
    ∀ a' b' : Interval, a.covers a' = true → b.covers b' = true → (∃ x, x ∈ a') → (∃ y, y ∈ b') → ∀ truth,
      (a.lt? b = some truth → a'.lt? b' = some truth) ∧ (a.eq? b = some truth → a'.eq? b' = some truth) ∧
      (a.below? b = some truth → a'.below? b' = some truth) := by
  refine ⟨fun x hx v truth => ⟨fun h => ?_, fun h => ?_⟩, fun x hx y hy truth => ?_, fun h y hy => ?_, ?_, ?_⟩
  · rw [ltWord?_eq_lt?] at h
    exact lt?_sound h hx (mem_constant.mpr rfl)
  · rw [eqWord?_eq_eq?] at h
    exact eq?_sound h hx (mem_constant.mpr rfl)
  · exact ⟨fun h => lt?_sound h hx hy, fun h => eq?_sound h hx hy, fun h => below?_sound h hx hy⟩
  · exact (covers_iff.mp h).mem hy
  · rintro h ⟨x, hxa, hxb⟩
    exact ne_of_not_overlaps h hxa hxb rfl
  · rintro a' b' ha hb ⟨x, hx⟩ ⟨y, hy⟩ truth
    have ha' := covers_iff.mp ha
    have hb' := covers_iff.mp hb
    exact ⟨answers_lt.persists ha' hb' hx hy, answers_eq.persists ha' hb' hx hy,
      answers_below.persists ha' hb' hx hy⟩

/-- The negative words are not below the others, read as unsigned numbers; the least and the greatest
word are an instance, and the answer is the same for the intervals of these two alone. -/
theorem answers_hold_and_persist_signs :
    let negative : Interval := atMost (-1)
    (negative.below? nonNegative = some false ∧ ¬Int64.minValue.toUInt64 < Int64.maxValue.toUInt64) ∧
    (constant Int64.minValue).below? (constant Int64.maxValue) = some false := by
  intro negative
  have hbelow : negative.below? nonNegative = some false := by decide
  obtain ⟨-, htwo, -, -, hshrink⟩ := answers_hold_and_persist negative nonNegative
  have hmin : Int64.minValue ∈ negative := admits_iff.mp (by decide)
  have hmax : Int64.maxValue ∈ nonNegative := admits_iff.mp (by decide)
  obtain ⟨-, -, hunsigned⟩ := htwo _ hmin _ hmax false
  obtain ⟨-, -, hstays⟩ := hshrink (constant Int64.minValue) (constant Int64.maxValue) (by decide) (by decide)
    ⟨_, mem_constant.mpr rfl⟩ ⟨_, mem_constant.mpr rfl⟩ false
  exact ⟨⟨hbelow, of_decide_eq_false (hunsigned hbelow)⟩, hstays hbelow⟩

end Interval

end GuardElision
