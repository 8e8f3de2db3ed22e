namespace GuardElision

namespace Loop

variable {σ ρ : Type}

/-- Makes one step after the other until one of them ends with the result, but no more than `bound` steps. -/
def run (step : σ → σ ⊕ ρ) : Nat → σ → Option ρ
  | 0, _ => none
  | bound + 1, s =>
    match step s with
    | .inl s' => run step bound s'
    | .inr r => some r

/-- What each step keeps while a measure falls holds of the state that the last step is made from, if there
are more steps than the measure is high. -/
theorem exists_run (step : σ → σ ⊕ ρ) (Inv : σ → Prop) (Post : ρ → Prop) (measure : σ → Nat) (bound : Nat)
    (hstep : ∀ s s', Inv s → step s = .inl s' → Inv s' ∧ measure s' < measure s)
    (hlast : ∀ s r, Inv s → step s = .inr r → Post r) {s : σ} (hs : Inv s)
    (hbound : measure s < bound) : ∃ r, run step bound s = some r ∧ Post r := by
  induction bound generalizing s with
  | zero => omega
  | succ bound ih =>
    unfold run
    cases hnext : step s with
    | inl s' =>
      obtain ⟨hs', hless⟩ := hstep s s' hs hnext
      exact ih hs' (by omega)
    | inr r => exact ⟨r, rfl, hlast s r hs hnext⟩

end Loop

end GuardElision
