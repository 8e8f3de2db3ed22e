import GuardElision.Attempt

namespace GuardElision

namespace Attempt

variable {σ τ α β : Type} {s s' : σ}

theorem bind_ok {x : Attempt σ α} {k : α → Attempt σ β} {b : β} :
    (x >>= k) s = .ok b s' ↔ ∃ a s₁, x s = .ok a s₁ ∧ k a s₁ = .ok b s' := by
  simp only [bind, EStateM.bind]
  cases x s with
  | ok a s₁ => exact ⟨fun h => ⟨a, s₁, rfl, h⟩, by rintro ⟨_, _, ⟨⟩, h⟩; exact h⟩
  | error e s₁ => simp

theorem bind_of_ok {x : Attempt σ α} {k : α → Attempt σ β} {a : α} (hx : x s = .ok a s') : (x >>= k) s = k a s' := by
  simp only [bind, EStateM.bind, hx]

theorem bind_of_error {x : Attempt σ α} {k : α → Attempt σ β} {e : Fault} (hx : x s = .error e s') :
    (x >>= k) s = .error e s' := by
  simp only [bind, EStateM.bind, hx]

theorem pure_ok {a b : α} : (pure a : Attempt σ α) s = .ok b s' ↔ a = b ∧ s = s' := by
  simp [pure, EStateM.pure]

theorem get_ok {a : σ} : (get : Attempt σ σ) s = .ok a s' ↔ s = a ∧ s = s' := by
  change EStateM.Result.ok s s = .ok a s' ↔ _
  simp

theorem modify_ok {u : σ → σ} {a : Unit} : (modify u : Attempt σ Unit) s = .ok a s' ↔ u s = s' := by
  change EStateM.Result.ok () (u s) = .ok a s' ↔ _
  simp

theorem modifyGet_ok {u : σ → α × σ} {a : α} : (modifyGet u : Attempt σ α) s = .ok a s' ↔ u s = (a, s') := by
  change EStateM.Result.ok (u s).1 (u s).2 = .ok a s' ↔ _
  simp [Prod.ext_iff]

theorem throw_ok {e : Fault} {a : α} : (throw e : Attempt σ α) s = .ok a s' ↔ False := by
  change EStateM.Result.error e s = .ok a s' ↔ _
  simp

theorem ask_ok {f : σ → Except Fault α} {a : α} : ask f s = .ok a s' ↔ f s = .ok a ∧ s = s' := by
  unfold ask
  cases f s <;> simp

theorem get_bind_ok {k : σ → Attempt σ β} {b : β} : (get >>= k) s = .ok b s' ↔ k s s = .ok b s' :=
  Iff.rfl

theorem modify_bind_ok {u : σ → σ} {k : Unit → Attempt σ β} {b : β} :
    (modify u >>= k) s = .ok b s' ↔ k () (u s) = .ok b s' :=
  Iff.rfl

theorem ask_bind_ok {f : σ → Except Fault α} {k : α → Attempt σ β} {b : β} :
    (ask f >>= k) s = .ok b s' ↔ ∃ a, f s = .ok a ∧ k a s = .ok b s' := by
  rw [bind_ok]
  exact exists_congr fun a => ⟨fun ⟨_, hf, hk⟩ => ⟨(ask_ok.mp hf).1, (ask_ok.mp hf).2 ▸ hk⟩,
    fun ⟨hf, hk⟩ => ⟨s, ask_ok.mpr ⟨hf, rfl⟩, hk⟩⟩

theorem step_ok {f : σ → Except Fault σ} {a : Unit} : step f s = .ok a s' ↔ f s = .ok s' := by
  unfold step
  cases f s <;> simp

theorem stepWith_ok {f : σ → Except Fault (α × σ)} {a : α} : stepWith f s = .ok a s' ↔ f s = .ok (a, s') := by
  unfold stepWith
  cases f s with
  | ok r => simp [Prod.ext_iff]
  | error e => simp

theorem onPart_ok {part : τ → σ} {put : τ → σ → τ} {x : Attempt σ α} {t t' : τ} {a : α} :
    onPart part put x t = .ok a t' ↔ ∃ s₁, x (part t) = .ok a s₁ ∧ put t s₁ = t' := by
  unfold onPart
  cases x (part t) with
  | ok b s₁ =>
    simp only [EStateM.Result.ok.injEq]
    exact ⟨fun h => ⟨s₁, ⟨h.1, rfl⟩, h.2⟩, by rintro ⟨_, ⟨h, rfl⟩, hput⟩; exact ⟨h, hput⟩⟩
  | error e s₁ => simp

theorem final_ok {x : Attempt σ Unit} : x.final s = .ok s' ↔ x s = .ok () s' := by
  unfold final
  cases x s <;> simp

theorem finalWith_ok {x : Attempt σ α} {a : α} : x.finalWith s = .ok (a, s') ↔ x s = .ok a s' := by
  unfold finalWith
  cases x s <;> simp

theorem final_error {x : Attempt σ Unit} {e : Fault} : x.final s = .error e ↔ ∃ s', x s = .error e s' := by
  unfold final
  cases x s <;> simp

theorem finalWith_error {x : Attempt σ α} {e : Fault} : x.finalWith s = .error e ↔ ∃ s', x s = .error e s' := by
  unfold finalWith
  cases x s <;> simp

theorem result_eq_ok {x : Attempt σ α} {a : α} : x.result s = .ok a ↔ ∃ s', x s = .ok a s' := by
  unfold result
  cases x s with
  | ok b s₁ => simp
  | error e s₁ => simp

theorem eq_ok_of_result {x : Attempt σ α} {a : α} (h : x.result s = .ok a) : x s = .ok a (x.state s) := by
  obtain ⟨s', hx⟩ := result_eq_ok.mp h
  rw [state, hx]

theorem eq_error_of_result {x : Attempt σ α} {e : Fault} (h : x.result s = .error e) : x s = .error e (x.state s) := by
  unfold result at h
  unfold state
  cases hx : x s with
  | ok a s' => simp [hx] at h
  | error e' s' =>
    rw [hx] at h
    rw [Except.error.inj h]

theorem state_bind {x : Attempt σ α} {k : α → Attempt σ β} :
    (x >>= k).state s = match x s with
      | .ok a s₁ => (k a).state s₁
      | .error _ s₁ => s₁ := by
  simp only [state, bind, EStateM.bind]
  cases x s with
  | ok a s₁ => rfl
  | error e s₁ => rfl

theorem forM_ok {P : σ → Prop} {as : List α} {k : α → Attempt σ PUnit} {u : PUnit}
    (hk : ∀ a ∈ as, ∀ s s' v, P s → k a s = .ok v s' → P s') (hs : P s) (h : as.forM k s = .ok u s') : P s' := by
  induction as generalizing s with
  | nil =>
    obtain ⟨_, rfl⟩ := pure_ok.mp h
    exact hs
  | cons a as ih =>
    obtain ⟨v, s₁, ha, h⟩ := bind_ok.mp h
    exact ih (fun b hb => hk b (List.mem_cons_of_mem a hb)) (hk a List.mem_cons_self s s₁ v hs ha) h

theorem forM_stays {as : List α} {k : α → Attempt σ PUnit} (hk : ∀ a ∈ as, k a s = .ok () s) :
    as.forM k s = .ok () s := by
  induction as with
  | nil => rfl
  | cons a as ih =>
    obtain ⟨ha, has⟩ := List.forall_mem_cons.mp hk
    exact bind_ok.mpr ⟨(), s, ha, ih has⟩

/-- What holds before the attempt holds after it, if it succeeds. -/
def Keeps (P : σ → Prop) (x : Attempt σ α) : Prop :=
  ∀ s a s', P s → x s = .ok a s' → P s'

namespace Keeps

variable {P : σ → Prop}

theorem bind {x : Attempt σ α} {k : α → Attempt σ β} (hx : Keeps P x) (hk : ∀ a, Keeps P (k a)) :
    Keeps P (x >>= k) := by
  intro s b s' hs h
  obtain ⟨a, s₁, ha, h⟩ := bind_ok.mp h
  exact hk a s₁ b s' (hx s a s₁ hs ha) h

theorem pure (a : α) : Keeps P (Pure.pure a : Attempt σ α) := by
  intro s b s' hs h
  exact (pure_ok.mp h).2 ▸ hs

theorem get : Keeps P (MonadState.get : Attempt σ σ) := by
  intro s a s' hs h
  exact (get_ok.mp h).2 ▸ hs

theorem throw (e : Fault) : Keeps P (MonadExcept.throw e : Attempt σ α) := by
  intro s a s' _ h
  exact (throw_ok.mp h).elim

theorem ask (f : σ → Except Fault α) : Keeps P (Attempt.ask f) := by
  intro s a s' hs h
  exact (ask_ok.mp h).2 ▸ hs

theorem modify {u : σ → σ} (hu : ∀ s, P s → P (u s)) : Keeps P (modify u : Attempt σ Unit) := by
  intro s a s' hs h
  exact modify_ok.mp h ▸ hu s hs

theorem forM {as : List α} {k : α → Attempt σ PUnit} (hk : ∀ a ∈ as, Keeps P (k a)) : Keeps P (as.forM k) :=
  fun _ _ _ hs h => forM_ok (fun a ha s s' v => hk a ha s v s') hs h

theorem flatMapM {as : List α} {k : α → Attempt σ (List β)} (hk : ∀ a ∈ as, Keeps P (k a)) :
    Keeps P (as.flatMapM k) := by
  suffices hloop : ∀ bs, Keeps P (List.flatMapM.loop k as bs) from hloop []
  induction as with
  | nil => exact fun bs => .pure _
  | cons a as ih =>
    exact fun bs => .bind (hk a List.mem_cons_self) fun b => ih (fun a ha => hk a (List.mem_cons_of_mem _ ha)) _

end Keeps

/-- What holds of the elements still to come, of the results so far and of the state. -/
theorem flatMapM_ok {P : List α → List β → σ → Prop} {as : List α} {k : α → Attempt σ (List β)} {bs : List β}
    (hk : ∀ a as bs bs' s s', P (a :: as) bs s → k a s = .ok bs' s' → P as (bs ++ bs') s') (hs : P as [] s)
    (h : as.flatMapM k s = .ok bs s') : P [] bs s' := by
  have hloop : ∀ as acc s, P as acc.reverse.flatten s → List.flatMapM.loop k as acc s = .ok bs s' → P [] bs s' := by
    intro as
    induction as with
    | nil =>
      intro acc s hs h
      obtain ⟨rfl, rfl⟩ := pure_ok.mp h
      exact hs
    | cons a as ih =>
      intro acc s hs h
      obtain ⟨bs', s₁, ha, h⟩ := bind_ok.mp h
      refine ih (bs' :: acc) s₁ ?_ h
      have hnext := hk a as _ bs' s s₁ hs ha
      simpa using hnext
  exact hloop as [] s hs h

end Attempt

theorem except_bind_ok {ε α β : Type} {x : Except ε α} {k : α → Except ε β} {b : β} :
    (x >>= k) = .ok b ↔ ∃ a, x = .ok a ∧ k a = .ok b := by
  cases x <;> simp [bind, Except.bind]

theorem expect_ok {α : Type} {o : Option α} {d : Defect} {a : α} : expect o d = .ok a ↔ o = some a := by
  cases o <;> simp [expect]

theorem ensure_ok {c : Bool} {d : Defect} {u : Unit} : ensure c d = .ok u ↔ c = true := by
  cases c <;> simp [ensure]

section

variable {σ α β : Type} {s s' : σ}

theorem stateT_bind_ok {x : StateT σ (Except Fault) α} {k : α → StateT σ (Except Fault) β} {b : β} :
    (x >>= k) s = .ok (b, s') ↔ ∃ a s₁, x s = .ok (a, s₁) ∧ k a s₁ = .ok (b, s') := by
  simp only [bind, StateT.bind, Except.bind]
  cases x s with
  | error e => simp
  | ok r => exact ⟨fun h => ⟨r.1, r.2, rfl, h⟩, by rintro ⟨_, _, ⟨⟩, h⟩; exact h⟩

theorem stateT_bind_of_ok {x : StateT σ (Except Fault) α} {a : α} (hx : x s = .ok (a, s'))
    (k : α → StateT σ (Except Fault) β) : (x >>= k) s = k a s' := by
  simp only [bind, StateT.bind, Except.bind, hx]

theorem stateT_pure_ok {a b : α} :
    (pure a : StateT σ (Except Fault) α) s = .ok (b, s') ↔ a = b ∧ s = s' := by
  change Except.ok (a, s) = .ok (b, s') ↔ _
  simp

theorem stateT_lift_ok {e : Except Fault α} {a : α} :
    (liftM e : StateT σ (Except Fault) α) s = .ok (a, s') ↔ e = .ok a ∧ s = s' := by
  simp only [liftM, monadLift, MonadLift.monadLift, StateT.lift, bind, Except.bind, pure, Except.pure]
  cases e <;> simp

theorem stateT_get_ok {a : σ} :
    (get : StateT σ (Except Fault) σ) s = .ok (a, s') ↔ s = a ∧ s = s' := by
  simp [get, getThe, MonadStateOf.get, StateT.get, pure, Except.pure]

theorem stateT_throw_ok {e : Fault} {a : α} :
    (throw e : StateT σ (Except Fault) α) s = .ok (a, s') ↔ False := by
  simp [throw, throwThe, MonadExceptOf.throw, StateT.lift, bind, Except.bind]

theorem stateT_run'_ok {x : StateT σ (Except Fault) α} {a : α} :
    x.run' s = .ok a ↔ ∃ s', x s = .ok (a, s') := by
  simp only [StateT.run', Functor.map, Except.map]
  cases x s with
  | error e => simp
  | ok r => exact ⟨fun h => ⟨r.2, by cases h; rfl⟩, by rintro ⟨_, ⟨⟩⟩; rfl⟩

theorem stateT_forM_ok {P : σ → Prop} {Q : α → Prop} {as : List α} {f : α → StateT σ (Except Fault) PUnit}
    (hf : ∀ a ∈ as, ∀ s u s', P s → f a s = .ok (u, s') → P s' ∧ Q a) {u : PUnit} (hs : P s)
    (h : as.forM f s = .ok (u, s')) : P s' ∧ ∀ a ∈ as, Q a := by
  induction as generalizing s with
  | nil =>
    obtain ⟨_, rfl⟩ := stateT_pure_ok.mp h
    exact ⟨hs, by simp⟩
  | cons a as ih =>
    obtain ⟨u₁, s₁, ha, h⟩ := stateT_bind_ok.mp h
    obtain ⟨hs₁, hq⟩ := hf a List.mem_cons_self s u₁ s₁ hs ha
    obtain ⟨hs', hall⟩ := ih (fun b hb => hf b (List.mem_cons_of_mem a hb)) hs₁ h
    exact ⟨hs', List.forall_mem_cons.mpr ⟨hq, hall⟩⟩

theorem stateT_forM_of_forall {P : σ → Prop} {as : List α} {f : α → StateT σ (Except Fault) PUnit}
    (hf : ∀ a ∈ as, ∀ s, P s → ∃ s', P s' ∧ f a s = .ok ((), s')) (hs : P s) :
    ∃ s', P s' ∧ as.forM f s = .ok ((), s') := by
  induction as generalizing s with
  | nil => exact ⟨s, hs, rfl⟩
  | cons a as ih =>
    obtain ⟨s₁, hs₁, ha⟩ := hf a List.mem_cons_self s hs
    obtain ⟨s', hs', hrest⟩ := ih (fun b hb => hf b (List.mem_cons_of_mem a hb)) hs₁
    exact ⟨s', hs', stateT_bind_ok.mpr ⟨(), s₁, ha, hrest⟩⟩

theorem stateT_modify_ok {u : σ → σ} {a : Unit} :
    (modify u : StateT σ (Except Fault) Unit) s = .ok (a, s') ↔ u s = s' := by
  change Except.ok ((), u s) = .ok (a, s') ↔ _
  simp

end

end GuardElision
