import GuardElision.Proofs.Execution.Fresh

namespace GuardElision

/-- Two computations end alike, the second in the frame of the first without its cache, and what `Q` says
holds at the end of the first. -/
inductive Mirrors {α : Type} (Q : α → Frame → Prop) : Except Fault (α × Frame) → Except Fault (α × Frame) → Prop
  | fault (e : Fault) : Mirrors Q (.error e) (.error e)
  | done {a : α} {f : Frame} (h : Q a f) : Mirrors Q (.ok (a, f)) (.ok (a, f.bare))

namespace Mirrors

variable {α β : Type} {Q : α → Frame → Prop} {R : β → Frame → Prop} {f f' : Frame}

theorem imp {Q' : α → Frame → Prop} {x y : Except Fault (α × Frame)} (h : Mirrors Q x y)
    (hQ : ∀ a f, Q a f → Q' a f) : Mirrors Q' x y := by
  cases h with
  | fault e => exact .fault e
  | done h => exact .done (hQ _ _ h)

theorem second {x y : Except Fault (α × Frame)} (h : Mirrors Q x y) :
    Mirrors (fun a f => Q a f ∧ y = .ok (a, f.bare)) x y := by
  cases h with
  | fault e => exact .fault e
  | done h => exact .done ⟨h, rfl⟩

theorem bind {m m' : Exec α} {k k' : α → Exec β} (hm : Mirrors Q (m f) (m' f'))
    (hk : ∀ a f₁, Q a f₁ → Mirrors R (k a f₁) (k' a f₁.bare)) : Mirrors R ((m >>= k) f) ((m' >>= k') f') := by
  simp only [Bind.bind, StateT.bind, Except.bind]
  generalize m f = x at hm
  generalize m' f' = y at hm
  cases hm with
  | fault e => exact .fault e
  | done h => exact hk _ _ h

theorem lift (e : Except Fault α) : Mirrors (fun a f' => e = .ok a ∧ f' = f) ((liftM e : Exec α) f)
    ((liftM e : Exec α) f.bare) := by
  cases e with
  | error e => exact .fault e
  | ok a => exact .done ⟨rfl, rfl⟩

theorem get {k k' : Frame → Exec α} (h : Mirrors Q (k f f) (k' f.bare f.bare)) :
    Mirrors Q ((MonadState.get >>= k) f) ((MonadState.get >>= k') f.bare) :=
  h

theorem pure {a : α} (h : Q a f) : Mirrors Q ((Pure.pure a : Exec α) f) ((Pure.pure a : Exec α) f.bare) :=
  .done h

theorem throw (e : Fault) : Mirrors Q ((MonadExcept.throw e : Exec α) f) ((MonadExcept.throw e : Exec α) f.bare) :=
  .fault e

theorem run'_eq {m m' : Exec α} (h : Mirrors Q (m f) (m' f')) : m.run' f = m'.run' f' := by
  simp only [StateT.run']
  generalize m f = x at h ⊢
  generalize m' f' = y at h ⊢
  cases h <;> rfl

/-- A loop that evaluates one element after the other. -/
theorem mapM {P : Frame → Prop} {as : List α} {k k' : α → Exec β}
    (hk : ∀ a ∈ as, ∀ f, P f → Mirrors (fun _ => P) (k a f) (k' a f.bare)) (hf : P f) :
    Mirrors (fun _ => P) (as.mapM k f) (as.mapM k' f.bare) := by
  induction as generalizing f with
  | nil => exact .pure hf
  | cons a as ih =>
    obtain ⟨ha, has⟩ := List.forall_mem_cons.mp hk
    rw [List.mapM_cons, List.mapM_cons]
    refine .bind (ha f hf) fun b f₁ h₁ => ?_
    exact .bind (ih has h₁) fun bs f₂ h₂ => .pure h₂

end Mirrors

namespace Exec

variable {g : Graph} {heap : Heap} {ev ev' : Evaluator} {id : NodeId} {n : Node} {f : Frame}

/-- Evaluators that agree on the inputs of a node agree on its value. -/
theorem compute_mirrors {P : Frame → Prop}
    (hev : ∀ i < n.kind.arity, ∀ x, n.inputs[i]? = some x → ∀ f, P f → Mirrors (fun _ => P) (ev x f) (ev' x f.bare))
    (hf : P f) : Mirrors (fun _ => P) (compute g heap ev id n f) (compute g heap ev' id n f.bare) := by
  have hinput : ∀ {α : Type} {Q : α → Frame → Prop} (i : Nat) {k k' : Value → Exec α} {f : Frame}, P f →
      i < n.kind.arity → (∀ a f₁, P f₁ → Mirrors Q (k a f₁) (k' a f₁.bare)) →
      Mirrors Q ((liftM (input id n i) >>= fun x => ev x >>= k : Exec α) f)
        ((liftM (input id n i) >>= fun x => ev' x >>= k' : Exec α) f.bare) := by
    intro α Q i k k' f hf hi hk
    refine .bind (.lift _) ?_
    rintro x _ ⟨hx, rfl⟩
    exact .bind (hev i hi x (input_ok.mp hx) _ hf) hk
  unfold compute
  cases hk : n.kind with
  | constant c => cases c <;> exact .pure hf
  | logicConstant b => exact .pure hf
  | parameter index =>
    refine .get ?_
    cases hi : f.args[index]? with
    | none => simpa [Frame.bare, hi] using .throw _
    | some v => simpa [Frame.bare, hi] using .pure hf
  | phi => exact .get ((Mirrors.lift _).imp fun _ _ h => h.2 ▸ hf)
  | pi =>
    refine .bind (.lift _) ?_
    rintro x _ ⟨hx, rfl⟩
    exact hev 0 (by simp [hk, Kind.arity]) x (input_ok.mp hx) _ hf
  | isNull => exact hinput 0 hf (by simp [hk, Kind.arity]) fun _ _ h => .pure h
  | instanceOf cls =>
    refine hinput 0 hf (by simp [hk, Kind.arity]) fun v f₁ h₁ => ?_
    cases v <;> exact .pure h₁
  | compare op =>
    refine hinput 0 hf (by simp [hk, Kind.arity]) fun a f₁ h₁ => ?_
    refine hinput 1 h₁ (by simp [hk, Kind.arity]) fun b f₂ h₂ => ?_
    cases Value.compare? op a b with
    | none => exact .throw _
    | some t => exact .pure h₂
  | read field =>
    refine hinput 0 hf (by simp [hk, Kind.arity]) fun v f₁ h₁ => ?_
    cases v with
    | ref i =>
      cases hi : heap[i]? with
      | none => simpa [hi] using .throw _
      | some o =>
        simp only [hi]
        refine .bind (.lift _) ?_
        rintro m _ ⟨_, rfl⟩
        refine .get (.bind (.lift _) ?_)
        rintro e _ ⟨_, rfl⟩
        cases Word.ofInt? ((o.field field).toInt + e) with
        | none => exact .throw _
        | some w => exact .pure h₁
    | int | null | bool => exact .throw _
  | _ => exact .throw _

end Exec

/-- What the cache holds is what would be found afresh, and is about nodes in `P` only. -/
def CacheFresh (g : Graph) (heap : Heap) (P : NodeId → Prop) (f : Frame) : Prop :=
  ∀ x v, f.cache.get? x = some v → P x ∧ Exec.evalFresh g heap (g.capacity + 1) x f.bare = .ok (v, f.bare)

namespace CacheFresh

variable {g : Graph} {heap : Heap} {P Q : NodeId → Prop} {f : Frame}

theorem empty (h : f.cache = .empty) : CacheFresh g heap P f := by
  intro x v hx
  simp [h] at hx

theorem imp (h : CacheFresh g heap P f) (hPQ : ∀ x, P x → Q x) : CacheFresh g heap Q f :=
  fun x v hx => ⟨hPQ x (h x v hx).1, (h x v hx).2⟩

end CacheFresh

/-- Nothing changed but that fresh values of nodes in `P` went into the cache. -/
structure Fills (g : Graph) (heap : Heap) (P : NodeId → Prop) (f f' : Frame) : Prop where
  bare : f'.bare = f.bare
  fresh : CacheFresh g heap P f'
  kept : ∀ x v, f.cache.get? x = some v → ∃ w, f'.cache.get? x = some w

namespace Fills

variable {g : Graph} {heap : Heap} {P : NodeId → Prop} {f f₁ f₂ : Frame}

theorem refl (h : CacheFresh g heap P f) : Fills g heap P f f :=
  ⟨rfl, h, fun _ v hv => ⟨v, hv⟩⟩

theorem trans (h : Fills g heap P f f₁) (h' : Fills g heap P f₁ f₂) : Fills g heap P f f₂ := by
  refine ⟨h'.bare.trans h.bare, h'.fresh, fun x v hv => ?_⟩
  obtain ⟨w, hw⟩ := h.kept x v hv
  exact h'.kept x w hw

theorem insert {id : NodeId} {v : Value} (h : Fills g heap P f f₁) (hid : P id)
    (hv : Exec.evalFresh g heap (g.capacity + 1) id f.bare = .ok (v, f.bare)) :
    Fills g heap P f { f₁ with cache := f₁.cache.insert id v } := by
  refine ⟨h.bare, fun x w hx => ?_, fun x w hx => ?_⟩
  · have hbare : ({ f₁ with cache := f₁.cache.insert id v } : Frame).bare = f.bare := h.bare
    rw [hbare]
    rw [IdMap.get?_insert] at hx
    split at hx
    next he =>
      cases hx
      exact he ▸ ⟨hid, hv⟩
    next => exact h.bare ▸ h.fresh x w hx
  · rw [IdMap.get?_insert]
    split
    next => exact ⟨v, rfl⟩
    next => exact h.kept x w hx

end Fills

namespace Exec

variable {g : Graph} {heap : Heap} {P : NodeId → Prop} {id : NodeId} {f : Frame} {bound : Nat}

/-- Evaluation with a fresh cache mirrors evaluation without one, and the value found is in the cache. -/
theorem evalCached_mirrors (hacyclic : ∀ x, ¬Relation.TransGen g.Computes x x) (hlive : g.InputsLive)
    (hP : ClosedUnderTakes g P) (hid : P id) (hf : CacheFresh g heap P f) (hb : g.height id < bound) :
    Mirrors (fun v f' => Fills g heap P f f' ∧ f'.cache.get? id = some v) (evalCached g heap bound id f)
      (evalFresh g heap bound id f.bare) := by
  have hdeep : ∀ {x b}, g.height x < b → evalFresh g heap b x = evalFresh g heap (g.capacity + 1) x :=
    fun hx => evalFresh_bound hacyclic hlive hx (Nat.lt_succ_of_le (g.height_le_capacity _))
  induction bound generalizing id f with
  | zero => exact absurd hb (Nat.not_lt_zero _)
  | succ bound ih =>
    cases hc : f.cache.get? id with
    | some v =>
      have hcached : evalCached g heap (bound + 1) id f = .ok (v, f) := by
        rw [evalCached, stateT_bind_of_ok (stateT_get_ok.mpr ⟨rfl, rfl⟩), hc]
        rfl
      rw [hcached, hdeep hb, (hf id v hc).2]
      exact .done ⟨.refl hf, hc⟩
    | none =>
      have hmiss : evalCached g heap (bound + 1) id f = (liftM (g.node id) >>= fun n => do
          let v ← compute g heap (evalCached g heap bound) id n
          modify fun f => { f with cache := f.cache.insert id v }
          return v : Exec Value) f := by
        rw [evalCached, stateT_bind_of_ok (stateT_get_ok.mpr ⟨rfl, rfl⟩), hc]
      rw [hmiss]
      cases hn : g.get? id with
      | none =>
        rw [evalFresh, node_bind_none hn, node_bind_none hn]
        exact .throw _
      | some n =>
        have hcompute : Mirrors (fun _ => Fills g heap P f) (compute g heap (evalCached g heap bound) id n f)
            (compute g heap (evalFresh g heap bound) id n f.bare) := by
          refine compute_mirrors (fun i hi x hx f₁ h₁ => ?_) (.refl hf)
          have htakes : g.Takes id x := ⟨n, i, hn, hi, hx⟩
          have hlt := Graph.height_lt_of_takes hacyclic hlive htakes
          exact (ih (hP id x hid htakes) h₁.fresh (by omega)).imp fun v f₂ h₂ => h₁.trans h₂.1
        have hfresh : evalFresh g heap (bound + 1) id f.bare = compute g heap (evalFresh g heap bound) id n f.bare := by
          rw [evalFresh, node_bind hn]
        rw [node_bind hn, hfresh, ← bind_pure (compute g heap (evalFresh g heap bound) id n)]
        refine .bind hcompute.second fun v f₁ h₁ => ?_
        have hvalue : evalFresh g heap (g.capacity + 1) id f.bare = .ok (v, f.bare) := by
          rw [← hdeep hb, hfresh, h₁.2, h₁.1.bare]
        have hfills := h₁.1.insert hid hvalue
        refine .done (f := { f₁ with cache := f₁.cache.insert id v }) ⟨hfills, ?_⟩
        rw [IdMap.get?_insert, if_pos rfl]

end Exec

end GuardElision
