import GuardElision.Proofs.Execution.Conforming

namespace GuardElision

namespace Exec

variable {α β : Type} {g : Graph} {heap : Heap} {ev : Evaluator} {id : NodeId} {n : Node} {f f' : Frame}

/-- Whatever the computation does, it leaves the epochs alone. -/
def KeepsEpochs (m : Exec α) : Prop :=
  ∀ f a f', m f = .ok (a, f') → f'.epoch = f.epoch ∧ f'.epochs = f.epochs

namespace KeepsEpochs

theorem pure (a : α) : KeepsEpochs (Pure.pure a : Exec α) := by
  intro f a f' h
  obtain ⟨_, rfl⟩ := stateT_pure_ok.mp h
  exact ⟨rfl, rfl⟩

theorem throw (e : Fault) : KeepsEpochs (MonadExcept.throw e : Exec α) :=
  fun _ _ _ h => (stateT_throw_ok.mp h).elim

theorem lift (e : Except Fault α) : KeepsEpochs (liftM e : Exec α) := by
  intro f a f' h
  obtain ⟨_, rfl⟩ := stateT_lift_ok.mp h
  exact ⟨rfl, rfl⟩

theorem get : KeepsEpochs (MonadState.get : Exec Frame) := by
  intro f a f' h
  obtain ⟨_, rfl⟩ := stateT_get_ok.mp h
  exact ⟨rfl, rfl⟩

theorem modify {u : Frame → Frame} (hu : ∀ f, (u f).epoch = f.epoch ∧ (u f).epochs = f.epochs) :
    KeepsEpochs (modify u : Exec Unit) := by
  intro f a f' h
  obtain rfl := stateT_modify_ok.mp h
  exact hu f

theorem bind {m : Exec α} {k : α → Exec β} (hm : KeepsEpochs m) (hk : ∀ a, KeepsEpochs (k a)) :
    KeepsEpochs (m >>= k) := by
  intro f b f' h
  obtain ⟨a, f₁, ha, h⟩ := stateT_bind_ok.mp h
  obtain ⟨he₁, hs₁⟩ := hm f a f₁ ha
  obtain ⟨he, hs⟩ := hk a f₁ b f' h
  exact ⟨he.trans he₁, hs.trans hs₁⟩

theorem mapM {k : α → Exec β} (hk : ∀ a, KeepsEpochs (k a)) (as : List α) : KeepsEpochs (as.mapM k) := by
  induction as with
  | nil => exact .pure []
  | cons a as ih =>
    rw [List.mapM_cons]
    exact (hk a).bind fun b => ih.bind fun bs => .pure _

end KeepsEpochs

theorem compute_keepsEpochs (hev : ∀ x, KeepsEpochs (ev x)) (id : NodeId) (n : Node) :
    KeepsEpochs (compute g heap ev id n) := by
  intro f v f' h
  rcases arity_cases n.kind with hk | hk | hk
  · obtain ⟨_, rfl⟩ := (compute_zero hk fun _ => .null).mp h
    exact ⟨rfl, rfl⟩
  · obtain ⟨x, w, _, hw, _⟩ := (compute_one hk).mp h
    exact hev x f w f' hw
  · obtain ⟨x, y, a, b, f₁, _, _, ha, hb, _⟩ := (compute_two hk).mp h
    obtain ⟨he₁, hs₁⟩ := hev x f a f₁ ha
    obtain ⟨he, hs⟩ := hev y f₁ b f' hb
    exact ⟨he.trans he₁, hs.trans hs₁⟩

theorem evalCached_keepsEpochs (bound : Nat) (id : NodeId) : KeepsEpochs (evalCached g heap bound id) := by
  induction bound generalizing id with
  | zero => exact .throw _
  | succ bound ih =>
    refine .bind .get fun f => ?_
    cases f.cache.get? id with
    | some v => exact .pure v
    | none =>
      refine .bind (.lift _) fun n => .bind (compute_keepsEpochs ih id n) fun v => ?_
      exact .bind (.modify fun _ => ⟨rfl, rfl⟩) fun _ => .pure v

section

variable (hev : ∀ x, KeepsEpochs (ev x))

include hev

theorem evalBool_keepsEpochs (id : NodeId) : KeepsEpochs (evalBool ev id) := by
  refine .bind (hev id) fun v => ?_
  cases v with
  | bool b => exact .pure b
  | int | null | ref => exact .throw _

theorem enterMerge_keepsEpochs (merge : NodeId) (source : Option NodeId) : KeepsEpochs (enterMerge g ev merge source) := by
  refine .bind (.lift _) fun source => .bind (.lift _) fun n => .bind (.lift _) fun index => .bind (.mapM ?_ _) fun _ =>
    .modify fun _ => ⟨rfl, rfl⟩
  exact fun phi => .bind (.lift _) fun p => .bind (.lift _) fun input => .bind (hev input) fun v => .pure _

theorem failingGuard?_keepsEpochs (guards : List NodeId) : KeepsEpochs (failingGuard? g ev guards) := by
  induction guards with
  | nil => exact .pure none
  | cons q rest ih =>
    refine .bind (.lift _) fun k => ?_
    cases k.kind with
    | guard negated reason =>
      refine .bind (.lift _) fun e => .bind (evalBool_keepsEpochs hev e) fun truth => ?_
      split
      · exact .pure _
      · exact ih
    | _ => exact ih

theorem leave_keepsEpochs (id : NodeId) (n : Node) : KeepsEpochs (leave ev id n) := by
  have hfollow : ∀ target, KeepsEpochs (follow id target) := by
    intro target
    cases target with
    | none => exact .throw _
    | some s => exact .pure _
  unfold leave
  cases n.kind with
  | ret =>
    cases n.inputs.head? with
    | none => exact .pure _
    | some x => exact .bind (hev x) fun v => .pure _
  | deoptimize reason => exact .pure _
  | branch => exact .bind (.lift _) fun e => .bind (evalBool_keepsEpochs hev e) fun truth => hfollow _
  | _ => exact hfollow _

theorem proceed_keepsEpochs (id : NodeId) (n : Node) : KeepsEpochs (proceed g ev id n) := by
  unfold proceed
  split
  · refine .bind (failingGuard?_keepsEpochs hev _) fun trap => ?_
    cases trap with
    | some reason => exact .pure _
    | none => exact leave_keepsEpochs hev id n
  · exact leave_keepsEpochs hev id n

/-- Entering a node counts a call, and records the epoch where a memory state begins. -/
theorem entry_epochs {previous : Option NodeId} (h : entry g ev previous id n f = .ok ((), f')) :
    f'.epoch = (if n.kind = .invoke then f.epoch + 1 else f.epoch) ∧
      f'.epochs = if n.kind.killsMemory = true then f.epochs.insert id f'.epoch else f.epochs := by
  unfold entry at h
  split at h
  · obtain ⟨_, f₁, hmerge, h⟩ := stateT_bind_ok.mp h
    obtain ⟨he, hs⟩ := enterMerge_keepsEpochs hev id previous f () f₁ hmerge
    obtain ⟨_, hepoch, hepochs⟩ := recordEpoch_ok.mp h
    rw [← he, ← hs]
    exact ⟨hepoch, hepochs⟩
  · exact (recordEpoch_ok.mp h).2

end

theorem mem_successors_of_proceed {s : NodeId} (h : proceed g ev id n f = .ok (.inr s, f')) : s ∈ n.successors := by
  have hfollow : ∀ {target : Option NodeId} {f : Frame}, follow id target f = .ok (.inr s, f') → target = some s := by
    intro target f h
    cases target with
    | none => exact (stateT_throw_ok.mp h).elim
    | some t =>
      obtain ⟨he, _⟩ := stateT_pure_ok.mp h
      rw [Sum.inr.inj he]
  have hleave : ∀ {f : Frame}, leave ev id n f = .ok (.inr s, f') → s ∈ n.successors := by
    intro f h
    unfold leave at h
    cases hk : n.kind with
    | ret =>
      simp only [hk] at h
      cases hx : n.inputs.head? with
      | none =>
        simp only [hx] at h
        cases (stateT_pure_ok.mp h).1
      | some x =>
        simp only [hx] at h
        obtain ⟨v, f₁, _, h⟩ := stateT_bind_ok.mp h
        cases (stateT_pure_ok.mp h).1
    | deoptimize reason =>
      simp only [hk] at h
      cases (stateT_pure_ok.mp h).1
    | branch =>
      simp only [hk] at h
      obtain ⟨e, f₁, _, h⟩ := stateT_bind_ok.mp h
      obtain ⟨truth, f₂, _, h⟩ := stateT_bind_ok.mp h
      have htarget := hfollow h
      split at htarget <;> exact List.mem_of_getElem? htarget
    | _ =>
      simp only [hk] at h
      exact List.mem_of_head? (hfollow h)
  unfold proceed at h
  split at h
  · obtain ⟨trap, f₁, _, h⟩ := stateT_bind_ok.mp h
    cases trap with
    | some reason => cases (stateT_pure_ok.mp h).1
    | none => exact hleave h
  · obtain ⟨trap, f₁, hpure, h⟩ := stateT_bind_ok.mp h
    obtain ⟨rfl, _⟩ := stateT_pure_ok.mp hpure
    exact hleave h

/-- A run has entered the nodes on the path, the last of them now, and is in the frame once the epoch is
recorded there. -/
inductive Visit (g : Graph) (ev : Evaluator) (args : List Value) : List NodeId → NodeId → Frame → Prop
  | start {n : Node} {f : Frame} (hn : g.get? Graph.start = some n)
    (hentry : entry g ev none Graph.start n { args } = .ok ((), f)) : Visit g ev args [Graph.start] Graph.start f
  | next {path : List NodeId} {c s : NodeId} {n m : Node} {f f₁ f₂ : Frame} (h : Visit g ev args path c f)
    (hn : g.get? c = some n) (hproceed : proceed g ev c n f = .ok (.inr s, f₁)) (hm : g.get? s = some m)
    (hentry : entry g ev (some c) s m f₁ = .ok ((), f₂)) : Visit g ev args (path ++ [s]) s f₂

theorem Visit.of_steps {args : List Value} {path : List NodeId} {c s : NodeId} {o : Outcome} {f₁ : Frame} {limit : Nat}
    (h : Visit g ev args path c f) (hn : g.get? c = some n) (hproceed : proceed g ev c n f = .ok (.inr s, f₁))
    (hsteps : steps g ev limit (some c) s f₁ = .ok (some o, f')) :
    ∃ path c n f f', Visit g ev args path c f ∧ g.get? c = some n ∧ proceed g ev c n f = .ok (.inl o, f') := by
  induction limit generalizing path c s f n f₁ with
  | zero => cases (stateT_pure_ok.mp hsteps).1
  | succ limit ih =>
    obtain ⟨r, f₂, hstep, hsteps⟩ := stateT_bind_ok.mp hsteps
    obtain ⟨m, f₃, hm, hentry, hnext⟩ := step_ok.mp hstep
    have hvisit := Visit.next h hn hproceed hm hentry
    cases r with
    | inl outcome =>
      obtain ⟨he, rfl⟩ := stateT_pure_ok.mp hsteps
      cases he
      exact ⟨_, s, m, f₃, f₂, hvisit, hm, hnext⟩
    | inr t => exact ih hvisit hm hnext hsteps

/-- A run that ends does so at a node that it has entered. -/
theorem exists_visit_of_runWith {args : List Value} {o : Outcome} {limit : Nat} (h : g.runWith ev limit args = .ok o) :
    ∃ path c n f f', Visit g ev args path c f ∧ g.get? c = some n ∧ proceed g ev c n f = .ok (.inl o, f') := by
  obtain ⟨f', hsteps⟩ := Graph.runWith_ok.mp h
  cases limit with
  | zero => cases (stateT_pure_ok.mp hsteps).1
  | succ limit =>
    obtain ⟨r, f₁, hstep, hsteps⟩ := stateT_bind_ok.mp hsteps
    obtain ⟨n, f₂, hn, hentry, hnext⟩ := step_ok.mp hstep
    have hvisit : Visit g ev args _ Graph.start f₂ := .start hn hentry
    cases r with
    | inl outcome =>
      obtain ⟨he, rfl⟩ := stateT_pure_ok.mp hsteps
      cases he
      exact ⟨_, _, n, f₂, f₁, hvisit, hn, hnext⟩
    | inr t => exact hvisit.of_steps hn hnext hsteps

end Exec

end GuardElision
