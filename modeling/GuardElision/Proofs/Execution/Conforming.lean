import GuardElision.Proofs.Execution.Eval

namespace GuardElision

namespace Exec

variable (g : Graph) (heap : Heap)

/-- Evaluates like `evalCached` and fails on a value that does not conform. -/
def evalConforming : Nat → Evaluator
  | 0, id => throw (.internal (.cyclicValue id))
  | bound + 1, id => do
    match (← get).cache.get? id with
    | some v => return v
    | none =>
      let n ← g.node id
      let v ← compute g heap (evalConforming bound) id n
      if n.kind = .pi ∨ n.stamp.admits g.classes heap v = true then
        modify fun f => { f with cache := f.cache.insert id v }
        return v
      else throw (.internal (.noValue id n.kind))

end Exec

namespace Frame

def bare (f : Frame) : Frame := { f with cache := .empty }

theorem bare_eq_iff {f f' : Frame} : f.bare = f'.bare ↔
    f.args = f'.args ∧ f.phis = f'.phis ∧ f.epochs = f'.epochs ∧ f.epoch = f'.epoch := by
  simp [bare]

end Frame

theorem Eval.of_bare {g : Graph} {heap : Heap} {f f' : Frame} {id : NodeId} {v : Value}
    (he : f.bare = f'.bare) (h : Eval g heap f id v) : Eval g heap f' id v := by
  obtain ⟨hargs, hphis, hepochs, _⟩ := Frame.bare_eq_iff.mp he
  exact h.congr_frame hargs hphis hepochs

/-- Values of the nodes in `P` are found from those of further nodes in `P`. -/
def ClosedUnderInputs (g : Graph) (P : NodeId → Prop) : Prop :=
  ∀ y n x, P y → g.get? y = some n → n.kind ≠ .phi → x ∈ n.inputs → P x

theorem ClosedUnderInputs.of_input {g : Graph} {P : NodeId → Prop} (hP : ClosedUnderInputs g P)
    {id x : NodeId} {n : Node} {i : Nat} (hid : P id) (hn : g.get? id = some n) (hi : i < n.kind.arity)
    (hx : n.inputs[i]? = some x) : P x := by
  refine hP id n x hid hn ?_ (List.mem_of_getElem? hx)
  intro hk
  simp [hk, Kind.arity] at hi

/-- What a cache holds is still true, and is about nodes in `P` only. -/
def CacheSound (g : Graph) (heap : Heap) (P : NodeId → Prop) (f : Frame) : Prop :=
  ∀ id v, f.cache.get? id = some v → P id ∧ Eval g heap f id v

namespace CacheSound

variable {g : Graph} {heap : Heap} {P : NodeId → Prop} {f f' : Frame}

theorem empty (hc : f.cache = .empty) : CacheSound g heap P f := by
  intro id v h
  simp [hc] at h

theorem insert {id : NodeId} {v : Value} (hf : CacheSound g heap P f) (hid : P id)
    (hv : Eval g heap f id v) : CacheSound g heap P { f with cache := f.cache.insert id v } := by
  intro j w h
  have hbare : f.bare = ({ f with cache := f.cache.insert id v } : Frame).bare := rfl
  rw [IdMap.get?_insert] at h
  split at h
  next hj =>
    cases Option.some.inj h
    subst hj
    exact ⟨hid, hv.of_bare hbare⟩
  next =>
    obtain ⟨hj, hw⟩ := hf j w h
    exact ⟨hj, hw.of_bare hbare⟩

end CacheSound

/-- An evaluator finds true values of the nodes in `P`, and changes nothing but a cache of such. -/
def Faithful (g : Graph) (heap : Heap) (P : NodeId → Prop) (ev : Evaluator) : Prop :=
  ∀ id f v f', P id → CacheSound g heap P f → ev id f = .ok (v, f') →
    Eval g heap f id v ∧ f'.bare = f.bare ∧ CacheSound g heap P f'

/-- In the frame the computation has the result, and changes nothing but a cache of values of nodes in
`P`. -/
def Yields (g : Graph) (heap : Heap) (P : NodeId → Prop) (f : Frame) {α : Type} (m : Exec α) (a : α) : Prop :=
  ∀ f₁, f₁.bare = f.bare → CacheSound g heap P f₁ →
    ∃ f₂, m f₁ = .ok (a, f₂) ∧ f₂.bare = f.bare ∧ CacheSound g heap P f₂

namespace Exec

variable {g : Graph} {heap : Heap} {P : NodeId → Prop} {ev : Evaluator} {id : NodeId} {n : Node}
  {f f' : Frame} {v : Value}

theorem result?_of_bare (he : f.bare = f'.bare) (x : Nat → Value) :
    n.result? g.classes heap f id x = n.result? g.classes heap f' id x := by
  obtain ⟨hargs, hphis, hepochs, _⟩ := Frame.bare_eq_iff.mp he
  exact Node.result?_frame hargs (fun _ => by rw [hphis]) fun _ _ _ _ => by rw [hepochs]

theorem arity_cases (k : Kind) : k.arity = 0 ∨ k.arity = 1 ∨ k.arity = 2 := by
  cases k <;> simp [Kind.arity]

/-- What a node is computed from. -/
theorem compute_faithful (hP : ClosedUnderInputs g P) (hev : Faithful g heap P ev)
    (hf : CacheSound g heap P f) (hid : P id) (hn : g.get? id = some n)
    (h : compute g heap ev id n f = .ok (v, f')) :
    (∃ ins : Nat → NodeId, ∃ vals : Nat → Value, (∀ i < n.kind.arity, n.inputs[i]? = some (ins i)) ∧
      (∀ i < n.kind.arity, Eval g heap f (ins i) (vals i)) ∧
      n.result? g.classes heap f id vals = some v) ∧
    f'.bare = f.bare ∧ CacheSound g heap P f' := by
  rcases arity_cases n.kind with hk | hk | hk
  · obtain ⟨hv, rfl⟩ := (compute_zero hk fun _ => .null).mp h
    exact ⟨⟨fun _ => id, fun _ => .null, by simp [hk], by simp [hk], hv⟩, rfl, hf⟩
  · obtain ⟨x, w, hx, hw, hv⟩ := (compute_one hk).mp h
    obtain ⟨hval, hbare, hf'⟩ := hev x f w f' (hP.of_input hid hn (by omega) hx) hf hw
    refine ⟨⟨fun _ => x, fun _ => w, fun i hi => ?_, fun i hi => hval, ?_⟩, hbare, hf'⟩
    · obtain rfl : i = 0 := by omega
      exact hx
    · rwa [result?_of_bare hbare.symm]
  · obtain ⟨x, y, a, b, f₁, hx, hy, ha, hb, hv⟩ := (compute_two hk).mp h
    obtain ⟨hval, hbare, hf₁⟩ := hev x f a f₁ (hP.of_input hid hn (by omega) hx) hf ha
    obtain ⟨hval', hbare', hf'⟩ := hev y f₁ b f' (hP.of_input hid hn (by omega) hy) hf₁ hb
    refine ⟨⟨fun i => if i = 0 then x else y, fun i => if i = 0 then a else b, fun i hi => ?_,
      fun i hi => ?_, ?_⟩, hbare'.trans hbare, hf'⟩
    · rcases (by omega : i = 0 ∨ i = 1) with rfl | rfl
      · exact hx
      · exact hy
    · rcases (by omega : i = 0 ∨ i = 1) with rfl | rfl
      · exact hval
      · exact hval'.of_bare hbare
    · rwa [result?_of_bare (hbare'.trans hbare).symm]

theorem evalConforming_faithful (hP : ClosedUnderInputs g P) (bound : Nat) :
    Faithful g heap P (evalConforming g heap bound) := by
  induction bound with
  | zero =>
    intro id f v f' _ _ h
    simp [evalConforming, stateT_throw_ok] at h
  | succ bound ih =>
    intro id f v f' hid hf h
    simp only [evalConforming, stateT_bind_ok, stateT_get_ok] at h
    obtain ⟨_, _, ⟨rfl, rfl⟩, h⟩ := h
    cases hc : f.cache.get? id with
    | some w =>
      simp only [hc, stateT_pure_ok] at h
      obtain ⟨rfl, rfl⟩ := h
      exact ⟨(hf id w hc).2, rfl, hf⟩
    | none =>
      simp only [hc, stateT_bind_ok, stateT_lift_ok, Graph.node_eq_ok_iff] at h
      obtain ⟨n, _, ⟨hn, rfl⟩, w, f₁, hw, h⟩ := h
      obtain ⟨⟨ins, vals, hins, hvals, hres⟩, hbare, hf₁⟩ := compute_faithful hP ih hf hid hn hw
      split at h
      next hcon =>
        simp only [stateT_bind_ok, stateT_modify_ok, stateT_pure_ok] at h
        obtain ⟨_, _, rfl, rfl, rfl⟩ := h
        have hval : Eval g heap f id w := by
          refine .intro ins vals hn hins hvals hres fun hpi => ?_
          exact Stamp.admits_iff.mp (hcon.resolve_left hpi)
        exact ⟨hval, hbare, hf₁.insert hid (hval.of_bare hbare.symm)⟩
      next => simp [stateT_throw_ok] at h

theorem evalCached_yields (hP : ClosedUnderInputs g P) {k bound : Nat} (hid : P id)
    (h : Eval.Within g heap f k id v) (hk : k ≤ bound) :
    Yields g heap P f (evalCached g heap bound id) v := by
  induction k generalizing id v bound with
  | zero => exact h.elim
  | succ k ih =>
    obtain ⟨bound, rfl⟩ : ∃ b, bound = b + 1 := ⟨bound - 1, by omega⟩
    have heval := h.eval
    obtain ⟨n, ins, vals, hn, hins, hvals, hv, hc⟩ := h
    have hfind : ∀ i < n.kind.arity, Yields g heap P f (evalCached g heap bound (ins i)) (vals i) :=
      fun i hi => ih (hP.of_input hid hn hi (hins i hi)) (hvals i hi) (by omega)
    intro f₁ hbare hf₁
    cases hcache : f₁.cache.get? id with
    | some w =>
      obtain rfl := ((hf₁ id w hcache).2.of_bare hbare).unique heval
      refine ⟨f₁, ?_, hbare, hf₁⟩
      simp only [evalCached, stateT_bind_ok, stateT_get_ok]
      exact ⟨f₁, f₁, ⟨rfl, rfl⟩, by simp [hcache, stateT_pure_ok]⟩
    | none =>
      have hcompute : ∃ f₂, compute g heap (evalCached g heap bound) id n f₁ = .ok (v, f₂) ∧
          f₂.bare = f.bare ∧ CacheSound g heap P f₂ := by
        rcases arity_cases n.kind with ha | ha | ha
        · exact ⟨f₁, (compute_zero ha vals).mpr ⟨by rwa [result?_of_bare hbare], rfl⟩, hbare, hf₁⟩
        · obtain ⟨f₂, hev, hb₂, hf₂⟩ := hfind 0 (by omega) f₁ hbare hf₁
          refine ⟨f₂, (compute_one ha).mpr ⟨ins 0, vals 0, hins 0 (by omega), hev, ?_⟩, hb₂, hf₂⟩
          rw [result?_of_bare hb₂, ← hv]
          exact Node.result?_congr fun i hi => by
            obtain rfl : i = 0 := by omega
            rfl
        · obtain ⟨f₂, hev, hb₂, hf₂⟩ := hfind 0 (by omega) f₁ hbare hf₁
          obtain ⟨f₃, hev', hb₃, hf₃⟩ := hfind 1 (by omega) f₂ hb₂ hf₂
          refine ⟨f₃, (compute_two ha).mpr ⟨ins 0, ins 1, vals 0, vals 1, f₂, hins 0 (by omega),
            hins 1 (by omega), hev, hev', ?_⟩, hb₃, hf₃⟩
          rw [result?_of_bare hb₃, ← hv]
          exact Node.result?_congr fun i hi => by
            rcases (by omega : i = 0 ∨ i = 1) with rfl | rfl <;> rfl
      obtain ⟨f₂, hcomp, hb₂, hf₂⟩ := hcompute
      refine ⟨{ f₂ with cache := f₂.cache.insert id v }, ?_, hb₂,
        hf₂.insert hid (heval.of_bare hb₂.symm)⟩
      simp only [evalCached, stateT_bind_ok, stateT_get_ok]
      refine ⟨f₁, f₁, ⟨rfl, rfl⟩, ?_⟩
      simp only [hcache, stateT_bind_ok, stateT_lift_ok, Graph.node_eq_ok_iff, stateT_modify_ok, stateT_pure_ok]
      exact ⟨n, f₁, ⟨hn, rfl⟩, v, f₂, hcomp, (), _, rfl, rfl, rfl⟩

theorem evalCached_yields_of_eval (hP : ClosedUnderInputs g P) (hid : P id) (h : Eval g heap f id v) :
    Yields g heap P f (evalCached g heap (g.capacity + 1) id) v :=
  evalCached_yields hP hid h.within_capacity (Nat.le_succ _)

theorem recordEpoch_ok {kind : Kind} : recordEpoch id kind f = .ok ((), f') ↔
    f' = { f with epoch := f'.epoch, epochs := f'.epochs } ∧
    f'.epoch = (if kind = .invoke then f.epoch + 1 else f.epoch) ∧
    f'.epochs = (if kind.killsMemory = true then f.epochs.insert id f'.epoch else f.epochs) := by
  rw [recordEpoch, stateT_modify_ok]
  constructor
  · rintro rfl
    exact ⟨rfl, rfl, rfl⟩
  · rintro ⟨hf, hepoch, hepochs⟩
    rw [hf, hepochs, hepoch]

/-- Taking phis and memory over when control comes to a node. -/
def entry (g : Graph) (ev : Evaluator) (previous : Option NodeId) (id : NodeId) (n : Node) : Exec Unit := do
  if n.kind.isMerge then enterMerge g ev id previous
  recordEpoch id n.kind

/-- Testing the guards of a node that was entered, and leaving it. -/
def proceed (g : Graph) (ev : Evaluator) (id : NodeId) (n : Node) : Exec (Outcome ⊕ NodeId) := do
  let trap ← if n.kind.isAnchor then failingGuard? g ev (g.guardsAt id) else pure none
  match trap with
  | some reason => return .inl (.trapped reason)
  | none => leave ev id n

theorem step_eq (previous : Option NodeId) : step g ev previous id =
    (do
      let n ← g.node id
      entry g ev previous id n
      proceed g ev id n) := by
  unfold step entry proceed
  congr 1
  funext n
  cases n.kind.isMerge with
  | false => rfl
  | true => exact (bind_assoc ..).symm

theorem step_ok {previous : Option NodeId} {r : Outcome ⊕ NodeId} :
    step g ev previous id f = .ok (r, f') ↔ ∃ n f₁, g.get? id = some n ∧
      entry g ev previous id n f = .ok ((), f₁) ∧ proceed g ev id n f₁ = .ok (r, f') := by
  rw [step_eq]
  simp only [stateT_bind_ok, stateT_lift_ok, Graph.node_eq_ok_iff]
  constructor
  · rintro ⟨n, _, ⟨hn, rfl⟩, _, f₁, he, hp⟩
    exact ⟨n, f₁, hn, he, hp⟩
  · rintro ⟨n, f₁, hn, he, hp⟩
    exact ⟨n, f, ⟨hn, rfl⟩, (), f₁, he, hp⟩

end Exec

namespace Graph

variable {g : Graph} {heap : Heap} {ev : Evaluator} {limit : Nat} {args : List Value} {o : Outcome}

theorem runWith_ok : g.runWith ev limit args = .ok o ↔
    ∃ f, Exec.steps g ev limit none start { args } = .ok (some o, f) := by
  unfold runWith
  simp only [StateT.run', bind, Except.bind, Functor.map, Except.map]
  rcases Exec.steps g ev limit none start { args } with _ | ⟨_ | _, _⟩ <;>
    simp [pure, Except.pure, throw, throwThe, MonadExceptOf.throw]

end Graph

end GuardElision
