import GuardElision.Proofs.Execution.Cache
import GuardElision.Proofs.Graph.Straight

/-!
The cache of a run is transparent: from a merge down to a call there is one way, and what is evaluated on it
cannot look at the memory state of the call. So a new epoch never touches what the cache holds.
-/

namespace GuardElision

variable {g : Graph} {heap : Heap} {id next : NodeId} {n : Node} {f f' : Frame}

/-- What is found on the way to a call does not look at the memory state of the call, once that has an
epoch. -/
def Clear (g : Graph) (f : Frame) : Prop :=
  ∀ i n e, g.get? i = some n → n.kind.isMerge = false → f.epochs.get? i ≠ none → g.AskedAbove i e → ¬g.LooksAt e i

/-- Control has come to a node and its epoch is recorded: the cache holds fresh values, of what was
evaluated above the node since the last merge and of what that was found from. -/
structure Entered (g : Graph) (heap : Heap) (id : NodeId) (f : Frame) : Prop where
  fresh : CacheFresh g heap (fun x => ∃ e, g.AskedAbove id e ∧ Relation.ReflTransGen g.Takes e x) f
  full : ∀ e, g.AskedAbove id e → ∃ v, f.cache.get? e = some v
  clear : Clear g f

/-- Control is about to come to a node. -/
structure Ready (g : Graph) (heap : Heap) (id : NodeId) (f : Frame) : Prop where
  control : ∀ n, g.get? id = some n → n.kind.isControl = true
  fresh : CacheFresh g heap (fun _ => True) f
  straight : ∀ n, g.get? id = some n → n.kind.isMerge = false → Entered g heap id f
  clear : Clear g f

theorem Clear.of_epochs (h : Clear g f) (he : f'.epochs = f.epochs) : Clear g f' := by
  intro i n e hn hm hi
  exact h i n e hn hm (he ▸ hi)

namespace Entered

/-- A call that is about to begin a new epoch is not looked at by what was evaluated above it. -/
theorem not_looksAt (h : Entered g heap id f) (hn : g.get? id = some n) (hm : n.kind.isMerge = false)
    {e : NodeId} (he : g.AskedAbove id e) : ¬g.LooksAt e id := by
  intro hlooks
  cases hepoch : f.epochs.get? id with
  | some _ => exact h.clear id n e hn hm (by simp [hepoch]) he hlooks
  | none =>
    obtain ⟨v, hv⟩ := h.full e he
    obtain ⟨_, hrecorded⟩ := Exec.recorded_of_evalFresh (h.fresh e v hv).2 hlooks
    have hnone : f.bare.epochs.get? id = none := hepoch
    simp [hnone] at hrecorded

theorem record (h : Entered g heap id f) (hn : g.get? id = some n) (hm : n.kind.isMerge = false)
    (hf : f' = { f with epoch := f'.epoch, epochs := f'.epochs })
    (hepochs : ∀ i, i ≠ id → f'.epochs.get? i = f.epochs.get? i) : Entered g heap id f' := by
  have hcache : f'.cache = f.cache := by rw [hf]
  refine ⟨fun x v hx => ?_, fun e he => hcache ▸ h.full e he, fun i k e hk hmerge hi he => ?_⟩
  · obtain ⟨⟨e, he, hxe⟩, hv⟩ := h.fresh x v (hcache ▸ hx)
    refine ⟨⟨e, he, hxe⟩, Exec.evalFresh_of_epochs ?_ ?_ (fun m hlooks => ?_) hv⟩
    · rw [hf]; rfl
    · rw [hf]; rfl
    · refine (hepochs m ?_).symm
      rintro rfl
      exact h.not_looksAt hn hm he (.of_takes hxe hlooks)
  · by_cases hid : i = id
    · cases hid
      exact h.not_looksAt hk hmerge he
    · exact h.clear i k e hk hmerge (hepochs i hid ▸ hi) he

theorem leave (haccepted : g.checkStructure = .ok ()) (h : Entered g heap id f) (hn : g.get? id = some n)
    (hk : n.kind.isControl = true) (hnext : next ∈ n.successors)
    (hfills : Fills g heap (g.AskedBy id) f f')
    (hasks : ∀ e, g.Asks id e → ∃ v, f'.cache.get? e = some v) : Ready g heap next f' := by
  obtain ⟨m, hm, hcontrol, hbefore⟩ := Graph.before_of_mem_successors haccepted hn hk hnext
  have hclear : Clear g f' := h.clear.of_epochs (Frame.bare_eq_iff.mp hfills.bare).2.2.1
  refine ⟨fun m' hm' => ?_, hfills.fresh.imp fun _ _ => trivial, fun m' hm' hmerge => ?_, hclear⟩
  · cases hm.symm.trans hm'
    exact hcontrol
  · cases hm.symm.trans hm'
    have hb := hbefore hmerge
    refine ⟨hfills.fresh.imp ?_, fun e he => ?_, hclear⟩
    · rintro x ⟨e, he, hx⟩
      refine ⟨e, ?_, hx⟩
      rcases he with ⟨d, hd, he⟩ | he
      · exact ⟨d, hd.tail hb, he⟩
      · exact ⟨id, .single hb, he⟩
    · rcases he.cases haccepted hb with he | he
      · obtain ⟨v, hv⟩ := h.full e he
        exact hfills.kept e v hv
      · exact hasks e he

end Entered

namespace Exec

section

variable (haccepted : g.checkStructure = .ok ()) (hacyclic : ∀ x, ¬Relation.TransGen g.Computes x x)

include haccepted hacyclic

theorem eval_mirrors {P : NodeId → Prop} (hP : ClosedUnderTakes g P) (hid : P id) (hf : CacheFresh g heap P f) :
    Mirrors (fun v f' => Fills g heap P f f' ∧ f'.cache.get? id = some v) (evalCached g heap (g.capacity + 1) id f)
      (evalFresh g heap (g.capacity + 1) id f.bare) :=
  evalCached_mirrors hacyclic (Graph.inputsLive_of_checkStructure haccepted) hP hid hf
    (Nat.lt_succ_of_le (g.height_le_capacity id))

theorem evalBool_mirrors {P : NodeId → Prop} (hP : ClosedUnderTakes g P) (hid : P id) (hf : CacheFresh g heap P f) :
    Mirrors (fun _ f' => Fills g heap P f f' ∧ ∃ v, f'.cache.get? id = some v)
      (evalBool (evalCached g heap (g.capacity + 1)) id f) (evalBool (evalFresh g heap (g.capacity + 1)) id f.bare) := by
  refine .bind (eval_mirrors haccepted hacyclic hP hid hf) fun v f₁ h₁ => ?_
  cases v with
  | bool b => exact .pure ⟨h₁.1, _, h₁.2⟩
  | int | null | ref => exact .throw _

theorem enterMerge_mirrors (hf : CacheFresh g heap (fun _ => True) f) (previous : Option NodeId) :
    Mirrors (fun _ f' => f'.cache = .empty ∧ f'.epochs = f.epochs)
      (enterMerge g (evalCached g heap (g.capacity + 1)) id previous f)
      (enterMerge g (evalFresh g heap (g.capacity + 1)) id previous f.bare) := by
  have hclosed : ClosedUnderTakes g fun _ => True := fun _ _ _ _ => trivial
  refine .bind (.lift _) ?_
  rintro source _ ⟨_, rfl⟩
  refine .bind (.lift _) ?_
  rintro n _ ⟨_, rfl⟩
  refine .bind (.lift _) ?_
  rintro index _ ⟨_, rfl⟩
  refine .bind (Mirrors.mapM (P := Fills g heap (fun _ => True) _) (fun phi _ f₁ h₁ => ?_) (.refl hf)) fun incoming f₁ h₁ => ?_
  · refine .bind (.lift _) ?_
    rintro p _ ⟨_, rfl⟩
    refine .bind (.lift _) ?_
    rintro input _ ⟨_, rfl⟩
    refine .bind (eval_mirrors haccepted hacyclic hclosed trivial h₁.fresh) fun v f₂ h₂ => ?_
    exact .pure (h₁.trans h₂.1)
  · refine .done ⟨rfl, ?_⟩
    exact (Frame.bare_eq_iff.mp h₁.bare).2.2.1

theorem entry_mirrors (h : Ready g heap id f) (hn : g.get? id = some n) (previous : Option NodeId) :
    Mirrors (fun _ => Entered g heap id) (entry g (evalCached g heap (g.capacity + 1)) previous id n f)
      (entry g (evalFresh g heap (g.capacity + 1)) previous id n f.bare) := by
  have hrecord : ∀ f : Frame, ∃ f', recordEpoch id n.kind f = .ok ((), f') ∧
      recordEpoch id n.kind f.bare = .ok ((), f'.bare) ∧ f' = { f with epoch := f'.epoch, epochs := f'.epochs } ∧
      ∀ i, i ≠ id → f'.epochs.get? i = f.epochs.get? i := by
    intro f
    obtain ⟨⟨_, f'⟩, hok⟩ : ∃ r, recordEpoch id n.kind f = .ok r := ⟨_, rfl⟩
    obtain ⟨hf', _, hepochs⟩ := recordEpoch_ok.mp hok
    refine ⟨f', hok, ?_, hf', fun i hi => ?_⟩
    · cases hok
      rfl
    · rw [hepochs]
      split
      · rw [IdMap.get?_insert, if_neg hi]
      · rfl
  unfold entry
  by_cases hm : n.kind.isMerge = true
  · simp only [hm, ↓reduceIte]
    refine .bind (enterMerge_mirrors haccepted hacyclic h.fresh previous) fun _ f₁ h₁ => ?_
    obtain ⟨f₂, hcached, hfresh, hf₂, hepochs⟩ := hrecord f₁
    rw [hcached, hfresh]
    have hcache : f₂.cache = .empty := by rw [hf₂]; exact h₁.1
    refine .done ⟨.empty hcache, fun e he => absurd he (Graph.not_askedAbove_of_merge hn hm), ?_⟩
    intro i k e hk hmerge hi he
    have hid : i ≠ id := by
      rintro rfl
      cases hn.symm.trans hk
      simp [hm] at hmerge
    exact h.clear i k e hk hmerge (by rwa [hepochs i hid, h₁.2] at hi) he
  · simp only [hm, Bool.false_eq_true, ↓reduceIte]
    obtain ⟨f', hcached, hfresh, hf', hepochs⟩ := hrecord f
    have hmerge : n.kind.isMerge = false := by simpa using hm
    rw [hcached, hfresh]
    exact .done ((h.straight n hn hmerge).record hn hmerge hf' hepochs)

theorem failingGuard?_mirrors {P : NodeId → Prop} (hP : ClosedUnderTakes g P) {guards : List NodeId}
    (hguards : ∀ q ∈ guards, ∀ k, g.get? q = some k → k.kind.isGuard = true ∧ ∀ e, k.inputs.head? = some e → P e)
    (hf : CacheFresh g heap P f) :
    Mirrors (fun r f' => Fills g heap P f f' ∧ (r = none → ∀ q ∈ guards, ∀ k e, g.get? q = some k →
        k.inputs.head? = some e → ∃ v, f'.cache.get? e = some v))
      (failingGuard? g (evalCached g heap (g.capacity + 1)) guards f)
      (failingGuard? g (evalFresh g heap (g.capacity + 1)) guards f.bare) := by
  induction guards generalizing f with
  | nil => exact .pure ⟨.refl hf, fun _ q hq => absurd hq (List.not_mem_nil)⟩
  | cons q rest ih =>
    obtain ⟨hq, hrest⟩ := List.forall_mem_cons.mp hguards
    refine .bind (.lift _) ?_
    rintro k _ ⟨hk, rfl⟩
    have hget := Graph.node_eq_ok_iff.mp hk
    obtain ⟨hguard, hcond⟩ := hq k hget
    cases hkind : k.kind with
    | guard negated reason =>
      refine .bind (.lift _) ?_
      rintro e _ ⟨he, rfl⟩
      have hhead := expect_ok.mp he
      refine .bind (evalBool_mirrors haccepted hacyclic hP (hcond e hhead) hf) fun truth f₁ h₁ => ?_
      by_cases htrap : truth = negated
      · simp only [htrap, ↓reduceIte]
        exact .pure ⟨h₁.1, by simp⟩
      · simp only [htrap, ↓reduceIte]
        refine (ih hrest h₁.1.fresh).imp fun r f₂ h₂ => ⟨h₁.1.trans h₂.1, fun hr p hp k' e' hk' he' => ?_⟩
        rcases List.mem_cons.mp hp with rfl | hp
        · cases hget.symm.trans hk'
          cases hhead.symm.trans he'
          obtain ⟨v, hv⟩ := h₁.2
          exact h₂.1.kept e v hv
        · exact h₂.2 hr p hp k' e' hk' he'
    | _ => simp [hkind, Kind.isGuard] at hguard

omit hacyclic in
theorem follow_mirrors (h : Entered g heap id f) (hn : g.get? id = some n) (hk : n.kind.isControl = true)
    (hfills : Fills g heap (g.AskedBy id) f f') (hasks : ∀ e, g.Asks id e → ∃ v, f'.cache.get? e = some v)
    {target : Option NodeId} (htarget : ∀ s, target = some s → s ∈ n.successors) :
    Mirrors (fun r f' => ∀ next, r = .inr next → Ready g heap next f') (follow id target f') (follow id target f'.bare) := by
  cases target with
  | none => exact .throw _
  | some s =>
    refine .pure ?_
    rintro next ⟨⟩
    exact h.leave haccepted hn hk (htarget s rfl) hfills hasks

theorem leave_mirrors (h : Entered g heap id f) (hn : g.get? id = some n) (hk : n.kind.isControl = true)
    (hfills : Fills g heap (g.AskedBy id) f f')
    (hguards : n.kind.isAnchor = true → ∀ q ∈ g.guardsAt id, ∀ k e, g.get? q = some k → k.inputs.head? = some e →
      ∃ v, f'.cache.get? e = some v) :
    Mirrors (fun r f' => ∀ next, r = .inr next → Ready g heap next f')
      (leave (evalCached g heap (g.capacity + 1)) id n f') (leave (evalFresh g heap (g.capacity + 1)) id n f'.bare) := by
  have hasks : n.kind ≠ .branch → ∀ e, g.Asks id e → ∃ v, f'.cache.get? e = some v := by
    rintro hbranch e (⟨n', hn', hkind, _⟩ | ⟨n', q, k, hn', hanchor, hq, hqk, he⟩)
    · cases hn.symm.trans hn'
      exact absurd hkind hbranch
    · cases hn.symm.trans hn'
      exact hguards hanchor q hq k e hqk he
  unfold leave
  cases hkind : n.kind with
  | ret =>
    cases hhead : n.inputs.head? with
    | none => exact .pure (by simp)
    | some e =>
      have hclosed : ClosedUnderTakes g fun _ => True := fun _ _ _ _ => trivial
      refine .bind (eval_mirrors haccepted hacyclic hclosed trivial (hfills.fresh.imp fun _ _ => trivial)) ?_
      exact fun v f₁ _ => .pure (by simp)
  | deoptimize reason => exact .pure (by simp)
  | branch =>
    refine .bind (.lift _) ?_
    rintro e _ ⟨he, rfl⟩
    have hhead := expect_ok.mp he
    have hask : g.Asks id e := Or.inl ⟨n, hn, hkind, hhead⟩
    refine .bind (evalBool_mirrors haccepted hacyclic (g.askedBy_closed id) (.of_asks hask) hfills.fresh) fun truth f₁ h₁ => ?_
    refine follow_mirrors haccepted h hn hk (hfills.trans h₁.1) ?_ ?_
    · rintro e' (⟨n', hn', _, he'⟩ | ⟨n', q, k, hn', hanchor, _⟩)
      · cases hn.symm.trans hn'
        cases hhead.symm.trans he'
        exact h₁.2
      · cases hn.symm.trans hn'
        simp [hkind, Kind.isAnchor] at hanchor
    · intro s hs
      split at hs <;> exact List.mem_of_getElem? hs
  | start | begin | merge | loopBegin | loopEnd | invoke =>
    exact follow_mirrors haccepted h hn hk hfills (hasks (by simp [hkind])) fun s hs => List.mem_of_head? hs
  | _ => simp [hkind, Kind.isControl] at hk

theorem proceed_mirrors (h : Entered g heap id f) (hn : g.get? id = some n) (hk : n.kind.isControl = true) :
    Mirrors (fun r f' => ∀ next, r = .inr next → Ready g heap next f')
      (proceed g (evalCached g heap (g.capacity + 1)) id n f) (proceed g (evalFresh g heap (g.capacity + 1)) id n f.bare) := by
  have hfresh : CacheFresh g heap (g.AskedBy id) f := h.fresh.imp fun x ⟨e, he, hx⟩ => ⟨e, Or.inl he, hx⟩
  unfold proceed
  by_cases hanchor : n.kind.isAnchor = true
  · simp only [hanchor, ↓reduceIte]
    refine .bind (failingGuard?_mirrors haccepted hacyclic (g.askedBy_closed id) (fun q hq k hqk => ?_) hfresh)
      fun trap f₁ h₁ => ?_
    · obtain ⟨k', hk', hguard, _⟩ := Graph.mem_guardsAt.mp hq
      cases hqk.symm.trans hk'
      exact ⟨hguard, fun e he => .of_asks (Or.inr ⟨n, q, k, hn, hanchor, hq, hqk, he⟩)⟩
    · cases trap with
      | some reason => exact .pure (by simp)
      | none => exact leave_mirrors haccepted hacyclic h hn hk h₁.1 fun _ => h₁.2 rfl
  · simp only [hanchor, Bool.false_eq_true, ↓reduceIte, pure_bind]
    exact leave_mirrors haccepted hacyclic h hn hk (.refl hfresh) fun h => absurd h hanchor

theorem step_mirrors (h : Ready g heap id f) (previous : Option NodeId) :
    Mirrors (fun r f' => ∀ next, r = .inr next → Ready g heap next f')
      (step g (evalCached g heap (g.capacity + 1)) previous id f)
      (step g (evalFresh g heap (g.capacity + 1)) previous id f.bare) := by
  rw [step_eq, step_eq]
  refine .bind (.lift _) ?_
  rintro n _ ⟨hnode, rfl⟩
  have hn := Graph.node_eq_ok_iff.mp hnode
  refine .bind (entry_mirrors haccepted hacyclic h hn previous) fun _ f₁ h₁ => ?_
  exact proceed_mirrors haccepted hacyclic h₁ hn (h.control n hn)

theorem steps_mirrors (h : Ready g heap id f) (limit : Nat) (previous : Option NodeId) :
    Mirrors (fun _ _ => True) (steps g (evalCached g heap (g.capacity + 1)) limit previous id f)
      (steps g (evalFresh g heap (g.capacity + 1)) limit previous id f.bare) := by
  induction limit generalizing id f previous with
  | zero => exact .pure trivial
  | succ limit ih =>
    refine .bind (step_mirrors haccepted hacyclic h previous) fun r f₁ h₁ => ?_
    cases r with
    | inl outcome => exact .pure trivial
    | inr next => exact ih (h₁ next rfl) (some id)

end

theorem steps_of_no_control (hnone : ∀ c n, g.get? c = some n → n.kind.isControl = false) (ev ev' : Evaluator)
    (limit : Nat) (previous : Option NodeId) (id : NodeId) : steps g ev limit previous id = steps g ev' limit previous id := by
  induction limit generalizing previous id with
  | zero => rfl
  | succ limit ih =>
    have hstep : step g ev previous id = step g ev' previous id := by
      rw [step_eq, step_eq]
      cases hn : g.get? id with
      | none => rw [node_bind_none hn, node_bind_none hn]
      | some n =>
        rw [node_bind hn, node_bind hn]
        have hk := hnone id n hn
        have hmerge : n.kind.isMerge = false := Bool.eq_false_iff.mpr fun h => by simp [Kind.isControl_of_isMerge h] at hk
        have hanchor : n.kind.isAnchor = false := Bool.eq_false_iff.mpr fun h => by simp [Kind.isControl_of_isAnchor h] at hk
        have hleave : leave ev id n = leave ev' id n := by
          unfold leave
          cases hkind : n.kind with
          | ret | branch => simp [hkind, Kind.isControl] at hk
          | _ => rfl
        simp only [entry, proceed, hmerge, hanchor, hleave, Bool.false_eq_true, ↓reduceIte]
    rw [steps, steps, hstep]
    refine bind_congr fun r => ?_
    cases r with
    | inl outcome => rfl
    | inr next => exact ih (some id) next

end Exec

theorem Ready.start (haccepted : g.checkStructure = .ok ())
    (hreach : ∀ c n, g.get? c = some n → n.kind.isControl = true → g.Reach c)
    (hcontrol : ∀ n, g.get? Graph.start = some n → n.kind.isControl = true) (args : List Value) :
    Ready g heap Graph.start { args } := by
  have hclear : Clear g { args } := by
    intro i k e _ _ hi
    exact absurd (IdMap.get?_empty i) hi
  refine ⟨hcontrol, .empty rfl, fun n hn _ => ⟨.empty rfl, ?_, hclear⟩, hclear⟩
  rintro e ⟨d, hd, _⟩
  obtain ⟨b, _, hb⟩ := Relation.TransGen.tail'_iff.mp hd
  exact absurd hb (Graph.not_before_start haccepted hreach)

namespace Graph

/-- A run finds the same outcome, or fails with the same fault, whether it keeps values in a cache or
evaluates every node afresh each time it is needed. -/
theorem run_eq_runFresh (haccepted : g.checkStructure = .ok ())
    (hreach : ∀ c n, g.get? c = some n → n.kind.isControl = true → g.Reach c)
    (hacyclic : ∀ x, ¬Relation.TransGen g.Computes x x) (heap : Heap) (limit : Nat) (args : List Value) :
    g.run heap limit args = g.runFresh heap limit args := by
  have hsteps : (Exec.steps g (Exec.evalCached g heap (g.capacity + 1)) limit none start).run' { args } =
      (Exec.steps g (Exec.evalFresh g heap (g.capacity + 1)) limit none start).run' { args } := by
    by_cases hcontrol : ∀ n, g.get? start = some n → n.kind.isControl = true
    · have hready : Ready g heap start { args } := .start haccepted hreach hcontrol args
      exact (Exec.steps_mirrors haccepted hacyclic hready limit none).run'_eq
    · push Not at hcontrol
      obtain ⟨n, hn, hk⟩ := hcontrol
      rw [Exec.steps_of_no_control (no_control_of_start hreach hn (by simpa using hk))]
  unfold run runFresh runWith
  rw [hsteps]

/-- A loop that calls until a field has counted to two. Both reads of the field are found anew each time
round, the one at the call under an epoch that the call itself began. -/
theorem run_eq_runFresh_loop :
    let g : Graph :=
      ⟨#[{ kind := .start, successors := [5] }, { kind := .parameter 0, stamp := .object {} },
        { kind := .constant (.int 2), stamp := .int (.constant 2) },
        { kind := .read 0, inputs := [1], memory := some 5, stamp := .int .full },
        { kind := .compare .lt, inputs := [3, 2], stamp := .logic },
        { kind := .loopBegin, predecessors := [0, 10], successors := [6] },
        { kind := .branch, inputs := [4], predecessors := [5], successors := [7, 8] },
        { kind := .begin, predecessors := [6], successors := [9] },
        { kind := .begin, predecessors := [6], successors := [13] },
        { kind := .invoke, predecessors := [7], successors := [10] },
        { kind := .loopEnd, predecessors := [9], successors := [5] },
        { kind := .read 0, inputs := [1], memory := some 9, stamp := .int .full },
        { kind := .compare .le, inputs := [11, 2], stamp := .logic },
        { kind := .ret, inputs := [3], predecessors := [8] },
        { kind := .guard false .boundsCheck, inputs := [12], anchor := some 9 }], .root⟩
    g.checkStructure = .ok () ∧ g.checkPlacement = .ok () ∧
      g.run [⟨0, []⟩] 20 [.ref 0] = .ok (.returned (some (.int 2))) ∧
      g.run [⟨0, []⟩] 20 [.ref 0] = g.runFresh [⟨0, []⟩] 20 [.ref 0] := by
  intro g
  have haccepted : g.checkStructure = .ok () := by decide +kernel
  have hreach : ∀ c n, g.get? c = some n → n.kind.isControl = true → g.Reach c := by
    have hall : ∀ c < 15, g.isControl c = true → g.dominators.isReachable c = true := by decide +kernel
    intro c n hn hk
    exact (g.forwardFlow.dominators_isReachable start c).mp
      (hall c (lt_capacity hn) ((isControl_of_get? hn).trans hk))
  have hacyclic : ∀ x, ¬Relation.TransGen g.Computes x x := by
    have hall : ∀ x < 15, (g.get? x).all (fun n => n.inputs.all (· < x)) = true := by decide +kernel
    refine acyclic_of_lt fun x n y hn hy => ?_
    have hx := hall x (lt_capacity hn)
    rw [hn] at hx
    exact of_decide_eq_true (List.all_eq_true.mp hx y hy)
  exact ⟨haccepted, by decide +kernel, by decide +kernel, run_eq_runFresh haccepted hreach hacyclic _ _ _⟩

end Graph

end GuardElision
