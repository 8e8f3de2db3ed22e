import GuardElision.Proofs.Pipeline.Independence

namespace GuardElision

/-- Both contexts hold the same methods with the same graphs and outcomes. -/
def Context.SameMethods (c d : Context) : Prop :=
  ∀ m, c.graph? m = d.graph? m ∧ c.outcome? m = d.outcome? m

theorem Context.sameMethods_iff {c d : Context} : c.SameMethods d ↔ ∀ m, c.method m = d.method m := by
  simp [SameMethods, method]

namespace Pass

variable {σ : Type} {p : Pass σ} {c : Compilation σ}

/-- A pass that has nothing more to do: a further run over all methods reports no change, and so does
a run on any one of them. What has not failed, and is the pass's business, is run on in vain. -/
structure AtRest (p : Pass σ) (order : Context → List MethodId) (c : Compilation σ) : Prop where
  onAll : ∃ c', p.runOnce order c = .ok false c' ∧ c'.context.SameMethods c.context
  onOne : ∀ m, (p.runOn c m).1 = false ∧ (p.runOn c m).2.context.SameMethods c.context
  inVain : ∀ m g, c.context.graph? m = some g → c.context.isFailed m = false → p.applies m (some g) = true →
    ∃ w, p.run m { graph := g, state := c.state } = .ok false w ∧ w.graph = g

theorem local_of_kind (h : p = canonicalization ∨ ∃ config, p = elimination config) : p.Local := by
  rcases h with rfl | ⟨config, rfl⟩
  · exact canonicalization_local
  · exact elimination_local config

/-- The pass does nothing to any method. -/
def Rests (p : Pass σ) (c : Compilation σ) : Prop :=
  ∀ m, p.stepOn c.state m (c.context.method m) = (false, c.context.method m)

theorem Rests.congr {c' : Compilation σ} (h : p.Rests c) (hstate : c'.state = c.state)
    (hmethods : ∀ m, c'.context.method m = c.context.method m) : p.Rests c' := by
  intro m
  rw [hstate, hmethods]
  exact h m

theorem Rests.runOn (hp : p.Local) (h : p.Rests c) (m : MethodId) :
    (p.runOn c m).1 = false ∧ (p.runOn c m).2.state = c.state ∧
      ∀ k, (p.runOn c m).2.context.method k = c.context.method k := by
  obtain ⟨hchanged, hstate, hmethods⟩ := runOn_spec hp c m
  rw [h m] at hchanged hmethods
  refine ⟨hchanged, hstate, fun k => (hmethods k).trans ?_⟩
  split
  next hk => rw [hk]
  next => rfl

theorem Rests.runOnAll (hp : p.Local) (h : p.Rests c) (order : List MethodId) :
    (p.runOnAll order c).1 = false ∧ (p.runOnAll order c).2.state = c.state ∧
      ∀ k, (p.runOnAll order c).2.context.method k = c.context.method k := by
  unfold Pass.runOnAll
  induction order generalizing c with
  | nil => exact ⟨rfl, rfl, fun _ => rfl⟩
  | cons m rest ih =>
    obtain ⟨hchanged, hstate, hmethods⟩ := h.runOn hp m
    obtain ⟨hrest, hstate', hmethods'⟩ := ih (h.congr hstate hmethods)
    rw [List.foldl_cons]
    dsimp only
    rw [hchanged, Bool.false_or]
    exact ⟨hrest, hstate'.trans hstate, fun k => (hmethods' k).trans (hmethods k)⟩

theorem Rests.atRest (hp : p.Local) (h : p.Rests c) (order : Context → List MethodId) : p.AtRest order c := by
  refine ⟨?_, fun m => ?_, fun m g hg hfailed happlies => ?_⟩
  · obtain ⟨hchanged, -, hmethods⟩ := h.runOnAll hp (order c.context)
    refine ⟨(p.runOnAll (order c.context) c).2, ?_, Context.sameMethods_iff.mpr hmethods⟩
    refine Attempt.bind_ok.mpr ⟨(), c, onState_of_eq (hp.setUp_eq _), ?_⟩
    refine Attempt.bind_ok.mpr ⟨false, (p.runOnAll (order c.context) c).2, ?_, ?_⟩
    · rw [← hchanged]
      rfl
    · exact Attempt.bind_ok.mpr ⟨(), _, onState_of_eq (hp.tearDown_eq _), rfl⟩
  · obtain ⟨hchanged, -, hmethods⟩ := h.runOn hp m
    exact ⟨hchanged, Context.sameMethods_iff.mpr hmethods⟩
  · have htakes : p.takes? m (c.context.method m) = some g := by
      have hrun : (c.context.isFailed m || !p.applies m (c.context.graph? m)) = false := by
        rw [hfailed, hg, happlies]
        rfl
      exact (if_neg (by rw [Bool.not_eq_true]; exact hrun)).trans hg
    rcases stepOn_eq_false hp (h m) with ⟨hnone, -⟩ | ⟨g', w, hsome, hrun, hgraph, -⟩ | ⟨g', f, -, hfault⟩
    · cases htakes.symm.trans hnone
    · obtain rfl := Option.some.inj (htakes.symm.trans hsome)
      exact ⟨w, hrun, hgraph⟩
    · rw [hfault, takes?_of_failed] at htakes
      cases htakes

end Pass

namespace Schedule

variable {σ : Type} {s : Schedule σ}

/-- After an iteration without a change every pass rests. -/
theorem rests_of_iterate (hlocal : ∀ p ∈ s.passes, p.Local) (horder : ∀ c, (s.order c).Perm c.methodIds)
    (hrepeats : 1 ≤ s.maxRepeats) {c c' : Compilation σ} (h : s.iterate s.passes c = .ok false c') :
    ∀ p ∈ s.passes, p.Rests c' := by
  obtain ⟨b, c₁, hrun, hstate, hmethods⟩ := iterate_actsBy hlocal horder c.state c rfl
  obtain ⟨rfl, rfl⟩ := EStateM.Result.ok.inj (hrun.symm.trans h)
  intro p hp m
  obtain ⟨hchanged, hmethod⟩ := hmethods m
  have hiteration : s.iterationOn s.passes c.state m (c.context.method m) = (false, c₁.context.method m) :=
    Prod.ext (by simpa using hchanged) hmethod.symm
  have hrest := rest_of_inTurn (fun f hf => ?_) (fun f hf f' hf' => ?_) hiteration _ (List.mem_map_of_mem hp)
  · obtain ⟨n, hn⟩ : ∃ n, s.maxRepeats = n + 1 := ⟨s.maxRepeats - 1, by omega⟩
    rw [hn] at hrest
    rw [hstate]
    exact untilRest_succ_eq_false.mp hrest
  · obtain ⟨q, hq, rfl⟩ := List.mem_map.mp hf
    exact comesToRest_untilRest (Pass.comesToRest_stepOn (hlocal q hq) c.state m) s.maxRepeats
  · obtain ⟨q, hq, rfl⟩ := List.mem_map.mp hf
    obtain ⟨q', hq', rfl⟩ := List.mem_map.mp hf'
    exact keepsRest_untilRest (Pass.keepsRest_stepOn (hlocal q hq) (hlocal q' hq') c.state m) s.maxRepeats

theorem rests_of_iterations (hlocal : ∀ p ∈ s.passes, p.Local) (horder : ∀ c, (s.order c).Perm c.methodIds)
    (hrepeats : 1 ≤ s.maxRepeats) {limit stable n : Nat} {c c' : Compilation σ}
    (h : s.iterations limit stable c = .ok n c') (hn : n < limit) : ∀ p ∈ s.passes, p.Rests c' := by
  induction limit generalizing stable n c with
  | zero => exact absurd hn (Nat.not_lt_zero n)
  | succ limit ih =>
    obtain ⟨changed, c₁, hiterate, h⟩ := Attempt.bind_ok.mp h
    by_cases hstop : (!changed && decide (s.stableIterations ≤ if changed then 0 else stable + 1)) = true
    · have hchanged : changed = false := by simpa using (Bool.and_eq_true_iff.mp hstop).1
      rw [if_pos hstop] at h
      obtain ⟨-, rfl⟩ := Attempt.pure_ok.mp h
      rw [hchanged] at hiterate
      exact rests_of_iterate hlocal horder hrepeats hiterate
    · rw [if_neg hstop] at h
      obtain ⟨k, c₂, hrest, h⟩ := Attempt.bind_ok.mp h
      obtain ⟨rfl, rfl⟩ := Attempt.pure_ok.mp h
      exact ih hrest (Nat.lt_of_succ_lt_succ hn)

theorem run_of_rests (hlocal : ∀ p ∈ s.passes, p.Local) (horder : ∀ c, (s.order c).Perm c.methodIds)
    {c : Compilation σ} (hrests : ∀ p ∈ s.passes, p.Rests c) :
    ∃ n c', s.run c = .ok n c' ∧ c'.context.SameMethods c.context := by
  obtain ⟨n, c', hrun, hmethods⟩ := iterations_spec hlocal horder s.maxIterations 0 c
  refine ⟨n, c', hrun, Context.sameMethods_iff.mpr fun m => ?_⟩
  have hiteration : s.iterationOn s.passes c.state m (c.context.method m) = (false, c.context.method m) := by
    refine inTurn_of_rest fun f hf => ?_
    obtain ⟨p, hp, rfl⟩ := List.mem_map.mp hf
    exact untilRest_of_rest (hrests p hp m) s.maxRepeats
  rw [hmethods m, untilRest_of_rest hiteration]

/-- If a schedule stops before its last iteration, each of its passes has nothing more to do, on all
methods together and on any one of them, and a second run leaves every graph and every outcome as it
is. -/
theorem run_stops_at_rest (s : Schedule σ)
    (hpasses : ∀ p ∈ s.passes, p = .canonicalization ∨ ∃ config, p = .elimination config)
    (horder : ∀ c, (s.order c).Perm c.methodIds) (hrepeats : 1 ≤ s.maxRepeats) {c c' : Compilation σ} {n : Nat}
    (hrun : s.run c = .ok n c') (hearly : n < s.maxIterations) :
    (∀ p ∈ s.passes, p.AtRest s.order c') ∧
      ∃ n' c'', s.run c' = .ok n' c'' ∧ c''.context.SameMethods c'.context := by
  have hlocal : ∀ p ∈ s.passes, p.Local := fun p hp => Pass.local_of_kind (hpasses p hp)
  have hrests := rests_of_iterations hlocal horder hrepeats hrun hearly
  exact ⟨fun p hp => (hrests p hp).atRest (hlocal p hp) s.order, run_of_rests hlocal horder hrests⟩

/-- One method keeps a guard that nothing decides, and the elimination fails on the other. The schedule
stops after three of five iterations. -/
theorem run_stops_at_rest_guarded :
    let s : Schedule Unit := { passes := [.elimination {}, .canonicalization] }
    let guarded : Graph :=
      ⟨#[{ kind := .start, successors := [4] }, { kind := .logicConstant true }, { kind := .parameter 0 },
        { kind := .isNull, inputs := [2], stamp := .logic }, { kind := .ret, predecessors := [0] },
        { kind := .guard false .unreached, inputs := [1], anchor := some 0 },
        { kind := .guard false .unreached, inputs := [3], anchor := some 0 }], .root⟩
    let cyclic : Graph :=
      ⟨#[{ kind := .start, successors := [1] },
        { kind := .branch, predecessors := [0, 1], successors := [1, 1] }], .root⟩
    (∀ p ∈ s.passes, p = .canonicalization ∨ ∃ config, p = .elimination config) ∧
    (∀ c, (s.order c).Perm c.methodIds) ∧ 1 ≤ s.maxRepeats ∧ 3 < s.maxIterations ∧
    ∃ c', s.run ⟨.ofMethods [(0, guarded), (1, cyclic)], ()⟩ = .ok 3 c' ∧
      (∀ p ∈ s.passes, p.AtRest s.order c') ∧
      ∃ n' c'', s.run c' = .ok n' c'' ∧ c''.context.SameMethods c'.context := by
  intro s guarded cyclic
  have hpasses : ∀ p ∈ s.passes, p = .canonicalization ∨ ∃ config, p = .elimination config := by
    intro p hp
    rcases List.mem_pair.mp hp with rfl | rfl
    · exact .inr ⟨{}, rfl⟩
    · exact .inl rfl
  have horder : ∀ c, (s.order c).Perm c.methodIds := fun c => .refl _
  have hcount : s.run.result ⟨.ofMethods [(0, guarded), (1, cyclic)], ()⟩ = .ok 3 := by decide +kernel
  obtain ⟨c', hrun⟩ := Attempt.result_eq_ok.mp hcount
  have hrest := run_stops_at_rest s hpasses horder (by decide) hrun (by decide)
  exact ⟨hpasses, horder, by decide, by decide, c', hrun, hrest⟩

end Schedule

end GuardElision
