import GuardElision.Proofs.Pipeline.History
import GuardElision.Proofs.Pipeline.Quiet

namespace GuardElision

theorem MethodOutcome.isFailure_afterRun (changed : Bool) (o : Option MethodOutcome) :
    (afterRun changed o).isFailure = o.any (·.isFailure) := by
  rcases o with _ | _ | _ <;> rfl

namespace Context

variable {c : Context} {m : MethodId}

theorem isFailed_iff : c.isFailed m = true ↔ ∃ f, c.outcome? m = some (.unoptimized f) := by
  unfold isFailed
  rcases c.outcome? m with _ | _ | f <;> simp [MethodOutcome.isFailure]

theorem outcome?_markOptimized {f : Fault} (h : c.outcome? m = some (.unoptimized f)) (changed : Bool) :
    (c.markOptimized m changed).outcome? m = some (.unoptimized f) := by
  have hinsert : (c.markOptimized m changed).outcome? m = some (.afterRun changed (c.outcome? m)) :=
    (IdMap.get?_insert c.outcomes m m _).trans (if_pos rfl)
  rw [hinsert, h]
  rfl

/-- Nothing has been done to the methods yet. -/
structure Fresh (c : Context) : Prop where
  log : c.log = {}
  outcome? : ∀ m, c.outcome? m = none

theorem Fresh.isFailed (h : c.Fresh) (m : MethodId) : c.isFailed m = false := by
  unfold Context.isFailed
  rw [h.outcome? m]
  rfl

theorem Fresh.addMethod (h : c.Fresh) (m : MethodId) (g : Graph) : (c.addMethod m g).Fresh := by
  refine ⟨h.log, fun k => ?_⟩
  have hmethod := congrArg MethodState.outcome? (c.method_addMethod m k g)
  split at hmethod
  next => exact hmethod
  next => exact hmethod.trans (h.outcome? k)

theorem fresh_ofMethods (methods : List (MethodId × Graph)) : (ofMethods methods).Fresh := by
  suffices h : ∀ c : Context, c.Fresh → (methods.foldl (fun c method => c.addMethod method.1 method.2) c).Fresh from
    h {} ⟨rfl, fun _ => rfl⟩
  intro c hc
  induction methods generalizing c with
  | nil => exact hc
  | cons method rest ih => exact ih _ (hc.addMethod method.1 method.2)

end Context

namespace PassRun

variable {σ : Type} (r : PassRun σ) {changed : Bool} {f : Fault}

theorem isFailed_after_of_ne {m : MethodId} (hm : m ≠ r.method) :
    r.after.context.isFailed m = r.before.context.isFailed m := by
  have houtcome := congrArg MethodState.outcome? (r.method_after_of_ne hm)
  exact congrArg (·.any MethodOutcome.isFailure) houtcome

theorem isFailed_after_of_ok (h : r.result = .ok changed) (m : MethodId) :
    r.after.context.isFailed m = r.before.context.isFailed m := by
  by_cases hm : m = r.method
  · have houtcome := congrArg MethodState.outcome? (r.method_after_of_ok h m)
    rw [if_pos hm, ← hm] at houtcome
    have hfailed := congrArg (·.any MethodOutcome.isFailure) houtcome
    exact hfailed.trans (MethodOutcome.isFailure_afterRun _ _)
  · exact r.isFailed_after_of_ne hm

theorem isFailed_after_of_error (h : r.result = .error f) : r.after.context.isFailed r.method = true := by
  have houtcome := congrArg MethodState.outcome? (r.method_after_of_error h r.method)
  rw [if_pos rfl] at houtcome
  exact Context.isFailed_iff.mpr ⟨f, houtcome⟩

end PassRun

namespace Leads

variable {σ : Type} {c c' : Compilation σ} {runs earlier later : List (PassRun σ)} {r : PassRun σ} {m : MethodId}
  {f : Fault}

/-- A method that has failed is left alone. -/
theorem of_failed (h : Leads c runs c') (hf : c.context.outcome? m = some (.unoptimized f)) :
    c'.context.method m = c.context.method m ∧ ∀ r ∈ runs, r.method ≠ m := by
  induction h with
  | done hc => exact ⟨by rw [hc], nofun⟩
  | run r hc _ ih =>
    have hfailed : r.before.context.isFailed m = true := Context.isFailed_iff.mpr ⟨f, hc ▸ hf⟩
    have hne : r.method ≠ m := by
      rintro rfl
      rw [r.isFailed_before] at hfailed
      cases hfailed
    have hafter : r.after.context.method m = _ := (r.method_after_of_ne (Ne.symm hne)).trans (by rw [hc])
    obtain ⟨hmethod, hruns⟩ := ih ((congrArg MethodState.outcome? hafter).trans hf)
    exact ⟨hmethod.trans hafter, List.forall_mem_cons.mpr ⟨hne, hruns⟩⟩

/-- After a run that fails, the method has the graph from before it and is not run on again. -/
theorem of_error (h : Leads c (earlier ++ r :: later) c') (hr : r.result = .error f) :
    c'.context.method r.method = ⟨some r.graph, some (.unoptimized f)⟩ ∧ ∀ q ∈ later, q.method ≠ r.method := by
  obtain ⟨-, hlater⟩ := h.split
  have hafter := r.method_after_of_error hr r.method
  rw [if_pos rfl] at hafter
  obtain ⟨hmethod, hruns⟩ := hlater.of_failed (congrArg MethodState.outcome? hafter)
  exact ⟨hmethod.trans hafter, hruns⟩

theorem ok_of_earlier (h : Leads c (earlier ++ r :: later) c') {q : PassRun σ} (hq : q ∈ earlier)
    (hm : q.method = r.method) : ∃ changed, q.result = .ok changed := by
  cases hresult : q.result with
  | ok changed => exact ⟨changed, rfl⟩
  | error f =>
    obtain ⟨before, between, rfl⟩ := List.append_of_mem hq
    rw [List.append_assoc, List.cons_append] at h
    have hrun : r.method ≠ q.method := (h.of_error hresult).2 r (List.mem_append_right between List.mem_cons_self)
    exact absurd hm.symm hrun

theorem exists_error (h : Leads c runs c') (hc : c.context.isFailed m = false)
    (hf : c'.context.outcome? m = some (.unoptimized f)) : ∃ r ∈ runs, r.method = m ∧ r.result = .error f := by
  induction h with
  | done hsame =>
    have hfailed : _ = true := Context.isFailed_iff.mpr ⟨f, hsame ▸ hf⟩
    rw [hc] at hfailed
    cases hfailed
  | @run c c' r rest hsame hrest ih =>
    rw [← hsame] at hc
    have hlater : r.after.context.isFailed m = false → ∃ q ∈ r :: rest, q.method = m ∧ q.result = .error f := by
      intro hafter
      obtain ⟨q, hq, hqm, hresult⟩ := ih hafter hf
      exact ⟨q, List.mem_cons_of_mem r hq, hqm, hresult⟩
    cases hresult : r.result with
    | ok changed => exact hlater ((r.isFailed_after_of_ok hresult m).trans hc)
    | error f' =>
      by_cases hm : m = r.method
      · subst hm
        have hfirst : Leads r.before ([] ++ r :: rest) c' := .run r rfl hrest
        have hlast := (hfirst.of_error hresult).1
        have hfault : some (MethodOutcome.unoptimized f') = some (.unoptimized f) :=
          (congrArg MethodState.outcome? hlast).symm.trans hf
        cases hfault
        exact ⟨r, List.mem_cons_self, rfl, hresult⟩
      · exact hlater ((r.isFailed_after_of_ne hm).trans hc)

end Leads

/-- The log tells once of each method that failed, and of no start of a pass on it after that. -/
structure Context.LogTells (c : Context) : Prop where
  once : ∀ m, (c.log.ofMethod m).countP (·.kind = .methodFailed) = if c.isFailed m then 1 else 0
  noRestart : c.log.toList.Pairwise fun e e' => e.kind = .methodFailed → e'.kind = .passStarted → e'.method ≠ e.method

theorem Context.Fresh.logTells {c : Context} (h : c.Fresh) : c.LogTells := by
  refine ⟨fun m => ?_, ?_⟩
  · rw [h.isFailed m, h.log]
    rfl
  · rw [h.log]
    exact .nil

namespace PassRun

variable {σ : Type} (r : PassRun σ)

theorem not_scheduling_of_mem_rest (hp : r.pass.Quiet) {e : Event} (he : e ∈ r.rest.events.toList) :
    e.kind ≠ .passStarted ∧ e.kind ≠ .methodFailed := by
  have hquiet : e.kind.isScheduling = false := hp r.method r.graph r.before.state e he
  constructor
  · intro hkind
    rw [hkind] at hquiet
    cases hquiet
  · intro hkind
    rw [hkind] at hquiet
    cases hquiet

/-- Only the first event of a run tells of a start. -/
theorem not_started_of_mem_tail (hp : r.pass.Quiet) {e : Event} (he : e ∈ r.events.tail) : e.kind ≠ .passStarted := by
  rcases List.mem_append.mp he with he | he
  · exact (r.not_scheduling_of_mem_rest hp he).1
  · rw [List.mem_singleton.mp he, lastEvent]
    cases r.result with
    | ok _ => simp [Pass.event]
    | error _ => simp [Pass.event]

/-- Only the last event of a run tells of a failure. -/
theorem countP_failed_events (hp : r.pass.Quiet) (m : MethodId) :
    (r.events.filter (·.method = some m)).countP (·.kind = .methodFailed) =
      if r.lastEvent.method = some m ∧ r.lastEvent.kind = .methodFailed then 1 else 0 := by
  have hrest : (r.rest.events.toList.filter (·.method = some m)).countP (·.kind = .methodFailed) = 0 := by
    rw [List.countP_eq_zero]
    intro e he
    simpa using (r.not_scheduling_of_mem_rest hp (List.mem_of_mem_filter he)).2
  have hfirst : ([r.pass.event .passStarted r.method].filter (·.method = some m)).countP (·.kind = .methodFailed) = 0 := by
    rw [List.countP_eq_zero]
    intro e he
    rw [List.mem_singleton.mp (List.mem_of_mem_filter he)]
    simp [Pass.event]
  have hsplit : r.events = [r.pass.event .passStarted r.method] ++ (r.rest.events.toList ++ [r.lastEvent]) := rfl
  rw [hsplit, List.filter_append, List.filter_append, List.countP_append, List.countP_append, hfirst, hrest]
  by_cases hmethod : r.lastEvent.method = some m <;> by_cases hkind : r.lastEvent.kind = .methodFailed <;>
    simp [hmethod, hkind]

/-- Both passes show nothing of a run that fails, whatever it did to its draft. -/
theorem events_of_error (hpass : r.pass = .canonicalization ∨ ∃ config, r.pass = .elimination config) {f : Fault}
    (h : r.result = .error f) :
    r.events = [r.pass.event .passStarted r.method,
      { r.pass.event .methodFailed r.method with message := f.text }] := by
  have hrun : r.pass.run r.method { graph := r.graph, state := r.before.state } = .error f r.rest :=
    Attempt.eq_error_of_result h
  have hrest : r.rest.events = {} := by
    rcases hpass with hpass | ⟨config, hpass⟩
    · rw [hpass, Pass.canonicalization_run] at hrun
      obtain ⟨d, _, hrest⟩ := Workspace.change_error hrun
      rw [hrest]
    · rw [hpass, Pass.elimination_run] at hrun
      obtain ⟨d, _, hrest⟩ := Workspace.change_error hrun
      rw [hrest]
  rw [events, lastEvent, h, hrest]
  rfl

theorem ofMethod_after (m : MethodId) :
    r.after.context.log.ofMethod m = r.before.context.log.ofMethod m ++ r.events.filter (·.method = some m) := by
  unfold EventLog.ofMethod
  rw [r.log_after, List.filter_append]

theorem once_after (hp : r.pass.Quiet) (h : r.before.context.LogTells) (m : MethodId) :
    (r.after.context.log.ofMethod m).countP (·.kind = .methodFailed) =
      if r.after.context.isFailed m then 1 else 0 := by
  rw [r.ofMethod_after, List.countP_append, h.once m, r.countP_failed_events hp, lastEvent]
  cases hresult : r.result with
  | ok changed =>
    rw [r.isFailed_after_of_ok hresult m]
    simp [Pass.event]
  | error f =>
    by_cases hm : m = r.method
    · rw [hm, r.isFailed_before, r.isFailed_after_of_error hresult]
      simp [Pass.event]
    · have hother : r.method ≠ m := Ne.symm hm
      rw [r.isFailed_after_of_ne hm]
      simp [Pass.event, hother]

theorem noRestart_after (hp : r.pass.Quiet) (h : r.before.context.LogTells) :
    r.after.context.log.toList.Pairwise fun e e' =>
      e.kind = .methodFailed → e'.kind = .passStarted → e'.method ≠ e.method := by
  rw [r.log_after]
  refine List.pairwise_append.mpr ⟨h.noRestart, ?_, fun e he e' he' hfailed hstarted hsame => ?_⟩
  · refine List.pairwise_cons.mpr ⟨fun e' _ hfailed => ?_, ?_⟩
    · cases hfailed
    · refine List.pairwise_of_forall_mem_list fun e _ e' he' _ hstarted => ?_
      exact absurd hstarted (r.not_started_of_mem_tail hp he')
  · have hmethod : e'.method = some r.method := by
      rcases List.mem_cons.mp he' with rfl | htail
      · rfl
      · exact absurd hstarted (r.not_started_of_mem_tail hp htail)
    have hzero := h.once r.method
    rw [r.isFailed_before] at hzero
    have hmem : e ∈ r.before.context.log.ofMethod r.method :=
      List.mem_filter.mpr ⟨he, by simp [← hsame, hmethod]⟩
    exact List.countP_eq_zero.mp hzero e hmem (by simpa using hfailed)

theorem logTells_after (hp : r.pass.Quiet) (h : r.before.context.LogTells) : r.after.context.LogTells :=
  ⟨r.once_after hp h, r.noRestart_after hp h⟩

end PassRun

namespace Leads

variable {σ : Type} {c c' : Compilation σ} {runs : List (PassRun σ)}

theorem logTells (h : Leads c runs c') (hquiet : ∀ r ∈ runs, r.pass.Quiet) (hc : c.context.LogTells) :
    c'.context.LogTells := by
  induction h with
  | done hsame => exact hsame ▸ hc
  | run r hsame _ ih =>
    obtain ⟨hr, hrest⟩ := List.forall_mem_cons.mp hquiet
    exact ih hrest (r.logTells_after hr (hsame ▸ hc))

theorem methodIds_after (h : Leads c runs c') : ∀ r ∈ runs, r.after.context.methodIds = c.context.methodIds := by
  intro r hr
  obtain ⟨earlier, later, rfl⟩ := List.append_of_mem hr
  obtain ⟨hearlier, -⟩ := h.split
  rw [r.methodIds_after, hearlier.methodIds_eq]

end Leads

namespace Schedule

variable {σ : Type}

/-- How runs that led from one compilation to another have dealt with failures. -/
structure FailuresContained (start : Compilation σ) (runs : List (PassRun σ)) (last : Compilation σ) : Prop where
  methods : (∀ r ∈ runs, r.after.context.methodIds = start.context.methodIds) ∧
    last.context.methodIds = start.context.methodIds
  outcome : ∀ m f, last.context.outcome? m = some (.unoptimized f) ↔ ∃ r ∈ runs, r.method = m ∧ r.result = .error f
  /-- The runs on the method before the failing one came through, and there is none after it. -/
  first : ∀ earlier r later f, runs = earlier ++ r :: later → r.result = .error f →
    (∀ q ∈ earlier, q.method = r.method → ∃ changed, q.result = .ok changed) ∧ ∀ q ∈ later, q.method ≠ r.method
  graph : ∀ r ∈ runs, ∀ f, r.result = .error f →
    last.context.graph? r.method = r.before.context.graph? r.method
  /-- The failing run may have rewritten its draft, but the log tells of its start and its failure only. -/
  rewrites : ∀ r ∈ runs, (r.pass = .canonicalization ∨ ∃ config, r.pass = .elimination config) →
    ∀ f, r.result = .error f → r.events.length = 2 ∧
      r.after.context.log.countCategory .graphChange = r.before.context.log.countCategory .graphChange
  stays : ∀ r ∈ runs, ∀ m f, r.before.context.outcome? m = some (.unoptimized f) →
    last.context.outcome? m = some (.unoptimized f)
  log : last.context.LogTells

theorem failuresContained {start last : Compilation σ} {runs : List (PassRun σ)} (h : Leads start runs last)
    (hstart : start.context.Fresh) (hquiet : ∀ r ∈ runs, r.pass.Quiet) : FailuresContained start runs last where
  methods := ⟨h.methodIds_after, h.methodIds_eq⟩
  outcome m f := by
    refine ⟨h.exists_error (hstart.isFailed m), ?_⟩
    rintro ⟨r, hr, rfl, hresult⟩
    obtain ⟨earlier, later, rfl⟩ := List.append_of_mem hr
    exact congrArg MethodState.outcome? (h.of_error hresult).1
  first := by
    rintro earlier r later f rfl hresult
    exact ⟨fun q hq hm => h.ok_of_earlier hq hm, (h.of_error hresult).2⟩
  graph r hr f hresult := by
    obtain ⟨earlier, later, rfl⟩ := List.append_of_mem hr
    have hlast := congrArg MethodState.graph? (h.of_error hresult).1
    exact hlast.trans r.graph?_before.symm
  rewrites r _ hpass f hresult := by
    have hevents := r.events_of_error hpass hresult
    refine ⟨by rw [hevents]; rfl, ?_⟩
    unfold EventLog.countCategory
    rw [r.log_after, List.countP_append, hevents]
    simp [Pass.event, EventKind.category]
  stays r hr m f houtcome := by
    obtain ⟨earlier, later, rfl⟩ := List.append_of_mem hr
    obtain ⟨-, hlater⟩ := h.split
    have hrun : Leads r.before (r :: later) last := .run r rfl hlater
    exact (congrArg MethodState.outcome? (hrun.of_failed houtcome).1).trans houtcome
  log := h.logTells hquiet hstart.logTells

/-- A run that fails publishes nothing: over a whole schedule, whether or not it comes to its end, a
method is unoptimized exactly if a run on it failed, in which case it keeps the graph from before that
run, the log tells of one failure, and no pass takes the method on again. -/
theorem failed_runs_publish_nothing (s : Schedule σ) (hquiet : ∀ p ∈ s.passes, p.Quiet)
    (methods : List (MethodId × Graph)) (state : σ) :
    let start : Compilation σ := ⟨.ofMethods methods, state⟩
    let last := s.run.state start
    Leads start (s.history start) last ∧ (∀ r ∈ s.history start, r.pass ∈ s.passes) ∧
    last.context.log.toList = (s.history start).flatMap PassRun.events ∧
    FailuresContained start (s.history start) last ∧
    ∀ (c : Context) m f changed, c.outcome? m = some (.unoptimized f) →
      (c.markOptimized m changed).outcome? m = some (.unoptimized f) := by
  intro start last
  obtain ⟨hleads, hpasses⟩ := s.history_made start
  have hfresh : start.context.Fresh := Context.fresh_ofMethods methods
  have hlog : last.context.log.toList = (s.history start).flatMap PassRun.events := by
    rw [hleads.log_eq, hfresh.log]
    rfl
  refine ⟨hleads, hpasses, hlog, failuresContained hleads hfresh fun r hr => hquiet r.pass (hpasses r hr), ?_⟩
  exact fun c m f changed h => Context.outcome?_markOptimized h changed

/-- The elimination fails on a method with a cycle. From the other method it removes the guard, and a
pass that asks for one fails then, with a node gone from its draft and an event shown. -/
theorem failed_runs_publish_nothing_cyclic :
    let asking : Pass Unit :=
      { name := "asking"
        run := fun m w =>
          if w.graph.guardCount = 0 then
            .error (.internal (.notGuard 3 .ret)) ⟨w.graph.delete 2, ⟨#[{ kind := .info, method := some m }]⟩, ()⟩
          else .ok false w }
    let s : Schedule Unit := { passes := [.elimination {}, asking, .canonicalization] }
    let checking : Graph :=
      ⟨#[{ kind := .start, successors := [2] }, { kind := .logicConstant true },
        { kind := .ret, predecessors := [0] },
        { kind := .guard false .unreached, inputs := [1], anchor := some 0 }], .root⟩
    let cyclic : Graph :=
      ⟨#[{ kind := .start, successors := [1] },
        { kind := .branch, predecessors := [0, 1], successors := [1, 1] }], .root⟩
    let start : Compilation Unit := ⟨.ofMethods [(0, checking), (1, cyclic)], ()⟩
    (∀ p ∈ s.passes, p.Quiet) ∧
    (s.history start).map (fun r => (r.pass.name, r.method, r.result.isOk)) =
      [(Walk.passName, 0, true), (Walk.passName, 1, false), ("asking", 0, false)] ∧
    Leads start (s.history start) (s.run.state start) ∧ (∀ r ∈ s.history start, r.pass ∈ s.passes) ∧
    (s.run.state start).context.log.toList = (s.history start).flatMap PassRun.events ∧
    FailuresContained start (s.history start) (s.run.state start) := by
  intro asking s checking cyclic
  have hasking : asking.Quiet := by
    intro m g state
    dsimp only [asking, Attempt.state]
    split
    next h =>
      split at h
      next => cases h
      next =>
        obtain ⟨-, rfl⟩ := EStateM.Result.ok.inj h
        exact EventLog.quiet_empty
    next h =>
      split at h
      next =>
        obtain ⟨-, rfl⟩ := EStateM.Result.error.inj h
        exact fun e he => by rw [List.mem_singleton.mp he]; rfl
      next => cases h
  have hquiet : ∀ p ∈ s.passes, p.Quiet := by
    intro p hp
    rcases List.mem_cons.mp hp with rfl | hp
    · exact Pass.elimination_quiet {}
    · rcases List.mem_pair.mp hp with rfl | rfl
      · exact hasking
      · exact Pass.canonicalization_quiet
  have hruns : (s.history ⟨.ofMethods [(0, checking), (1, cyclic)], ()⟩).map
        (fun r => (r.pass.name, r.method, r.result.isOk)) =
      [(Walk.passName, 0, true), (Walk.passName, 1, false), ("asking", 0, false)] := by
    decide +kernel
  obtain ⟨hleads, hpasses, hlog, hcontained, -⟩ :=
    failed_runs_publish_nothing s hquiet [(0, checking), (1, cyclic)] ()
  exact ⟨hquiet, hruns, hleads, hpasses, hlog, hcontained⟩

end Schedule

end GuardElision
