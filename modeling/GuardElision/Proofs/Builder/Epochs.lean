import GuardElision.Proofs.Builder.Memory
import GuardElision.Proofs.Execution.Visits

namespace GuardElision

namespace Builder

open Exec

variable {b : Builder} {ev : Evaluator} {args : List Value} {path : List NodeId} {c : NodeId} {f : Frame}

theorem Tracked.visit (hb : b.Tracked) (hev : ∀ x, KeepsEpochs (ev x)) (h : Exec.Visit b.graph ev args path c f) :
    ∃ n, b.graph.get? c = some n ∧ n.kind.isControl = true ∧ f.epochs.get? (b.memoryAt c) = some f.epoch ∧
      f.epoch = path.countP fun c => b.graph.kind? c = some .invoke := by
  induction h with
  | @start n f hn hentry =>
    obtain ⟨hepoch, hepochs⟩ := entry_epochs hev hentry
    obtain ⟨n', hn', hk⟩ := Graph.kind?_eq_some_iff.mp hb.start
    cases hn.symm.trans hn'
    have hkill : n.kind.killsMemory = true := by rw [hk]; rfl
    refine ⟨n, hn, Kind.isControl_of_killsMemory hkill, ?_, ?_⟩
    · rw [hb.own _ n hn hkill, hepochs, if_pos hkill, IdMap.get?_insert, if_pos rfl]
    · rw [hepoch, if_neg (by rw [hk]; decide)]
      simp [hb.start]
  | @next path c s n m f f₁ f₂ _ hn hproceed hm hentry ih =>
    obtain ⟨n', hn', hc, hmem, hcount⟩ := ih
    cases hn.symm.trans hn'
    obtain ⟨he₁, hs₁⟩ := proceed_keepsEpochs hev c n f _ f₁ hproceed
    obtain ⟨hepoch, hepochs⟩ := entry_epochs hev hentry
    obtain ⟨m', hm', hcm, hpred⟩ := hb.edge c n s hn hc (mem_successors_of_proceed hproceed)
    cases hm.symm.trans hm'
    have hkind : b.graph.kind? s = some m.kind := Graph.kind?_eq_some_iff.mpr ⟨m, hm, rfl⟩
    refine ⟨m, hm, hcm, ?_, ?_⟩
    · by_cases hkill : m.kind.killsMemory = true
      · rw [hb.own s m hm hkill, hepochs, if_pos hkill, IdMap.get?_insert, if_pos rfl]
      · obtain ⟨p, _, hp, _, _, _, hat⟩ := hb.taken s m hm hcm (by simpa using hkill)
        obtain rfl : c = p := by simpa [hp] using hpred
        have hcall : m.kind ≠ .invoke := fun h => hkill (by rw [h]; rfl)
        rw [hat, hepochs, if_neg hkill, hepoch, if_neg hcall, hs₁, he₁]
        exact hmem
    · rw [hepoch, he₁, List.countP_append, ← hcount]
      by_cases hcall : m.kind = .invoke
      · simp [hkind, hcall]
      · simp [hkind, hcall]

/-- The memory state that the builder gives a read at a control node is the one that the walk up from the
node finds. Whenever a run has entered the node and recorded the epoch there, that memory state has an
epoch too, and it is the number of calls made so far. -/
theorem memory_matches_runs {classes : ClassTable} {calls : List Call} (hbuilt : Built classes calls b) :
    (∀ c, b.graph.isControl c = true → Sweep.memoryState b.graph c = .ok (b.memoryAt c) ∧
      ∀ object field guard stamp, ∃ id b' n, read object field guard stamp { b with cursor := some c } = .ok id b' ∧
        b'.graph.get? id = some n ∧ n.memory = some (b.memoryAt c)) ∧
    ∀ heap args path c f, Exec.Visit b.graph (evalCached b.graph heap (b.graph.capacity + 1)) args path c f →
      f.epochs.get? (b.memoryAt c) = some f.epoch ∧ f.epoch = path.countP fun c => b.graph.kind? c = some .invoke := by
  have hb := hbuilt.tracked
  refine ⟨fun c hc => ⟨?_, fun object field guard stamp => ?_⟩, fun heap args path c f h => ?_⟩
  · cases hn : b.graph.get? c with
    | none => simp [Graph.isControl, Graph.kind?, hn] at hc
    | some n => exact hb.memoryState hn ((Graph.isControl_of_get? hn).symm.trans hc)
  · refine ⟨b.graph.capacity, _,
      { kind := .read field, stamp, inputs := [object], guard, memory := some (b.memoryAt c) }, rfl, ?_, rfl⟩
    exact (Graph.get?_add _ _ rfl _).trans (if_pos rfl)
  · obtain ⟨_, _, _, hvisit⟩ := hb.visit (fun x => evalCached_keepsEpochs _ x) h
    exact hvisit

/-- A loop that calls until a field has counted to two. The read at its header sees each call, and the end of the
loop has the memory state of the call. -/
theorem memory_matches_runs_loop :
    let calls : List Call := [.parameter (.object {}), .int 2, .loopBegin, .read 1 0 none (.int .full), .compare .lt 4 2,
      .branch 5, .setCursor 7, .invoke, .loopEnd 3 [], .setCursor 8, .ret (some 4)]
    ∃ b, Built .root calls b ∧ b.graph.run [⟨0, []⟩] 20 [.ref 0] = .ok (.returned (some (.int 2))) ∧
      b.memoryAt 10 = 9 ∧ Sweep.memoryState b.graph 10 = .ok 9 ∧
      ∃ path c f, Exec.Visit b.graph (evalCached b.graph [⟨0, []⟩] (b.graph.capacity + 1)) [.ref 0] path c f ∧
        f.epochs.get? (b.memoryAt c) = some f.epoch ∧ f.epoch = path.countP fun c => b.graph.kind? c = some .invoke := by
  intro calls
  have hresult : (calls.forM Call.perform).result (ofClasses .root) = .ok () := by decide +kernel
  have hrun : ((calls.forM Call.perform).state (ofClasses .root)).graph.run [⟨0, []⟩] 20 [.ref 0] =
      .ok (.returned (some (.int 2))) := by decide +kernel
  have hmemory : ((calls.forM Call.perform).state (ofClasses .root)).memoryAt 10 = 9 := by decide +kernel
  have hcontrol : ((calls.forM Call.perform).state (ofClasses .root)).graph.isControl 10 = true := by decide +kernel
  obtain ⟨b, hbuilt⟩ := Attempt.result_eq_ok.mp hresult
  have hstate : (calls.forM Call.perform).state (ofClasses .root) = b := by rw [Attempt.state, hbuilt]
  rw [hstate] at hrun hmemory hcontrol
  obtain ⟨hwalk, hvisits⟩ := memory_matches_runs (hbuilt : Built .root calls b)
  obtain ⟨path, c, _, f, _, hvisit, _⟩ := exists_visit_of_runWith hrun
  exact ⟨b, hbuilt, hrun, hmemory, hmemory ▸ (hwalk 10 hcontrol).1, path, c, f, hvisit, hvisits _ _ path c f hvisit⟩

end Builder

end GuardElision
