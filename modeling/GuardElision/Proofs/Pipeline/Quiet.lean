import GuardElision.Proofs.Pipeline.Independence

namespace GuardElision

/-- The events that tell how a run of a pass went. -/
def EventKind.isScheduling : EventKind → Bool
  | passStarted | passCompleted | methodFailed => true
  | _ => false

namespace EventLog

/-- No event of the log tells how a run went. -/
def Quiet (l : EventLog) : Prop :=
  ∀ e ∈ l.toList, e.kind.isScheduling = false

theorem quiet_empty : Quiet {} :=
  nofun

theorem Quiet.record {l : EventLog} (h : l.Quiet) {e : Event} (he : e.kind.isScheduling = false) :
    (l.record e).Quiet := by
  intro e' he'
  rw [toList_record] at he'
  rcases List.mem_append.mp he' with he' | he'
  · exact h e' he'
  · rw [List.mem_singleton.mp he']
    exact he

end EventLog

namespace Round

variable {method : Option MethodId} {r r' : Round}

def Quiet (r : Round) : Prop :=
  r.draft.log.Quiet

theorem Edit.quiet (h : Edit r r') (hr : r.Quiet) : r'.Quiet := by
  cases h with
  | decide _ _ _ he | drop _ _ _ _ _ he | trap _ _ _ _ _ _ he | fold _ _ _ _ he => exact EventLog.Quiet.record hr (by rw [he]; rfl)

theorem run_quiet {u : PUnit} (hseeds : r.seeds = []) (hr : r.Quiet) (h : run method r = .ok u r') : r'.Quiet :=
  run_induct (P := Quiet) (fun _ _ hr hedit => hedit.quiet hr) (fun _ _ _ hr _ _ => hr)
    (fun _ _ _ _ hr _ _ he => EventLog.Quiet.record hr (by rw [he]; rfl)) hseeds hr h

end Round

namespace Walk

variable {config : EliminationConfig} {E : Extent} {p q : Draft × Tally}

theorem Effect.quiet (h : Effect config E p q) (hp : p.1.log.Quiet) : q.1.log.Quiet := by
  cases h with
  | count => exact hp
  | rebuild _ _ he | drop _ _ _ he | move _ _ _ _ _ _ he | trap _ _ _ _ he | fold _ _ _ he =>
    exact hp.record (by rw [he]; rfl)

theorem Effects.quiet (h : Effects config E p q) (hp : p.1.log.Quiet) : q.1.log.Quiet := by
  induction h with
  | refl => exact hp
  | tail _ heffect ih => exact heffect.quiet ih

end Walk

namespace Draft

variable {config : EliminationConfig} {method : Option MethodId}

def Quiet (d : Draft) : Prop :=
  d.log.Quiet

theorem canonicalizeOnce_quiet : (canonicalizeOnce method).Keeps Quiet := by
  intro d changes d' hd h
  unfold canonicalizeOnce at h
  split at h
  next r hrun =>
    obtain ⟨-, rfl⟩ := EStateM.Result.ok.inj h
    exact Round.run_quiet (r := { draft := d }) rfl hd hrun
  next => cases h

theorem walk_quiet (tally : Tally) : (walk config method tally).Keeps Quiet :=
  fun d _ _ hd h => (walk_effects d.graph.within_all h).quiet hd

end Draft

theorem Workspace.change_quiet {σ α : Type} {x : Attempt Draft α} {changed : α → Bool}
    {report : α → EventLog → EventLog}
    {g : Graph} {s : σ} (h : ∀ a d, x { graph := g } = .ok a d → (report a d.log).Quiet) :
    ((Workspace.change x changed report).state { graph := g, state := s }).events.Quiet := by
  unfold Attempt.state
  split
  next hrun =>
    obtain ⟨a, d, hx, _, rfl⟩ := change_ok hrun
    split
    next =>
      intro e he
      rw [EventLog.toList_append] at he
      exact h a d hx e he
    next => exact EventLog.quiet_empty
  next hrun =>
    obtain ⟨_, _, rfl⟩ := change_error hrun
    exact EventLog.quiet_empty

namespace Pass

variable {σ : Type}

/-- A pass that leaves it to the schedule to say how its runs went. -/
def Quiet (p : Pass σ) : Prop :=
  ∀ m g s, ((p.run m).state { graph := g, state := s }).events.Quiet

theorem canonicalization_quiet : (canonicalization (σ := σ)).Quiet := by
  intro m g s
  rw [canonicalization_run]
  refine Workspace.change_quiet fun changes d hrun => ?_
  exact Draft.canonicalize_keeps Draft.canonicalizeOnce_quiet { graph := g } _ _ EventLog.quiet_empty hrun

theorem elimination_quiet (config : EliminationConfig) : (elimination (σ := σ) config).Quiet := by
  intro m g s
  rw [elimination_run]
  refine Workspace.change_quiet fun tally d hrun => EventLog.Quiet.record ?_ rfl
  exact Draft.eliminate_keeps Draft.walk_quiet Draft.canonicalizeOnce_quiet { graph := g } _ _ EventLog.quiet_empty hrun

end Pass

end GuardElision
