import GuardElision.Elimination.Run
import GuardElision.Pipeline.Context

namespace GuardElision

/-- What a run of a pass works on. A run that fails leaves behind what it has done so far. -/
structure Workspace (σ : Type) where
  /-- A draft of the method's graph. -/
  graph : Graph
  /-- What the run has put in the log for all to see. -/
  events : EventLog := {}
  state : σ

namespace Workspace

variable {σ α : Type}

/-- Works on the draft, with a log that nobody sees yet. -/
def onDraft (x : Attempt Draft α) : Attempt (Workspace σ) (α × EventLog) := fun w =>
  match x { graph := w.graph } with
  | .ok a d => .ok (a, d.log) { w with graph := d.graph }
  | .error e d => .error e { w with graph := d.graph }

def publish (w : Workspace σ) (log : EventLog) : Workspace σ :=
  { w with events := w.events.append log }

/-- Works on the draft, and shows a report only if the draft was changed. -/
def change (x : Attempt Draft α) (changed : α → Bool) (report : α → EventLog → EventLog) :
    Attempt (Workspace σ) Bool := do
  let (a, log) ← onDraft x
  if changed a then modify (·.publish (report a log))
  return changed a

end Workspace

/-- A pass with state in `σ`. -/
structure Pass (σ : Type) where
  name : String
  description : String := "No description available"
  setUp : σ → Except Fault σ := .ok
  tearDown : σ → Except Fault σ := .ok
  /-- Whether the pass has work on a method, given its graph unless that is missing. -/
  applies : MethodId → Option Graph → Bool := fun _ _ => true
  /-- Says whether the draft was changed. -/
  run : MethodId → Attempt (Workspace σ) Bool

namespace Pass

variable {σ : Type}

/-- Canonicalization; only a run that changed the graph shows its events. -/
def canonicalization : Pass σ where
  name := "canonicalize"
  description := "Folds conditions decidable from stamps and removes dead code"
  run m := Workspace.change (Draft.canonicalize (some m)) (!·.isEmpty) fun _ log => log

/-- Elimination; a run that changed the graph shows its events and its tally. -/
def elimination (config : EliminationConfig) : Pass σ where
  name := Walk.passName
  description := "Removes guards and branches implied by dominating conditions"
  applies _ g? := g?.all fun g => 0 < g.guardCount || 0 < g.count (· = .branch)
  run m := Workspace.change (Draft.eliminate config (some m)) Tally.changed fun tally log =>
    log.record { kind := .info, method := some m, pass := some Walk.passName, message := tally.text }

end Pass

end GuardElision
