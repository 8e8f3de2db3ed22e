import GuardElision.Attempt
import GuardElision.Pipeline.Pass

/-!
Running passes on all methods until nothing changes. A method on which a pass fails keeps the graph it had
before, and no pass runs on it again.
-/

namespace GuardElision

/-- The methods and the state of the passes. -/
structure Compilation (σ : Type) where
  context : Context
  state : σ

structure Schedule (σ : Type) where
  passes : List (Pass σ)
  maxIterations : Nat := 5
  /-- How many iterations in a row without a change are enough. -/
  stableIterations : Nat := 2
  /-- How often a pass repeats within an iteration. -/
  maxRepeats : Nat := 15
  /-- The order in which a pass takes the methods. -/
  order : Context → List MethodId := Context.methodIds

namespace Pass

variable {σ : Type} (p : Pass σ)

def event (kind : EventKind) (m : MethodId) : Event :=
  { kind, method := some m, pass := some p.name }

/-- Runs the pass on one method, unless the method has failed before or the pass does not apply. The graph is
taken out of the context for the run; then the draft is put there, or the graph itself if the run fails. -/
def runOn (c : Compilation σ) (m : MethodId) : Bool × Compilation σ :=
  if c.context.isFailed m || !p.applies m (c.context.graph? m) then (false, c)
  else
    match c.context.takeGraph m with
    | .error _ => (false, c)
    | .ok (original, context) =>
      let started := context.record (p.event .passStarted m)
      match p.run m { graph := original, state := c.state } with
      | .ok changed w =>
        let context := { started with
          graphs := started.graphs.insert m w.graph
          log := started.log.append w.events }
        (changed,
          ⟨(context.markOptimized m changed).record (p.event .passCompleted m), w.state⟩)
      | .error f w =>
        let context := { started with
          graphs := started.graphs.insert m original
          log := started.log.append w.events }
        let failed := context.record { p.event .methodFailed m with message := f.text }
        (false, ⟨failed.markFailed m f, w.state⟩)

/-- Runs the pass on methods in the given order, and says whether any of them changed. -/
def runOnAll (order : List MethodId) (c : Compilation σ) : Bool × Compilation σ :=
  order.foldl
    (fun (changed, c) m =>
      let (here, c) := p.runOn c m
      (changed || here, c))
    (false, c)

def onState (f : σ → Except Fault σ) : Attempt (Compilation σ) Unit :=
  .step fun c => return { c with state := ← f c.state }

/-- Runs the pass once on all methods in the order that the context calls for. -/
def runOnce (order : Context → List MethodId) : Attempt (Compilation σ) Bool := do
  onState p.setUp
  let changed ← modifyGet fun c => p.runOnAll (order c.context) c
  onState p.tearDown
  return changed

/-- Repeats the pass until nothing changes, and says whether anything did. -/
def repeated (order : Context → List MethodId) : Nat → Attempt (Compilation σ) Bool
  | 0 => return false
  | n + 1 => do
    if ← p.runOnce order then
      let _ ← repeated order n
      return true
    else return false

end Pass

namespace Schedule

variable {σ : Type} (s : Schedule σ)

/-- Runs every pass once to its end, and says whether any of them changed anything. -/
def iterate : List (Pass σ) → Attempt (Compilation σ) Bool
  | [] => return false
  | p :: rest => do
    let here ← p.repeated s.order s.maxRepeats
    let later ← iterate rest
    return here || later

/-- At most `n` more iterations, after `stable` in a row without a change; returns how many were
made. -/
def iterations : Nat → Nat → Attempt (Compilation σ) Nat
  | 0, _ => return 0
  | n + 1, stable => do
    let changed ← s.iterate s.passes
    let stable := if changed then 0 else stable + 1
    if !changed && s.stableIterations ≤ stable then return 1
    else return (← iterations n stable) + 1

def run : Attempt (Compilation σ) Nat :=
  s.iterations s.maxIterations 0

end Schedule

end GuardElision
