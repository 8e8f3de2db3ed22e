import GuardElision.Fault

/-!
Computations on a state that may fail. A failure keeps what was done before it.
-/

namespace GuardElision

abbrev Attempt (σ α : Type) := EStateM Fault σ α

namespace Attempt

variable {σ τ α : Type}

/-- Asks the state a question that may fail. -/
def ask (f : σ → Except Fault α) : Attempt σ α := fun s =>
  match f s with
  | .ok a => .ok a s
  | .error e => .error e s

def update (f : σ → σ) : Attempt σ Unit := fun s =>
  .ok () (f s)

/-- Takes a step that changes nothing if it fails. -/
def step (f : σ → Except Fault σ) : Attempt σ Unit := fun s =>
  match f s with
  | .ok s => .ok () s
  | .error e => .error e s

/-- Takes a step with a result, which changes nothing if it fails. -/
def stepWith (f : σ → Except Fault (α × σ)) : Attempt σ α := fun s =>
  match f s with
  | .ok (a, s) => .ok a s
  | .error e => .error e s

/-- Works on a part of the state. -/
def onPart (part : τ → σ) (put : τ → σ → τ) (a : Attempt σ α) : Attempt τ α := fun t =>
  match a (part t) with
  | .ok x s => .ok x (put t s)
  | .error e s => .error e (put t s)

def result (a : Attempt σ α) (s : σ) : Except Fault α :=
  match a s with
  | .ok x _ => .ok x
  | .error e _ => .error e

/-- The state, whether or not the computation succeeded. -/
def state (a : Attempt σ α) (s : σ) : σ :=
  match a s with
  | .ok _ s => s
  | .error _ s => s

/-- The state and the result, if the computation succeeded. -/
def finalWith (a : Attempt σ α) (s : σ) : Except Fault (α × σ) :=
  match a s with
  | .ok x s => .ok (x, s)
  | .error e _ => .error e

def final (a : Attempt σ Unit) (s : σ) : Except Fault σ :=
  match a s with
  | .ok _ s => .ok s
  | .error e _ => .error e

end Attempt

end GuardElision
