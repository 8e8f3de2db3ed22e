import GuardElision.Event
import GuardElision.Graph.Basic
import GuardElision.IdMap

namespace GuardElision

/-- What became of a method. A method that failed keeps its graph as it was. -/
inductive MethodOutcome where
  | optimized (changed : Bool)
  | unoptimized (fault : Fault)
deriving DecidableEq

namespace MethodOutcome

def isFailure : MethodOutcome → Bool
  | unoptimized _ => true
  | optimized _ => false

/-- The outcome after one more successful run. A failure stays. -/
def afterRun (changed : Bool) : Option MethodOutcome → MethodOutcome
  | some (unoptimized f) => unoptimized f
  | some (optimized before) => optimized (before || changed)
  | none => optimized changed

end MethodOutcome

structure Context where
  graphs : IdMap Graph := .empty
  outcomes : IdMap MethodOutcome := .empty
  log : EventLog := {}

namespace Context

/-- Registers a method anew, without an outcome. -/
def addMethod (c : Context) (m : MethodId) (g : Graph) : Context :=
  { c with graphs := c.graphs.insert m g, outcomes := c.outcomes.erase m }

def methodIds (c : Context) : List MethodId :=
  c.graphs.keys

def graph? (c : Context) (m : MethodId) : Option Graph :=
  c.graphs.get? m

def takeGraph (c : Context) (m : MethodId) : Except Fault (Graph × Context) :=
  match c.graphs.get? m with
  | some g => .ok (g, { c with graphs := c.graphs.erase m })
  | none => .error (.methodNotFound m)

def outcome? (c : Context) (m : MethodId) : Option MethodOutcome :=
  c.outcomes.get? m

def isFailed (c : Context) (m : MethodId) : Bool :=
  (c.outcome? m).any (·.isFailure)

def markOptimized (c : Context) (m : MethodId) (changed : Bool) : Context :=
  { c with outcomes := c.outcomes.insert m (.afterRun changed (c.outcome? m)) }

def markFailed (c : Context) (m : MethodId) (f : Fault) : Context :=
  { c with outcomes := c.outcomes.insert m (.unoptimized f) }

def failedMethods (c : Context) : List MethodId :=
  c.outcomes.keys.filter c.isFailed

def record (c : Context) (e : Event) : Context :=
  { c with log := c.log.record e }

end Context

end GuardElision
