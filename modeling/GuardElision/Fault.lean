import GuardElision.Value

namespace GuardElision

abbrev MethodId := Nat

namespace MethodId

def text (m : MethodId) : String :=
  s!"m{m}"

end MethodId

/-- A violated invariant of a graph. -/
inductive Defect where
  | notSuccessor (node source : NodeId)
  | dependsOnRemoved (node : NodeId) (kind : Kind) (dependency : NodeId)
  | removedSuccessor (node successor : NodeId)
  | nonControlSuccessor (node successor : NodeId)
  | unmatchedSuccessor (node successor : NodeId)
  | unmatchedPredecessor (node predecessor : NodeId)
  | startHasPredecessors (node : NodeId)
  | ifSuccessorCount (node : NodeId) (count : Nat)
  | ifWithoutCondition (node : NodeId)
  | ifTestsNonLogic (node condition : NodeId)
  | terminalHasSuccessors (node : NodeId)
  | strayLoopEnd (node : NodeId)
  | successorCount (node : NodeId) (kind : Kind) (count : Nat)
  | predecessorCount (node : NodeId) (kind : Kind) (count : Nat)
  | mergeWithoutForwardPredecessor (node : NodeId)
  | guardWithoutCondition (guard : NodeId)
  | guardTestsNonLogic (guard condition : NodeId)
  | guardWithoutAnchor (guard : NodeId)
  | guardAtNonAnchor (guard anchor : NodeId)
  | phiWithoutMerge (phi : NodeId)
  | phiInputCount (phi : NodeId) (inputs : Nat) (merge : NodeId) (predecessors : Nat)
  | piShape (node : NodeId)
  | readShape (node : NodeId)
  | compareShape (node : NodeId)
  | testShape (node : NodeId) (kind : Kind)
  | forwardCycle (nodes : List NodeId)
  | cyclicForwardFlow
  | withoutLivePredecessor (node : NodeId) (kind : Kind)
  | missingOperand (node : NodeId) (kind : Kind) (index : Nat)
  | notLogic (node : NodeId) (kind : Kind)
  | notBranch (node : NodeId) (kind : Kind)
  | notTwoArms (branch : NodeId)
  | branchWithoutCondition (branch : NodeId)
  | notGuard (node : NodeId) (kind : Kind)
  | guardIncomplete (guard : NodeId)
  | memoryWalkRemoved (node : NodeId)
  | noMemoryAbove (control : NodeId)
  | phiUnusable (phi merge : NodeId)
  | withoutAnchor (node : NodeId) (kind : Kind)
  | guardedByRemoved (node guard : NodeId)
  | notOnOneChain (node stray deepest : NodeId)
  | useNotDominated (value position user use : NodeId)
  | mergeEnteredAlone (merge : NodeId)
  | notPredecessor (source merge : NodeId)
  | phiWithoutInput (phi : NodeId) (index : Nat)
  | missingInput (node : NodeId) (kind : Kind) (index : Nat)
  | phiBeforeMerge (phi : NodeId)
  | readWithoutMemory (read : NodeId)
  | readBeforeMemory (read memory : NodeId)
  | noValue (node : NodeId) (kind : Kind)
  | cyclicValue (node : NodeId)
  /-- A violation found elsewhere, with the place that reports it. -/
  | reported (message file : String) (line : Nat)
deriving DecidableEq

/-- A request, or a step of execution, that the graph does not admit. -/
inductive Misuse where
  | noOpenPosition
  | closedPosition (node : NodeId) (kind : Kind)
  | guardOnNonLogic (condition : NodeId)
  | branchOnNonLogic (condition : NodeId)
  | contradictoryPi (stamp : Stamp) (value : NodeId)
  | tooFewEnds
  | notMerge (node : NodeId)
  | notLoopHeader (node : NodeId)
  | backValueCount (header : NodeId) (phis values : Nat)
  | fallsOff (node : NodeId)
  | notBoolean (node : NodeId) (value : Value)
  | missingArgument (index : Nat)
  | incomparable (node : NodeId) (left : Value) (op : Comparison) (right : Value)
  | danglingReference (index : Nat)
  | readsFrom (node : NodeId) (value : Value)
  /-- A complaint in the words of the one who makes it. -/
  | reported (message : String)
deriving DecidableEq

inductive Fault where
  | internal (defect : Defect)
  | invalidNode (node : NodeId)
  | graph (misuse : Misuse)
  | methodNotFound (method : MethodId)
  | nullDereference (node : NodeId)
  | stepLimit (limit : Nat)
  /-- A sum left the range of words. -/
  | overflow
  /-- A walk from a node that comes back to where it was, and so never ends. -/
  | endless (node : NodeId)
deriving DecidableEq

def kindedText (n : NodeId) (k : Kind) : String :=
  NodeId.text n ++ " (" ++ k.text ++ ")"

namespace Defect

def message : Defect → String
  | notSuccessor n s => NodeId.text n ++ " is not a successor of " ++ NodeId.text s
  | dependsOnRemoved n k d => kindedText n k ++ " depends on removed node " ++ NodeId.text d
  | removedSuccessor n s => NodeId.text n ++ " has removed successor " ++ NodeId.text s
  | nonControlSuccessor n s => NodeId.text n ++ " has non-control successor " ++ NodeId.text s
  | unmatchedSuccessor n s =>
    "edge " ++ NodeId.text n ++ " -> " ++ NodeId.text s ++ " is missing its predecessor entry"
  | unmatchedPredecessor n p =>
    NodeId.text n ++ " lists " ++ NodeId.text p ++ " as predecessor without a successor edge"
  | startHasPredecessors n => "start node " ++ NodeId.text n ++ " has predecessors"
  | ifSuccessorCount n c => s!"If n{n} has {c} successors"
  | ifWithoutCondition n => "If " ++ NodeId.text n ++ " has no condition"
  | ifTestsNonLogic n c => "If " ++ NodeId.text n ++ " tests non-logic " ++ NodeId.text c
  | terminalHasSuccessors n => "terminal " ++ NodeId.text n ++ " has successors"
  | strayLoopEnd n => "LoopEnd " ++ NodeId.text n ++ " does not close a loop"
  | successorCount n k c => kindedText n k ++ s!" has {c} successors"
  | predecessorCount n k c => kindedText n k ++ s!" has {c} predecessors"
  | mergeWithoutForwardPredecessor n => "merge " ++ NodeId.text n ++ " has no live forward predecessor"
  | guardWithoutCondition g => "guard " ++ NodeId.text g ++ " has no condition"
  | guardTestsNonLogic g c => "guard " ++ NodeId.text g ++ " tests non-logic " ++ NodeId.text c
  | guardWithoutAnchor g => "guard " ++ NodeId.text g ++ " has no anchor"
  | guardAtNonAnchor g a => "guard " ++ NodeId.text g ++ " anchored at non-anchor " ++ NodeId.text a
  | phiWithoutMerge p => "phi " ++ NodeId.text p ++ " has no merge"
  | phiInputCount p i m c => s!"phi n{p} has {i} inputs for merge n{m} with {c} predecessors"
  | piShape n => "Pi " ++ NodeId.text n ++ " needs one input and a guard"
  | readShape n => "read " ++ NodeId.text n ++ " needs an object input"
  | compareShape n => "compare " ++ NodeId.text n ++ " needs two inputs"
  | testShape n k => kindedText n k ++ " needs one input"
  | forwardCycle ns =>
    "forward control flow contains a cycle: " ++ " -> ".intercalate (ns.map NodeId.text)
  | cyclicForwardFlow => "forward control flow contains a cycle"
  | withoutLivePredecessor n k => kindedText n k ++ " has no live predecessor"
  | missingOperand n k i => kindedText n k ++ s!" is missing operand {i}"
  | notLogic n k => kindedText n k ++ " is not a logic node"
  | notBranch n k => kindedText n k ++ " is not a branch"
  | notTwoArms n => "branch " ++ NodeId.text n ++ " does not have two arms"
  | branchWithoutCondition n => "branch " ++ NodeId.text n ++ " has no condition"
  | notGuard n k => kindedText n k ++ " is not a guard"
  | guardIncomplete g => "guard " ++ NodeId.text g ++ " is missing its anchor or condition"
  | memoryWalkRemoved n => "memory walk reached removed node " ++ NodeId.text n
  | noMemoryAbove n => "no memory state above " ++ NodeId.text n
  | phiUnusable p m => "phi " ++ NodeId.text p ++ " at " ++ NodeId.text m ++ " has no usable input"
  | withoutAnchor n k => kindedText n k ++ " has no anchor"
  | guardedByRemoved n g => NodeId.text n ++ " is guarded by removed node " ++ NodeId.text g
  | notOnOneChain n s d =>
    NodeId.text n ++ " depends on " ++ NodeId.text s ++ " and " ++ NodeId.text d ++
      ", which are not on one dominator chain"
  | useNotDominated v p u a =>
    NodeId.text v ++ " placed at " ++ NodeId.text p ++ " does not dominate its use by " ++
      NodeId.text u ++ " at " ++ NodeId.text a
  | mergeEnteredAlone m => "merge " ++ NodeId.text m ++ " entered without predecessor"
  | notPredecessor s m => NodeId.text s ++ " is not a predecessor of " ++ NodeId.text m
  | phiWithoutInput p i => s!"phi n{p} has no input {i}"
  | missingInput n k i => kindedText n k ++ s!" is missing input {i}"
  | phiBeforeMerge p => "phi " ++ NodeId.text p ++ " used before its merge"
  | readWithoutMemory r => "read " ++ NodeId.text r ++ " has no memory input"
  | readBeforeMemory r m =>
    "read " ++ NodeId.text r ++ " observes memory " ++ NodeId.text m ++ " before it executed"
  | noValue n k => kindedText n k ++ " has no value"
  | cyclicValue n => NodeId.text n ++ " depends on its own value"
  | reported m _ _ => m

def site? : Defect → Option (String × Nat)
  | reported _ file line => some (file, line)
  | _ => none

end Defect

namespace Misuse

def message : Misuse → String
  | noOpenPosition => "no open control position"
  | closedPosition n k => kindedText n k ++ " cannot take another successor"
  | guardOnNonLogic c => "guard condition " ++ NodeId.text c ++ " is not a logic value"
  | branchOnNonLogic c => "branch condition " ++ NodeId.text c ++ " is not a logic value"
  | contradictoryPi s v => "pi stamp " ++ s.text ++ " contradicts " ++ NodeId.text v
  | tooFewEnds => "a merge needs at least two ends"
  | notMerge n => NodeId.text n ++ " is not a merge"
  | notLoopHeader n => NodeId.text n ++ " is not a loop header"
  | backValueCount h p v => s!"loop n{h} has {p} phis but {v} back values"
  | fallsOff n => "control falls off the end at " ++ NodeId.text n
  | notBoolean n v => NodeId.text n ++ " produced " ++ v.text ++ ", not a condition"
  | missingArgument i => s!"missing argument {i}"
  | incomparable n a op b =>
    NodeId.text n ++ ": cannot compare " ++ a.text ++ " " ++ op.text ++ " " ++ b.text
  | danglingReference i => s!"dangling reference {i}"
  | readsFrom n v => NodeId.text n ++ " reads from " ++ v.text
  | reported m => m

end Misuse

namespace Fault

def text : Fault → String
  | internal d =>
    (match d.site? with
      | some (file, line) => "Internal error - " ++ file ++ s!":{line}: "
      | none => "Internal error: ") ++ d.message
  | invalidNode n => "Invalid node - " ++ NodeId.text n
  | graph m => m.message
  | methodNotFound m => "Method not found - " ++ MethodId.text m
  | nullDereference n => "Null dereference at node " ++ NodeId.text n
  | stepLimit n => s!"Reach the maximum number of interpreter steps allowed - {n}"
  | overflow => "attempt to add with overflow"
  | endless n => "Endless walk from " ++ NodeId.text n

end Fault

def ensure (holds : Bool) (defect : Defect) : Except Fault Unit :=
  if holds then .ok () else .error (.internal defect)

def expect {α : Type} (value : Option α) (defect : Defect) : Except Fault α :=
  match value with
  | some a => .ok a
  | none => .error (.internal defect)

end GuardElision
