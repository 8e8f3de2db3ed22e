import GuardElision.Cleanup.Local
import GuardElision.Elimination.Config
import GuardElision.Elimination.Tally
import GuardElision.Facts.Push

/-!
The walk over the dominator tree. Edits of control flow wait until the walk leaves their node; the tree is
then computed anew, and with it what is still to be visited.
-/

namespace GuardElision

/-- An edit of control flow that waits until the walk leaves its node. -/
inductive DeferredEdit where
  | strengthen (guard : NodeId) (reason : Reason)
  | foldBranch (truth : Bool)
deriving DecidableEq

/-- A node the walk has entered and not yet left. -/
structure Visit where
  node : NodeId
  /-- The children that are still to be entered, in order. -/
  pending : List NodeId := []
  deferred : Option DeferredEdit := none
deriving DecidableEq

/-- Whether the visit ends with a trap. The part below its node is not entered then. -/
def Visit.traps (v : Visit) : Bool :=
  match v.deferred with
  | some (.strengthen _ _) => true
  | _ => false

structure Walk where
  graph : Graph
  facts : Facts
  dominators : DominatorTree
  log : EventLog
  tally : Tally
  /-- The open visits, innermost first. -/
  visits : List Visit := []
  visited : List NodeId := []
  /-- Arms that a folded branch will not take. -/
  excluded : List NodeId := []
  /-- Whether control flow was edited. -/
  edited : Bool := false

/-- What the walk does next. -/
inductive Stage where
  | descend (node : NodeId)
  | process (node : NodeId)
  | ascend (node : NodeId)
  | done
deriving DecidableEq

namespace Walk

def passName : String := "conditional-elimination"

variable (config : EliminationConfig) (method : Option MethodId)

def ofGraph (graph : Graph) (log : EventLog) (tally : Tally) : Walk :=
  { graph, facts := .ofClasses graph.classes, dominators := graph.dominators, log, tally }

def record (w : Walk) (kind : EventKind) (node : NodeId) (message : String) : Walk :=
  { w with log := w.log.record { kind, method, node := some node, pass := some passName, message } }

def onGraph {α : Type} (f : Graph → Except Fault (α × Graph)) : Attempt Walk α :=
  .stepWith fun w => do
    let (a, graph) ← f w.graph
    return (a, { w with graph })

/-- The children in the tree that are alive and neither visited nor excluded. -/
def pendingChildren (w : Walk) (node : NodeId) : List NodeId :=
  (w.dominators.children node).filter fun c =>
    !w.visited.contains c && !w.excluded.contains c && w.graph.isLive c

/-- Takes the next child of the innermost visit as it was noted, without a second look. -/
def nextStage (w : Walk) : Stage × Walk :=
  match w.visits with
  | [] => (.done, w)
  | v :: outer =>
    match v.pending with
    | [] => (.ascend v.node, w)
    | child :: pending => (.descend child, { w with visits := { v with pending } :: outer })

/-- The condition an arm comes with, and its truth there. -/
def armCondition? (g : Graph) (arm : NodeId) : Except Fault (Option (Condition × Bool)) := do
  let n ← g.node arm
  match n.predecessors with
  | [split] =>
    let s ← g.node split
    if s.kind = .branch then
      let condition ← expect s.inputs.head? (.branchWithoutCondition split)
      match ← g.condition condition with
      | .constant _ => return none
      | .predicate c => return some (c, s.successors.head? = some arm)
    else return none
  | _ => return none

/-- Learns the outcome of the branch that a node is an arm of. -/
def learnArm (arm : NodeId) : Attempt Walk Unit := do
  match ← Attempt.ask fun w : Walk => armCondition? w.graph arm with
  | none => return ()
  | some (c, truth) =>
    modify fun w =>
      let (outcome, facts) := w.facts.push c (c.testTruth truth) arm
      let deadArms := match outcome with
        | .contradicted _ => w.tally.deadArms + 1
        | _ => w.tally.deadArms
      { w with facts, tally := { w.tally with deadArms } }

def descend (node : NodeId) : Attempt Walk Stage := do
  modify fun w =>
    { w with
      visited := node :: w.visited
      facts := w.facts.enterScope
      visits := { node } :: w.visits }
  learnArm node
  return .process node

/-- The polarity, the reason and the condition of a guard. -/
def guardParts (g : Graph) (id : NodeId) : Except Fault (Bool × Reason × NodeId) := do
  let n ← g.node id
  match n.kind with
  | .guard negated reason =>
    let condition ← expect n.inputs.head? (.guardWithoutCondition id)
    return (negated, reason, condition)
  | kind => throw (.internal (.notGuard id kind))

/-- The guard just before `later` at the same anchor, if it has the same reason and its test follows
from the given condition. -/
def redundantNeighbour? (g : Graph) (anchor later : NodeId) (reason : Reason) (c : Condition)
    (truth : Bool) : Except Fault (Option NodeId) := do
  match ((g.guardsAt anchor).filter (· < later)).getLast? with
  | none => return none
  | some earlier =>
    let n ← g.node earlier
    match n.kind with
    | .guard negated other =>
      if other = reason then
        let condition ← expect n.inputs.head? (.guardWithoutCondition earlier)
        match ← g.condition condition with
        | .constant _ => return none
        | .predicate weaker =>
          if Facts.implies g.classes c truth weaker (weaker.testTruth !negated) then
            return some earlier
          else return none
      else return none
    | _ => return none

/-- Lets the weaker guard test what the carrier tests, and removes the carrier. -/
def moveTest (g : Graph) (carrier weaker : NodeId) : Except Fault Graph := do
  let n ← g.node carrier
  return ((g.setKind weaker n.kind n.inputs).replaceGuard carrier (some weaker)).delete carrier

/-- Folds a guard into the guards before it as long as it makes them redundant, and returns the guard
that carries its test in the end. The guards at the anchor bound the number of steps. -/
def foldIntoEarlier (anchor : NodeId) (reason : Reason) (c : Condition) (truth : Bool) :
    Nat → NodeId → Attempt Walk NodeId
  | 0, carrier => return carrier
  | bound + 1, carrier => do
    match ← Attempt.ask fun w : Walk => redundantNeighbour? w.graph anchor carrier reason c truth with
    | none => return carrier
    | some weaker =>
      onGraph fun g => return ((), ← moveTest g carrier weaker)
      modify fun w =>
        { w with tally := { w.tally with guardsEliminated := w.tally.guardsEliminated + 1 } }
      modify fun w => w.record method .guardEliminated carrier
        ("folded into " ++ NodeId.text weaker ++ ", which now tests " ++ c.text)
      foldIntoEarlier anchor reason c truth bound weaker

/-- Removes a guard that always passes; its users rely on what proves it instead. -/
def eliminateGuard (w : Walk) (anchor guard : NodeId) (source : Source) : Walk :=
  let graph := (w.graph.replaceGuard guard (some (source.guard?.getD anchor))).delete guard
  let tally := { w.tally with guardsEliminated := w.tally.guardsEliminated + 1 }
  { w with graph, tally }.record method .guardEliminated guard ("implied by " ++ source.text)

def settleGuard (anchor guard : NodeId) (reason : Reason) (holds : Bool) (source : Source) :
    Attempt Walk (Option DeferredEdit) := do
  if holds then
    modify fun w => w.eliminateGuard method anchor guard source
    return none
  else if config.strengthenGuards then return some (.strengthen guard reason)
  else return none

/-- Removes a guard that always passes, defers the trap of one that always fails, and learns what an
undecided one establishes. -/
def processGuard (anchor guard : NodeId) : Attempt Walk (Option DeferredEdit) := do
  let (negated, reason, condition) ← Attempt.ask fun w : Walk => guardParts w.graph guard
  match ← Attempt.ask fun w : Walk => w.graph.condition condition with
  | .constant value => settleGuard config method anchor guard reason (value = !negated) .stamp
  | .predicate c =>
    let truth := c.testTruth !negated
    match (← get).facts.lookup? c with
    | some e => settleGuard config method anchor guard reason (e.truth = truth) e.source
    | none =>
      let carrier ← foldIntoEarlier method anchor reason c truth (← get).graph.capacity guard
      modify fun w => { w with facts := (w.facts.push c truth carrier).2 }
      return none

/-- Processes guards in order, up to the first that always fails. -/
def processGuards (anchor : NodeId) : List NodeId → Attempt Walk (Option DeferredEdit)
  | [] => return none
  | guard :: rest => do
    match ← processGuard config method anchor guard with
    | some edit => return some edit
    | none => processGuards anchor rest

/-- The truth of a branch's condition, with the arms for true and false. -/
def branchTruth? (w : Walk) (split : NodeId) : Except Fault (Option Bool × NodeId × NodeId) := do
  let n ← w.graph.node split
  let condition ← expect n.inputs.head? (.branchWithoutCondition split)
  match n.successors with
  | [yes, no] =>
    match ← w.graph.condition condition with
    | .constant value => return (some value, yes, no)
    | .predicate c => return ((w.facts.lookup? c).map fun e => c.conditionTruth e.truth, yes, no)
  | _ => throw (.internal (.notTwoArms split))

/-- Defers the folding of a decided branch; the arm not taken is not entered. -/
def processBranch (split : NodeId) : Attempt Walk (Option DeferredEdit) := do
  if config.foldBranches then
    let (truth?, yes, no) ← Attempt.ask fun w : Walk => w.branchTruth? split
    match truth? with
    | none => return none
    | some truth =>
      modify fun w => { w with excluded := (if truth then no else yes) :: w.excluded }
      return some (.foldBranch truth)
  else return none

/-- What a visit has to enter. -/
def childrenToEnter (w : Walk) (v : Visit) : List NodeId :=
  if v.traps then [] else w.pendingChildren v.node

/-- Notes with the innermost visit what has to wait and what is to be entered, and goes on. -/
def defer (deferred : Option DeferredEdit) : Attempt Walk Stage := do
  modify fun w =>
    match w.visits with
    | v :: outer =>
      { w with visits := { v with deferred, pending := w.childrenToEnter { v with deferred } } :: outer }
    | [] => w
  modifyGet nextStage

def process (node : NodeId) : Attempt Walk Stage := do
  let n ← Attempt.ask fun w : Walk => w.graph.node node
  let ofGuards ← processGuards config method node ((← get).graph.guardsAt node)
  let deferred ←
    if ofGuards.isNone && n.kind = .branch then processBranch config node else pure ofGuards
  defer deferred

/-- Makes a deferred edit at a node the walk has left. Returns the changed nodes and whether a control
edge was moved. -/
def applyEdit (node : NodeId) : DeferredEdit → Attempt Walk (List NodeId × Bool)
  | .strengthen guard reason => do
    let s ← onGraph fun g => g.strengthenGuard node guard reason
    modify fun w =>
      { w with tally := { w.tally with guardsStrengthened := w.tally.guardsStrengthened + 1 } }
    modify fun w => w.record method .guardStrengthened guard
      ("always fails, " ++ NodeId.text node ++ " now traps at " ++ NodeId.text s.trap)
    return (s.removed ++ s.detached.toList, s.detached.isSome)
  | .foldBranch truth => do
    let folded ← onGraph fun g => g.foldBranch node truth
    modify fun w =>
      { w with tally := { w.tally with branchesFolded := w.tally.branchesFolded + 1 } }
    modify fun w => w.record method .branchFolded node
      ("always continues to " ++ NodeId.text folded.taken)
    return ([node, folded.dead], true)

def refill (w : Walk) (v : Visit) : Visit :=
  if v.traps then v else { v with pending := w.pendingChildren v.node }

/-- Computes the tree anew, and with it the children that the open visits have yet to enter. -/
def rebuild (w : Walk) : Walk :=
  let w := { w with
    dominators := w.graph.dominators
    tally := { w.tally with rebuilds := w.tally.rebuilds + 1 }
    log := w.log.record { kind := .dominatorRebuilt, method, pass := some passName } }
  { w with visits := w.visits.map w.refill }

def leave (v : Visit) (outer : List Visit) : Attempt Walk Unit := do
  modify fun w => { w with visits := outer, facts := w.facts.exitScope }
  match v.deferred with
  | none => return ()
  | some edit =>
    let (changed, moved) ← applyEdit method v.node edit
    let changes ← Attempt.onPart (·.graph) (fun w graph => { w with graph }) (Graph.cleanUp changed)
    modify fun w => { w with edited := true }
    if (moved || changes.edgeRemoved) && !outer.isEmpty then modify (·.rebuild method)

def ascend : Attempt Walk Stage := do
  match (← get).visits with
  | [] => return .done
  | v :: outer =>
    leave method v outer
    modifyGet nextStage

def advance : Stage → Attempt Walk Stage
  | .descend node => descend node
  | .process node => process config method node
  | .ascend _ => ascend method
  | .done => return .done

def stages : Nat → Stage → Attempt Walk Unit
  | 0, _ => return ()
  | bound + 1, stage => do
    match stage with
    | .done => return ()
    | stage => stages bound (← advance config method stage)

/-- How many stages a walk can have. Every node is entered, processed and left at most once, and a
node added on the way takes the place of a guard. -/
def stageBound (g : Graph) : Nat :=
  3 * (g.capacity + g.guardCount) + 1

/-- Walks from the start node to the end. -/
def run : Attempt Walk Unit := do
  stages config method (stageBound (← get).graph) (.descend Graph.start)

end Walk

end GuardElision
