import GuardElision.Graph.Forward

/-!
The structural invariants of a graph, checked node by node in id order.
-/

namespace GuardElision

namespace Graph

def checkDependencies (g : Graph) (id : NodeId) (n : Node) : Except Fault Unit := do
  n.dependencies.forM fun d => ensure (g.isLive d) (.dependsOnRemoved id n.kind d)
  n.successors.forM fun s => ensure (g.isLive s) (.removedSuccessor id s)

/-- Successors are control nodes that list the edge as often, and predecessors list it at all. -/
def checkEdges (g : Graph) (id : NodeId) (n : Node) : Except Fault Unit := do
  n.successors.forM fun s => do
    let target ← g.node s
    ensure target.kind.isControl (.nonControlSuccessor id s)
    ensure (n.successors.count s = target.predecessors.count id) (.unmatchedSuccessor id s)
  n.predecessors.forM fun p => do
    let source ← g.node p
    ensure (source.successors.contains id) (.unmatchedPredecessor id p)

def checkSuccessors (g : Graph) (id : NodeId) (n : Node) : Except Fault Unit := do
  let count := n.successors.length
  match n.kind with
  | .branch =>
    ensure (count = 2) (.ifSuccessorCount id count)
    let condition ← expect n.inputs.head? (.ifWithoutCondition id)
    ensure (g.stamp condition).isLogic (.ifTestsNonLogic id condition)
  | .ret | .deoptimize _ => ensure (count = 0) (.terminalHasSuccessors id)
  | .loopEnd =>
    ensure (count = 1 && n.successors.head?.bind g.kind? = some .loopBegin) (.strayLoopEnd id)
  | .start =>
    ensure n.predecessors.isEmpty (.startHasPredecessors id)
    ensure (count ≤ 1) (.successorCount id n.kind count)
  | kind => ensure (!kind.isAnchor || count ≤ 1) (.successorCount id kind count)

def checkPredecessors (g : Graph) (id : NodeId) (n : Node) : Except Fault Unit :=
  match n.kind with
  | .begin | .branch | .invoke | .loopEnd | .ret | .deoptimize _ =>
    ensure (n.predecessors.length = 1) (.predecessorCount id n.kind n.predecessors.length)
  | .merge | .loopBegin =>
    ensure (!(g.forwardPredecessors id).isEmpty) (.mergeWithoutForwardPredecessor id)
  | _ => .ok ()

def checkFloating (g : Graph) (id : NodeId) (n : Node) : Except Fault Unit := do
  match n.kind with
  | .guard _ _ =>
    let condition ← expect n.inputs.head? (.guardWithoutCondition id)
    ensure (g.stamp condition).isLogic (.guardTestsNonLogic id condition)
    let anchor ← expect n.anchor (.guardWithoutAnchor id)
    ensure ((g.kind? anchor).any (·.isAnchor)) (.guardAtNonAnchor id anchor)
  | .phi =>
    let merge ← expect n.anchor (.phiWithoutMerge id)
    let m ← g.node merge
    ensure (m.kind.isMerge && n.inputs.length = m.predecessors.length)
      (.phiInputCount id n.inputs.length merge m.predecessors.length)
  | .pi => ensure (n.inputs.length = 1 && n.guard.isSome) (.piShape id)
  | .read _ => ensure (n.inputs.length = 1) (.readShape id)
  | .compare _ => ensure (n.inputs.length = 2) (.compareShape id)
  | .isNull | .instanceOf _ => ensure (n.inputs.length = 1) (.testShape id n.kind)
  | _ => return ()

def checkNode (g : Graph) (id : NodeId) : Except Fault Unit := do
  let n ← g.node id
  g.checkDependencies id n
  if n.kind.isControl then
    g.checkEdges id n
    g.checkSuccessors id n
    g.checkPredecessors id n
  else g.checkFloating id n

def checkStructure (g : Graph) : Except Fault Unit := do
  g.liveIds.forM g.checkNode
  match g.forwardFlow.findCycle? start with
  | some cycle => throw (.internal (.forwardCycle cycle))
  | none => return ()

end Graph

end GuardElision
