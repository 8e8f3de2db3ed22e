import GuardElision.Cleanup.Changes
import GuardElision.Graph.Forward

/-!
Cleaning up around an edit: control nodes that lost their last predecessor, floating nodes that depend on a
removed node, and merges with one predecessor left.
-/

namespace GuardElision

structure Sweep where
  graph : Graph
  changes : Changes := {}
  /-- Nodes, most of them removed, whose users may have to go. -/
  floating : List NodeId := []
  /-- Merges that may have lost a predecessor. -/
  merges : List NodeId := []

namespace Sweep

def onGraph (f : Graph → Except Fault Graph) : Attempt Sweep Unit :=
  .step fun s => return { s with graph := ← f s.graph }

def drop (s : Sweep) (id : NodeId) : Sweep :=
  { s with graph := s.graph.delete id, changes := s.changes.note id, floating := s.floating ++ [id] }

def noteMerge (id : NodeId) (kind : Kind) : Attempt Sweep Unit :=
  modify fun s => if kind.isMerge then { s with merges := s.merges ++ [id] } else s

/-- Removes a control node with its edges to the given successors, its guards and its phis. -/
def removeControl (id : NodeId) (successors : List NodeId) : Attempt Sweep Unit := do
  successors.forM fun next => do
    onGraph (·.detachEdge id next)
    modify fun s => { s with changes := s.changes.noteEdge }
  modify fun s => (s.graph.guardsAt id ++ s.graph.phisOf id ++ [id]).foldl drop s

/-- Takes one control node off the list. If nothing leads to it any more it goes, and its successors
are to be looked at next. -/
def pruneNode (id : NodeId) : Attempt Sweep (List NodeId) := do
  let g := (← get).graph
  match g.get? id with
  | none => return []
  | some n =>
    if n.kind = .start then return []
    else
      noteMerge id n.kind
      if (g.liveForwardPredecessors id).isEmpty then
        removeControl id n.successors
        return n.successors
      else return []

/-- Takes control nodes off a stack until it is empty. A node that goes puts its successors on the
stack and gives up its edges to them, so nodes on the stack and edges together bound the work. -/
def prune : Nat → List NodeId → Attempt Sweep Unit
  | _, [] => return ()
  | 0, _ :: _ => return ()
  | bound + 1, id :: rest => do
    let next ← pruneNode id
    prune bound (next.reverse ++ rest)

/-- The number of control edges, those of removed nodes included. -/
def edgeCount (g : Graph) : Nat :=
  (g.nodes.toList.flatMap (·.successors)).length

/-- A floating node that depends on a removed node. -/
def isOrphan (g : Graph) (id : NodeId) : Bool :=
  (g.get? id).any fun n => !n.kind.isControl && n.dependencies.any (!g.isLive ·)

def dropOrphan (work : Sweep × List NodeId) (id : NodeId) : Sweep × List NodeId :=
  if isOrphan work.1.graph id then
    ({ work.1 with graph := work.1.graph.delete id, changes := work.1.changes.note id }, id :: work.2)
  else work

/-- Removes orphans among the nodes on the stack and among the users of those that are gone. Each
node put on the stack was alive before, so stack and live nodes together bound the work. -/
def dropOrphans : Nat → List NodeId → Sweep → Sweep
  | _, [], s => s
  | 0, _ :: _, s => s
  | bound + 1, id :: rest, s =>
    let candidates := if s.graph.isLive id then [id] else s.graph.usages id
    let (s, rest) := candidates.foldl dropOrphan (s, rest)
    dropOrphans bound rest s

/-- Walks up forward control flow to the node whose memory state holds. Where the bound runs out the
walk has come to a node twice, and no further step would bring it to an end. -/
def memoryAbove (g : Graph) (control : NodeId) : Nat → NodeId → Except Fault NodeId
  | 0, _ => .error (.endless control)
  | bound + 1, id => do
    let kind ← expect (g.kind? id) (.memoryWalkRemoved id)
    if kind.killsMemory then return id
    else
      let above ← expect (g.forwardPredecessors id).head? (.noMemoryAbove control)
      memoryAbove g control bound above

/-- The memory state behind a control node. The nodes on the way are live, so a walk longer than the
capacity is endless. -/
def memoryState (g : Graph) (control : NodeId) : Except Fault NodeId :=
  memoryAbove g control (g.capacity + 1) control

/-- Gives the users of a phi its first input instead, and removes the phi. -/
def resolvePhi (merge phi : NodeId) : Attempt Sweep Unit := do
  let n ← Attempt.ask fun s : Sweep => s.graph.node phi
  match n.inputs.head?.filter (· ≠ phi) with
  | some value =>
    modify fun s =>
      { s with graph := (s.graph.replaceInput phi value).delete phi, changes := s.changes.note phi }
  | none => throw (.internal (.phiUnusable phi merge))

/-- Makes a merge with a single predecessor a plain step: its phis are their only inputs, and its
memory state is that of the predecessor. -/
def simplifyMerge (merge : NodeId) : Attempt Sweep Unit := do
  let g := (← get).graph
  match g.get? merge with
  | some { kind, predecessors := [source], .. } =>
    if kind.isMerge then
      (g.phisOf merge).forM (resolvePhi merge)
      let memory ← Attempt.ask fun s : Sweep => memoryState s.graph source
      modify fun s =>
        { s with
          graph := (s.graph.replaceMemory merge memory).modify merge ({ · with kind := .begin })
          changes := s.changes.note merge }
  | _ => return ()

def constantBranch? (g : Graph) (id : NodeId) : Option Bool :=
  match g.get? id with
  | some { kind := .branch, inputs := condition :: _, .. } => g.logicConstant? condition
  | _ => none

/-- Sorts out one changed node, and folds it if it is a branch on a constant. The control nodes to
look at are returned. -/
def seed (id : NodeId) : Attempt Sweep (List NodeId) := do
  let g := (← get).graph
  if g.isControl id then
    match constantBranch? g id with
    | some truth =>
      let folded ← Attempt.stepWith fun s : Sweep => do
        let (folded, graph) ← s.graph.foldBranch id truth
        return (folded, { s with graph, changes := (s.changes.note id).noteEdge })
      return [folded.dead]
    | none => return [id]
  else
    modify fun s => { s with floating := s.floating ++ [id] }
    return []

def run (changed : List NodeId) : Attempt Sweep Unit := do
  let control ← changed.flatMapM seed
  prune (control.length + edgeCount (← get).graph) control.reverse
  modify fun s => dropOrphans (s.floating.length + s.graph.liveCount) s.floating.reverse s
  ((← get).merges ++ changed).eraseDups.forM simplifyMerge

end Sweep

namespace Graph

def cleanUp (changed : List NodeId) : Attempt Graph Changes := fun g =>
  match Sweep.run changed { graph := g } with
  | .ok _ s => .ok s.changes s.graph
  | .error e s => .error e s.graph

end Graph

end GuardElision
