import GuardElision.Flow.Cycle
import GuardElision.Flow.Dominators
import GuardElision.Graph.Basic

namespace GuardElision

namespace Graph

/-- The predecessors of a node, less the loop ends that lead back to a loop header. -/
def forwardPredecessors (g : Graph) (id : NodeId) : List NodeId :=
  match g.get? id with
  | none => []
  | some n =>
    n.predecessors.filter fun p => !(n.kind = .loopBegin && g.kind? p = some .loopEnd)

def liveForwardPredecessors (g : Graph) (id : NodeId) : List NodeId :=
  (g.forwardPredecessors id).filter g.isLive

def forwardSuccessors (g : Graph) (id : NodeId) : List NodeId :=
  match g.get? id with
  | none => []
  | some n =>
    if n.kind.isControl && n.kind ≠ .loopEnd then n.successors.filter g.isLive else []

def forwardFlow (g : Graph) : Digraph :=
  ⟨g.capacity, g.forwardSuccessors⟩

def dominators (g : Graph) : DominatorTree :=
  g.forwardFlow.dominators start

end Graph

end GuardElision
