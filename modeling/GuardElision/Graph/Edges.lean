import GuardElision.Attempt
import GuardElision.Graph.Basic

namespace GuardElision

namespace Graph

def fetch (id : NodeId) : Attempt Graph Node :=
  .ask fun g => g.node id

def edit (id : NodeId) (f : Node → Node) : Attempt Graph Unit := do
  let _ ← fetch id
  Attempt.update fun g : Graph => g.modify id f

/-- Adds an edge behind those that its ends have. -/
def link (source target : NodeId) : Attempt Graph Unit := do
  let _ ← fetch target
  edit source fun n => { n with successors := n.successors ++ [target] }
  edit target fun n => { n with predecessors := n.predecessors ++ [source] }

/-- Where `source` first stands among the predecessors in the slot of `target`. -/
def predecessorIndex? (g : Graph) (source target : NodeId) : Option Nat :=
  g.nodes[target]?.bind fun n => n.predecessors.idxOf? source

def dropPredecessor (g : Graph) (source target : NodeId) : Graph :=
  g.modify target fun n => { n with predecessors := n.predecessors.erase source }

/-- Removes one edge and returns the position it had among the predecessors of its target. A missing
edge is no fault. -/
def unlink (source target : NodeId) : Attempt Graph (Option Nat) := do
  let n ← fetch source
  if n.successors.contains target then
    Attempt.update fun g : Graph => g.modify source fun n => { n with successors := n.successors.erase target }
    let index? := (← get).predecessorIndex? source target
    Attempt.update fun g : Graph => g.dropPredecessor source target
    return index?
  else return none

def setSuccessor (g : Graph) (source : NodeId) (position : Nat) (target : NodeId) : Graph :=
  g.modify source fun n => { n with successors := n.successors.set position target }

/-- Removes the inputs at one position from all phis of a merge. -/
def dropPhiInput (g : Graph) (merge : NodeId) (index : Nat) : Graph :=
  (g.phisOf merge).foldl
    (fun g phi => g.modify phi fun n => { n with inputs := n.inputs.eraseIdx index }) g

/-- Lets the edge from `source` to `old` lead to `new`. The edge keeps its place among the
successors, and the phis of `old` lose the inputs that belong to it. -/
def relink (source old new : NodeId) : Attempt Graph Unit := do
  let _ ← fetch new
  let n ← fetch source
  match n.successors.idxOf? old with
  | none => throw (.internal (.notSuccessor old source))
  | some position =>
    Attempt.update fun g : Graph => g.setSuccessor source position new
    let index? := (← get).predecessorIndex? source old
    Attempt.update fun g : Graph => g.dropPredecessor source old
    index?.forM fun index => Attempt.update fun g : Graph => g.dropPhiInput old index
    edit new fun n => { n with predecessors := n.predecessors ++ [source] }

def addEdge (g : Graph) (source target : NodeId) : Except Fault Graph :=
  (link source target).final g

def removeEdge (g : Graph) (source target : NodeId) : Except Fault (Option Nat × Graph) :=
  (unlink source target).finalWith g

/-- Removes an edge, and from the phis of its target the inputs that belong to it. -/
def detachEdge (g : Graph) (source target : NodeId) : Except Fault Graph := do
  let (index?, g) ← g.removeEdge source target
  match index? with
  | some index => return g.dropPhiInput target index
  | none => return g

def redirectEdge (g : Graph) (source old new : NodeId) : Except Fault Graph :=
  (relink source old new).final g

end Graph

end GuardElision
