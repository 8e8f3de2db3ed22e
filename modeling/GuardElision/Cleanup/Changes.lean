import GuardElision.Attempt
import GuardElision.Event
import GuardElision.Graph.Edges

namespace GuardElision

/-- What was changed: the nodes in the order they were changed or removed, and whether a control
edge went away. -/
structure Changes where
  nodes : List NodeId := []
  edgeRemoved : Bool := false
deriving DecidableEq

namespace Changes

def isEmpty (c : Changes) : Bool :=
  c.nodes.isEmpty && !c.edgeRemoved

def note (c : Changes) (id : NodeId) : Changes :=
  { c with nodes := c.nodes ++ [id] }

def noteAll (c : Changes) (ids : List NodeId) : Changes :=
  { c with nodes := c.nodes ++ ids }

def noteEdge (c : Changes) : Changes :=
  { c with edgeRemoved := true }

def append (c d : Changes) : Changes :=
  ⟨c.nodes ++ d.nodes, c.edgeRemoved || d.edgeRemoved⟩

end Changes

/-- A graph being worked on, with the record of what was done to it. -/
structure Draft where
  graph : Graph
  log : EventLog := {}

namespace Draft

def record (d : Draft) (e : Event) : Draft :=
  { d with log := d.log.record e }

end Draft

/-- The two arms of a folded branch. -/
structure FoldedBranch where
  taken : NodeId
  dead : NodeId

/-- What turning a guard into a trap did. -/
structure Strengthened where
  trap : NodeId
  /-- Where control went before. -/
  detached : Option NodeId
  removed : List NodeId

namespace Graph

def logicConstant? (g : Graph) (id : NodeId) : Option Bool :=
  match g.kind? id with
  | some (.logicConstant b) => some b
  | _ => none

/-- Makes a branch whose condition is decided a plain step to the arm that is taken. -/
def foldBranch (g : Graph) (split : NodeId) (truth : Bool) : Except Fault (FoldedBranch × Graph) := do
  let n ← g.node split
  ensure (n.kind = .branch) (.notBranch split n.kind)
  match n.successors with
  | [yes, no] =>
    let folded : FoldedBranch := if truth then ⟨yes, no⟩ else ⟨no, yes⟩
    let (_, g) ← g.removeEdge split folded.dead
    return (folded, g.setKind split .begin [])
  | _ => throw (.internal (.notTwoArms split))

/-- Lets control trap at `anchor` where `guard` always fails, and removes that guard and those tested
after it. -/
def strengthenGuard (g : Graph) (anchor guard : NodeId) (reason : Reason) :
    Except Fault (Strengthened × Graph) := do
  let n ← g.node anchor
  let detached := n.successors.head?
  let (trap, g) := g.add { kind := .deoptimize reason, synthetic := true }
  let g ← match detached with
    | some old => g.redirectEdge anchor old trap
    | none => g.addEdge anchor trap
  let removed := (g.guardsAt anchor).filter (guard ≤ ·)
  return (⟨trap, detached, removed⟩, removed.foldl delete g)

end Graph

end GuardElision
