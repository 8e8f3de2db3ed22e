import GuardElision.Graph.Forward
import GuardElision.IdMap

/-!
Where floating nodes can execute: at the deepest control node among those of their guard, their memory state
and their inputs.
-/

namespace GuardElision

structure Placement where
  graph : Graph
  dominators : DominatorTree

namespace Placement

def ofGraph (g : Graph) : Placement := ⟨g, g.dominators⟩

/-- Positions found so far; a node without one depends on control that is never reached. -/
abbrev Memo := IdMap (Option NodeId)

abbrev Search := StateT Memo (Except Fault)

/-- The deepest of the positions `id` depends on, none if one of them is unreachable, and the start
if there are none at all. -/
def deepest? (p : Placement) (id : NodeId) (positions : List NodeId) : Except Fault (Option NodeId) :=
  if positions.all p.dominators.isReachable then
    match p.dominators.deepest? positions with
    | none => .ok (some Graph.start)
    | some deepest =>
      match positions.find? fun q => !p.dominators.dominates q deepest with
      | some stray => .error (.internal (.notOnOneChain id stray deepest))
      | none => .ok (some deepest)
  else .ok none

def reachable? (p : Placement) (control : NodeId) : Option NodeId :=
  if p.dominators.isReachable control then some control else none

/-- The positions a node depends on apart from its inputs: of its guard and its memory state. -/
def ownPositions (p : Placement) (id : NodeId) (n : Node) : Except Fault (List NodeId) := do
  match n.guard with
  | none => return n.memory.toList
  | some guard =>
    let position ← expect (p.graph.guardPosition? guard) (.guardedByRemoved id guard)
    return position :: n.memory.toList

/-- The position of a node. The bound counts how many inputs deep the search may go. -/
def position? (p : Placement) : Nat → NodeId → Search (Option NodeId)
  | 0, id => throw (.internal (.cyclicValue id))
  | bound + 1, id => do
    match (← get).get? id with
    | some known => return known
    | none =>
      let n ← p.graph.node id
      let position ← match n.kind with
        | .guard _ _ | .phi =>
          let anchor ← expect n.anchor (.withoutAnchor id n.kind)
          pure (p.reachable? anchor)
        | .parameter _ | .constant _ | .logicConstant _ => pure (some Graph.start)
        | kind =>
          if kind.isControl then pure (p.reachable? id)
          else
            let own ← p.ownPositions id n
            let all ← n.inputs.foldlM
              (fun (acc : Option (List NodeId)) input =>
                match acc with
                | none => pure none
                | some found => do
                  match ← p.position? bound input with
                  | some q => pure (some (found ++ [q]))
                  | none => pure none)
              (some own)
            match all with
            | some positions => p.deepest? id positions
            | none => pure none
      modify (·.insert id position)
      return position

/-- A chain of inputs passes each node of the graph at most once. -/
def bound (p : Placement) : Nat :=
  p.graph.capacity + 1

/-- Where `user` needs `value`: a phi at the ends of the predecessors the value comes from, any other
node at its own position. -/
def usePositions (p : Placement) (user value : NodeId) : Search (List NodeId) := do
  let n ← p.graph.node user
  match n.kind with
  | .phi =>
    let merge ← expect n.anchor (.phiWithoutMerge user)
    let m ← p.graph.node merge
    return (n.inputs.zip m.predecessors).filterMap fun e => if e.1 = value then some e.2 else none
  | _ => return (← p.position? p.bound user).toList

/-- Checks that one value's position dominates each of its uses. -/
def checkValue (p : Placement) (value : NodeId) : Search Unit := do
  match ← p.position? p.bound value with
  | none => return ()
  | some position =>
    (p.graph.usages value).forM fun user => do
      (← p.usePositions user value).forM fun use =>
        ensure (!p.dominators.isReachable use || p.dominators.dominates position use)
          (.useNotDominated value position user use)

end Placement

namespace Graph

/-- The position of every read that has one, by read. -/
def readPositions (g : Graph) : Except Fault (List (NodeId × NodeId)) :=
  let p := Placement.ofGraph g
  let reads := g.select fun n => match n.kind with
    | .read _ => true
    | _ => false
  let place (id : NodeId) : Placement.Search (Option (NodeId × NodeId)) := do
    return (← p.position? p.bound id).map (id, ·)
  (reads.mapM place).run' {} |>.map (·.filterMap id)

/-- Checks that every floating node can be placed above all its uses. -/
def checkPlacement (g : Graph) : Except Fault Unit :=
  ((g.select (!·.kind.isControl)).forM (Placement.ofGraph g).checkValue).run' {}

end Graph

end GuardElision
