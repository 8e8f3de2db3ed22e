import GuardElision.Cleanup.Whole
import GuardElision.Elimination.Walk
import GuardElision.Graph.Structure
import GuardElision.Placement

namespace GuardElision

namespace Graph

/-- What a walk relies on: forward control flow has no cycle, and every control node but the start
has a live forward predecessor. -/
def checkWalkable (g : Graph) : Except Fault Unit := do
  ensure (!g.forwardFlow.hasCycle start) .cyclicForwardFlow
  g.controlIds.forM fun id => do
    let n ← g.node id
    ensure (id = start || !(g.liveForwardPredecessors id).isEmpty) (.withoutLivePredecessor id n.kind)

end Graph

namespace Draft

variable (config : EliminationConfig) (method : Option MethodId)

/-- One walk; says whether it edited control flow. -/
def walk (tally : Tally) : Attempt Draft (Tally × Bool) := do
  Attempt.ask fun d : Draft => d.graph.checkWalkable
  fun d =>
    match Walk.run config method (.ofGraph d.graph d.log tally) with
    | .ok _ w => .ok (w.tally, w.edited) ⟨w.graph, w.log⟩
    | .error e w => .error e ⟨w.graph, w.log⟩

def check : Attempt Draft Unit := do
  if config.checkStructure then Attempt.ask fun d : Draft => d.graph.checkStructure
  if config.checkPlacement then Attempt.ask fun d : Draft => d.graph.checkPlacement

/-- At most the given number of walks, until one edits nothing. -/
def walks : Nat → Tally → Attempt Draft Tally
  | 0, tally => return tally
  | n + 1, tally => do
    let (tally, edited) ← walk config method { tally with walks := tally.walks + 1 }
    check config
    if edited then walks n tally else return tally

/-- Removes the guards and branches that dominating conditions decide. -/
def eliminate : Attempt Draft Tally := do
  let tally ← walks config method (max config.maxWalks 1) {}
  if config.finalCleanup then
    let changes ← canonicalize method
    return { tally with nodesCanonicalized := changes.nodes.length }
  else return tally

end Draft

end GuardElision
