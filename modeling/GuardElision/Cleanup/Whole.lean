import GuardElision.Cleanup.Local
import GuardElision.Facts.Lookup

/-!
Canonicalizing a whole graph, in rounds until one of them changes nothing.
-/

namespace GuardElision

structure Round where
  draft : Draft
  changes : Changes := {}
  seeds : List NodeId := []

namespace Round

def event (method : Option MethodId) (kind : EventKind) (node : NodeId) (message : String) : Event :=
  { kind, method, node := some node, message }

def graph (r : Round) : Graph := r.draft.graph

def setGraph (r : Round) (graph : Graph) : Round :=
  { r with draft := { r.draft with graph } }

def note (r : Round) (ids : List NodeId) : Round :=
  { r with changes := r.changes.noteAll ids }

def record (r : Round) (e : Event) : Round :=
  { r with draft := r.draft.record e }

variable (method : Option MethodId)

/-- The truth of a logic node as far as stamps decide it. -/
def stampTruth? (g : Graph) (logic : NodeId) : Except Fault (Option Bool) := do
  match ← g.condition logic with
  | .constant value => return some value
  | .predicate c => return (Known.lookup? g.classes {} c).map fun e => c.conditionTruth e.truth

def foldCondition (id : NodeId) : Attempt Round Unit := do
  match ← Attempt.ask fun r : Round => stampTruth? r.graph id with
  | none => return ()
  | some value =>
    modify fun r =>
      ((r.setGraph (r.graph.setKind id (.logicConstant value) [])).note [id]).record
        (event method .constantFolded id s!"condition is always {value}")

def dropGuard (guard anchor : NodeId) : Attempt Round Unit :=
  modify fun r =>
    ((r.setGraph ((r.graph.replaceGuard guard (some anchor)).delete guard)).note [guard]).record
      (event method .guardEliminated guard "guard condition always holds")

def trapGuard (guard anchor : NodeId) (reason : Reason) : Attempt Round Unit :=
  .step fun r => do
    let (s, graph) ← r.graph.strengthenGuard anchor guard reason
    let r := (r.setGraph graph).note s.removed
    let r := { r with
      changes := r.changes.noteEdge
      seeds := r.seeds ++ s.detached.toList ++ s.removed }
    return r.record (event method .guardStrengthened guard
      ("guard always fails, trapping at " ++ NodeId.text s.trap))

def settleGuard (id : NodeId) : Attempt Round Unit := do
  let g := (← get).graph
  match g.get? id with
  | some { kind := .guard negated reason, anchor, inputs, .. } =>
    match anchor, inputs with
    | some anchor, condition :: _ =>
      let n ← Attempt.ask fun r : Round => r.graph.node condition
      match n.kind with
      | .logicConstant value =>
        if value ≠ negated then dropGuard method id anchor else trapGuard method id anchor reason
      | _ => return ()
    | _, _ => throw (.internal (.guardIncomplete id))
  | _ => return ()

def settleBranch (id : NodeId) : Attempt Round Unit := do
  let n ← Attempt.ask fun r : Round => r.graph.node id
  match n.inputs with
  | [] => throw (.internal (.branchWithoutCondition id))
  | condition :: _ =>
    let c ← Attempt.ask fun r : Round => r.graph.node condition
    match c.kind with
    | .logicConstant truth =>
      .step fun r : Round => do
        let (folded, graph) ← r.graph.foldBranch id truth
        let r := (r.setGraph graph).note [id]
        let r := { r with changes := r.changes.noteEdge, seeds := r.seeds ++ [folded.dead] }
        return r.record (event method .branchFolded id
          ("branch always continues to " ++ NodeId.text folded.taken))
    | _ => return ()

def cleanSeeds : Attempt Round Unit := fun r =>
  if r.seeds.isEmpty then .ok () r
  else
    match Graph.cleanUp r.seeds r.graph with
    | .ok c g => .ok () { r.setGraph g with changes := r.changes.append c }
    | .error e g => .error e (r.setGraph g)

def unused (g : Graph) : List NodeId :=
  (g.select (·.kind.isPure)).filter fun id => !g.hasUsages id

def dropUnused (r : Round) (id : NodeId) : Round :=
  ((r.setGraph (r.graph.delete id)).note [id]).record (event method .nodeRemoved id "unused value")

/-- Removes unused values until none are left. Each pass but the last removes a live node. -/
def sweepUnused : Nat → Round → Round
  | 0, r => r
  | bound + 1, r =>
    match unused r.graph with
    | [] => r
    | ids => sweepUnused bound (ids.foldl (dropUnused method) r)

def isUndecidedLogic (k : Kind) : Bool :=
  match k with
  | .logicConstant _ => false
  | k => k.isLogic

def run : Attempt Round Unit := do
  ((← get).graph.select (isUndecidedLogic ·.kind)).forM (foldCondition method)
  (← get).graph.liveIds.forM (settleGuard method)
  ((← get).graph.select (·.kind = .branch)).forM (settleBranch method)
  cleanSeeds
  modify fun r => sweepUnused method r.graph.liveCount r

end Round

namespace Draft

def canonicalizeOnce (method : Option MethodId) : Attempt Draft Changes := fun d =>
  match Round.run method { draft := d } with
  | .ok _ r => .ok r.changes r.draft
  | .error e r => .error e r.draft

def canonicalizeRounds (method : Option MethodId) : Nat → Changes → Attempt Draft Changes
  | 0, total => return total
  | bound + 1, total => do
    let changes ← canonicalizeOnce method
    if changes.isEmpty then return total
    else canonicalizeRounds method bound (total.append changes)

/-- Canonicalizes the graph. Let a guard, an undecided condition, a branch and a merge weigh two and
any other live node one: a round that changes anything lowers the weight, so twice the capacity
bounds their number. -/
def canonicalize (method : Option MethodId) : Attempt Draft Changes := do
  canonicalizeRounds method (2 * (← get).graph.capacity + 1) {}

end Draft

end GuardElision
