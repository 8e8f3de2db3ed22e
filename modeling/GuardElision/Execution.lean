import GuardElision.Graph.Basic
import GuardElision.IdMap

/-!
What a graph does when it runs. Guards are tested in id order before control leaves their anchor, and
floating nodes are evaluated on demand.
-/

namespace GuardElision

inductive Outcome where
  | returned (value : Option Value)
  | trapped (reason : Reason)
deriving DecidableEq

/-- The state of a run. -/
structure Frame where
  args : List Value
  /-- Values found since the last merge. -/
  cache : IdMap Value := .empty
  phis : IdMap Value := .empty
  /-- The epoch recorded at each memory state that control has passed. -/
  epochs : IdMap Nat := .empty
  /-- The number of calls so far. -/
  epoch : Nat := 0

abbrev Exec := StateT Frame (Except Fault)

abbrev Evaluator := NodeId → Exec Value

namespace Exec

variable (g : Graph) (heap : Heap)

def input (id : NodeId) (n : Node) (i : Nat) : Except Fault NodeId :=
  expect n.inputs[i]? (.missingInput id n.kind i)

/-- The value of a field as seen in the memory state of a read. -/
def readField (id : NodeId) (memory : Option NodeId) (o : Obj) (field : Nat) : Exec Value := do
  let memory ← expect memory (.readWithoutMemory id)
  let epoch ← expect ((← get).epochs.get? memory) (.readBeforeMemory id memory)
  match Word.ofInt? ((o.field field).toInt + epoch) with
  | some v => return .int v
  | none => throw .overflow

/-- The value of a node, from the values of its inputs. -/
def compute (eval : Evaluator) (id : NodeId) (n : Node) : Exec Value := do
  match n.kind with
  | .parameter index =>
    match (← get).args[index]? with
    | some v => return v
    | none => throw (.graph (.missingArgument index))
  | .constant (.int v) => return .int v
  | .constant .null => return .null
  | .logicConstant b => return .bool b
  | .pi => eval (← input id n 0)
  | .phi => expect ((← get).phis.get? id) (.phiBeforeMerge id)
  | .isNull => return .bool ((← eval (← input id n 0)) = .null)
  | .instanceOf cls =>
    match ← eval (← input id n 0) with
    | .ref i => return .bool (heap[i]?.any fun o => g.classes.isSubclass o.cls cls)
    | _ => return .bool false
  | .compare op =>
    let a ← eval (← input id n 0)
    let b ← eval (← input id n 1)
    match Value.compare? op a b with
    | some truth => return .bool truth
    | none => throw (.graph (.incomparable id a op b))
  | .read field =>
    match ← eval (← input id n 0) with
    | .ref i =>
      match heap[i]? with
      | some o => readField id n.memory o field
      | none => throw (.graph (.danglingReference i))
    | .null => throw (.nullDereference id)
    | v => throw (.graph (.readsFrom id v))
  | kind => throw (.internal (.noValue id kind))

/-- Evaluates every node afresh. The bound counts how many inputs deep evaluation may go. -/
def evalFresh : Nat → Evaluator
  | 0, id => throw (.internal (.cyclicValue id))
  | bound + 1, id => do
    let n ← g.node id
    compute g heap (evalFresh bound) id n

/-- Evaluates a node at most once between two merges. -/
def evalCached : Nat → Evaluator
  | 0, id => throw (.internal (.cyclicValue id))
  | bound + 1, id => do
    match (← get).cache.get? id with
    | some v => return v
    | none =>
      let n ← g.node id
      let v ← compute g heap (evalCached bound) id n
      modify fun f => { f with cache := f.cache.insert id v }
      return v

variable (eval : Evaluator)

def evalBool (id : NodeId) : Exec Bool := do
  match ← eval id with
  | .bool b => return b
  | v => throw (.graph (.notBoolean id v))

/-- Gives the phis of a merge the values of their inputs from the predecessor control came from. All
inputs are evaluated before any phi changes. -/
def enterMerge (merge : NodeId) (source : Option NodeId) : Exec Unit := do
  let source ← expect source (.mergeEnteredAlone merge)
  let n ← g.node merge
  let index ← expect (n.predecessors.idxOf? source) (.notPredecessor source merge)
  let incoming ← (g.phisOf merge).mapM fun phi => do
    let p ← g.node phi
    let input ← expect p.inputs[index]? (.phiWithoutInput phi index)
    return (phi, ← eval input)
  modify fun f =>
    { f with cache := .empty, phis := incoming.foldl (fun m e => m.insert e.1 e.2) f.phis }

/-- Counts a call and records the epoch where a memory state begins. -/
def recordEpoch (id : NodeId) (kind : Kind) : Exec Unit :=
  modify fun f =>
    let epoch := if kind = .invoke then f.epoch + 1 else f.epoch
    { f with epoch, epochs := if kind.killsMemory then f.epochs.insert id epoch else f.epochs }

/-- The reason of the first guard in a list whose test fails. -/
def failingGuard? : List NodeId → Exec (Option Reason)
  | [] => return none
  | id :: rest => do
    let n ← g.node id
    match n.kind with
    | .guard negated reason =>
      let condition ← expect n.inputs.head? (.guardWithoutCondition id)
      if (← evalBool eval condition) = negated then return some reason
      else failingGuard? rest
    | _ => failingGuard? rest

def follow (id : NodeId) : Option NodeId → Exec (Outcome ⊕ NodeId)
  | some next => return .inr next
  | none => throw (.graph (.fallsOff id))

/-- Where control goes from a node whose guards have passed. -/
def leave (id : NodeId) (n : Node) : Exec (Outcome ⊕ NodeId) := do
  match n.kind with
  | .ret =>
    match n.inputs.head? with
    | some input => return .inl (.returned (some (← eval input)))
    | none => return .inl (.returned none)
  | .deoptimize reason => return .inl (.trapped reason)
  | .branch =>
    let condition ← expect n.inputs.head? (.ifWithoutCondition id)
    let truth ← evalBool eval condition
    follow id (if truth then n.successors[0]? else n.successors[1]?)
  | _ => follow id n.successors.head?

/-- Executes one control node. -/
def step (previous : Option NodeId) (id : NodeId) : Exec (Outcome ⊕ NodeId) := do
  let n ← g.node id
  if n.kind.isMerge then enterMerge g eval id previous
  recordEpoch id n.kind
  let trap ← if n.kind.isAnchor then failingGuard? g eval (g.guardsAt id) else pure none
  match trap with
  | some reason => return .inl (.trapped reason)
  | none => leave eval id n

/-- Executes at most the given number of control nodes. -/
def steps : Nat → Option NodeId → NodeId → Exec (Option Outcome)
  | 0, _, _ => return none
  | n + 1, previous, id => do
    match ← step g eval previous id with
    | .inl outcome => return some outcome
    | .inr next => steps n (some id) next

end Exec

namespace Graph

/-- Runs a graph with a given way to evaluate nodes. -/
def runWith (g : Graph) (eval : Evaluator) (limit : Nat) (args : List Value) : Except Fault Outcome := do
  match ← (Exec.steps g eval limit none start).run' { args } with
  | some outcome => return outcome
  | none => throw (.stepLimit limit)

/-- Runs a graph for at most `limit` control nodes. Chains of inputs pass each node at most once, so
the capacity bounds how deep evaluation goes. -/
def run (g : Graph) (heap : Heap) (limit : Nat) (args : List Value) : Except Fault Outcome :=
  g.runWith (Exec.evalCached g heap (g.capacity + 1)) limit args

/-- Runs a graph and evaluates every node afresh each time it is needed. -/
def runFresh (g : Graph) (heap : Heap) (limit : Nat) (args : List Value) : Except Fault Outcome :=
  g.runWith (Exec.evalFresh g heap (g.capacity + 1)) limit args

end Graph

end GuardElision
