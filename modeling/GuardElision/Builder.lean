import GuardElision.Attempt
import GuardElision.Graph.Edges
import GuardElision.IdMap

/-!
Building graphs from the start node on. Control nodes are appended at a cursor, and each remembers the
memory state that holds behind it.
-/

namespace GuardElision

namespace Graph

/-- The phis of a loop header, provided that there are as many as values to go back with. -/
def loopPhis (g : Graph) (header : NodeId) (values : Nat) : Except Fault (List NodeId) := do
  let n ← g.node header
  if n.kind = .loopBegin then
    let phis := g.phisOf header
    if phis.length = values then return phis
    else throw (.graph (.backValueCount header phis.length values))
  else throw (.graph (.notLoopHeader header))

end Graph

structure Builder where
  graph : Graph
  /-- The control node that the next one follows. -/
  cursor : Option NodeId
  /-- The memory state behind each control node; where none is recorded, the start's. -/
  memory : IdMap NodeId
  parameters : Nat := 0

namespace Builder

def ofClasses (classes : ClassTable) : Builder where
  graph := .ofClasses classes
  cursor := some Graph.start
  memory := IdMap.empty.insert Graph.start Graph.start

/-- The cursor, provided that it can take a successor. -/
def openCursor (b : Builder) : Except Fault NodeId := do
  match b.cursor with
  | none => throw (.graph .noOpenPosition)
  | some cursor =>
    let n ← b.graph.node cursor
    if n.kind.isAnchor && n.successors.isEmpty then return cursor
    else throw (.graph (.closedPosition cursor n.kind))

def memoryAt (b : Builder) (control : NodeId) : NodeId :=
  (b.memory.get? control).getD Graph.start

def addNode (n : Node) : Attempt Builder NodeId :=
  modifyGet fun b =>
    let (id, graph) := b.graph.add n
    (id, { b with graph })

def addEdge (source target : NodeId) : Attempt Builder Unit :=
  .step fun b => return { b with graph := ← b.graph.addEdge source target }

def addInput (id input : NodeId) : Attempt Builder Unit :=
  modify fun b =>
    { b with graph := b.graph.modify id fun n => { n with inputs := n.inputs ++ [input] } }

def setCursor (cursor : Option NodeId) : Attempt Builder Unit :=
  modify fun b => { b with cursor }

def setMemory (control state : NodeId) : Attempt Builder Unit :=
  modify fun b => { b with memory := b.memory.insert control state }

/-- Appends a control node behind the cursor, which stays where it is. -/
def append (kind : Kind) : Attempt Builder NodeId := do
  let cursor ← .ask openCursor
  let memory := (← get).memoryAt cursor
  let id ← addNode { kind }
  addEdge cursor id
  setMemory id (if kind.killsMemory then id else memory)
  return id

/-- Appends a control node and moves the cursor to it. -/
def advance (kind : Kind) : Attempt Builder NodeId := do
  let id ← append kind
  setCursor (some id)
  return id

/-- Appends a control node and leaves no cursor. -/
def close (kind : Kind) : Attempt Builder NodeId := do
  let id ← append kind
  setCursor none
  return id

def parameter (stamp : Stamp) : Attempt Builder NodeId := do
  let index := (← get).parameters
  modify fun b => { b with parameters := index + 1 }
  addNode { kind := .parameter index, stamp }

def int (value : Word) : Attempt Builder NodeId :=
  addNode { kind := .constant (.int value), stamp := .int (.constant value) }

def null : Attempt Builder NodeId :=
  addNode { kind := .constant .null, stamp := .null }

def logic (value : Bool) : Attempt Builder NodeId :=
  addNode { kind := .logicConstant value, stamp := .logic }

def compare (op : Comparison) (a b : NodeId) : Attempt Builder NodeId :=
  addNode { kind := .compare op, stamp := .logic, inputs := [a, b] }

def isNull (x : NodeId) : Attempt Builder NodeId :=
  addNode { kind := .isNull, stamp := .logic, inputs := [x] }

def instanceOf (x : NodeId) (cls : ClassId) : Attempt Builder NodeId :=
  addNode { kind := .instanceOf cls, stamp := .logic, inputs := [x] }

/-- A guard at the cursor. Control goes on if the condition holds, or for a negated guard if it does
not. -/
def guard (condition : NodeId) (negated : Bool) (reason : Reason) : Attempt Builder NodeId := do
  let anchor ← .ask openCursor
  if (← get).graph.stamp condition |>.isLogic then
    addNode { kind := .guard negated reason, inputs := [condition], anchor := some anchor }
  else throw (.graph (.guardOnNonLogic condition))

/-- A value refined by what is known once a guard has passed. -/
def pi (value guard : NodeId) (stamp : Stamp) : Attempt Builder NodeId := do
  let g := (← get).graph
  match (g.stamp value).improve? g.classes stamp with
  | some improved => addNode { kind := .pi, stamp := improved, inputs := [value], guard := some guard }
  | none => throw (.graph (.contradictoryPi stamp value))

def read (object : NodeId) (field : Nat) (guard : Option NodeId) (stamp : Stamp) :
    Attempt Builder NodeId := do
  let b ← get
  match b.cursor with
  | some cursor =>
    addNode { kind := .read field, stamp, inputs := [object], guard, memory := some (b.memoryAt cursor) }
  | none => throw (.graph .noOpenPosition)

def begin : Attempt Builder NodeId := advance .begin

def invoke : Attempt Builder NodeId := advance .invoke

def loopBegin : Attempt Builder NodeId := advance .loopBegin

def arm (split : NodeId) : Attempt Builder NodeId := do
  let memory := (← get).memoryAt split
  let id ← addNode { kind := .begin }
  addEdge split id
  setMemory id memory
  return id

/-- A branch with its two arms, the one for a true condition first. -/
def branch (condition : NodeId) : Attempt Builder (NodeId × NodeId) := do
  if (← get).graph.stamp condition |>.isLogic then
    let split ← append .branch
    addInput split condition
    let yes ← arm split
    let no ← arm split
    setCursor none
    return (yes, no)
  else throw (.graph (.branchOnNonLogic condition))

/-- Joins open ends. The node and the edges before a failing end remain. -/
def merge (ends : List NodeId) : Attempt Builder NodeId := do
  if ends.length < 2 then throw (.graph .tooFewEnds)
  else
    let id ← addNode { kind := .merge }
    ends.forM fun e => do
      setCursor (some e)
      let _ ← Attempt.ask openCursor
      addEdge e id
    setMemory id id
    setCursor (some id)
    return id

def phi (merge : NodeId) (inputs : List NodeId) (stamp : Stamp) : Attempt Builder NodeId := do
  let n ← Attempt.ask fun b : Builder => b.graph.node merge
  if n.kind.isMerge then addNode { kind := .phi, stamp, inputs, anchor := some merge }
  else throw (.graph (.notMerge merge))

/-- Leads control back to a loop header, with one more input for each of its phis. -/
def loopEnd (header : NodeId) (values : List NodeId) : Attempt Builder NodeId := do
  let phis ← Attempt.ask fun b : Builder => b.graph.loopPhis header values.length
  let id ← append .loopEnd
  addEdge id header
  (phis.zip values).forM fun (p, v) => addInput p v
  setCursor none
  return id

def ret (value : Option NodeId) : Attempt Builder NodeId := do
  let id ← close .ret
  value.forM (addInput id)
  return id

def deoptimize (reason : Reason) : Attempt Builder NodeId :=
  close (.deoptimize reason)

end Builder

end GuardElision
