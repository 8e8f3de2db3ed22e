import GuardElision.Fault

/-!
Program graphs. A removed node keeps its slot, so ids are never handed out twice.
-/

namespace GuardElision

structure Graph where
  nodes : Array Node
  classes : ClassTable
deriving DecidableEq

namespace Graph

/-- The node execution begins at. -/
def start : NodeId := 0

def ofClasses (classes : ClassTable) : Graph :=
  ⟨#[{ kind := .start }], classes⟩

/-- The number of slots, those of removed nodes included. -/
def capacity (g : Graph) : Nat :=
  g.nodes.size

def get? (g : Graph) (id : NodeId) : Option Node :=
  g.nodes[id]?.filter (!·.removed)

def node (g : Graph) (id : NodeId) : Except Fault Node :=
  match g.get? id with
  | some n => .ok n
  | none => .error (.invalidNode id)

def kind? (g : Graph) (id : NodeId) : Option Kind :=
  (g.get? id).map (·.kind)

def isLive (g : Graph) (id : NodeId) : Bool :=
  (g.get? id).isSome

def isControl (g : Graph) (id : NodeId) : Bool :=
  (g.kind? id).any (·.isControl)

def stamp (g : Graph) (id : NodeId) : Stamp :=
  match g.get? id with
  | some n => n.stamp
  | none => .void

/-- The ids of the live nodes that satisfy `p`, ascending. -/
def select (g : Graph) (p : Node → Bool) : List NodeId :=
  (List.range g.capacity).filter fun id => (g.get? id).any p

def liveIds (g : Graph) : List NodeId :=
  g.select fun _ => true

def controlIds (g : Graph) : List NodeId :=
  g.select (·.kind.isControl)

def count (g : Graph) (p : Kind → Bool) : Nat :=
  (g.select fun n => p n.kind).length

def liveCount (g : Graph) : Nat :=
  g.liveIds.length

def guardCount (g : Graph) : Nat :=
  g.count (·.isGuard)

/-- The nodes that depend on `id` for anything but control. -/
def usages (g : Graph) (id : NodeId) : List NodeId :=
  g.select (·.dependsOn id)

def hasUsages (g : Graph) (id : NodeId) : Bool :=
  !(g.usages id).isEmpty

/-- The guards attached to a control node, in the order they are tested. -/
def guardsAt (g : Graph) (anchor : NodeId) : List NodeId :=
  g.select fun n => n.kind.isGuard && n.anchor = some anchor

def phisOf (g : Graph) (merge : NodeId) : List NodeId :=
  g.select fun n => n.kind = .phi && n.anchor = some merge

/-- Follows at most `n` refinements down to the value they refine. -/
def refinedValue (g : Graph) : Nat → NodeId → NodeId
  | 0, id => id
  | n + 1, id =>
    match g.get? id with
    | some { kind := .pi, inputs := input :: _, .. } => g.refinedValue n input
    | _ => id

/-- The value below a chain of `Pi` nodes. Each link of a chain is a node of its own, so the
capacity bounds its length. -/
def rootValue (g : Graph) (id : NodeId) : NodeId :=
  g.refinedValue g.capacity id

/-- The control node at which a protecting node takes effect. -/
def guardPosition? (g : Graph) (id : NodeId) : Option NodeId :=
  match g.get? id with
  | some n =>
    if n.kind.isGuard then n.anchor
    else if n.kind.isControl then some id
    else none
  | none => none

def add (g : Graph) (n : Node) : NodeId × Graph :=
  (g.capacity, { g with nodes := g.nodes.push n })

/-- Changes the slot of a node, live or not. -/
def modify (g : Graph) (id : NodeId) (f : Node → Node) : Graph :=
  { g with nodes := g.nodes.modify id f }

def mapLive (g : Graph) (f : Node → Node) : Graph :=
  { g with nodes := g.nodes.map fun n => if n.removed then n else f n }

def setKind (g : Graph) (id : NodeId) (kind : Kind) (inputs : List NodeId) : Graph :=
  g.modify id fun n => { n with kind, inputs }

def delete (g : Graph) (id : NodeId) : Graph :=
  g.modify id Node.cleared

def replaceInput (g : Graph) (old new : NodeId) : Graph :=
  g.mapLive fun n => { n with inputs := n.inputs.map fun i => if i = old then new else i }

/-- Lets every node guarded by `old` be guarded by `new` instead. -/
def replaceGuard (g : Graph) (old : NodeId) (new : Option NodeId) : Graph :=
  g.mapLive fun n => if n.guard = some old then { n with guard := new } else n

def guardedBy (g : Graph) (id : NodeId) : List NodeId :=
  g.select (·.guard = some id)

def replaceMemory (g : Graph) (old new : NodeId) : Graph :=
  g.mapLive fun n => if n.memory = some old then { n with memory := some new } else n

end Graph

end GuardElision
