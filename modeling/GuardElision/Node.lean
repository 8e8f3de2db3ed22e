import GuardElision.Stamp

namespace GuardElision

abbrev NodeId := Nat

namespace NodeId

def text (n : NodeId) : String :=
  s!"n{n}"

def textList (ns : List NodeId) : String :=
  ", ".intercalate (ns.map text)

end NodeId

/-- Why execution leaves the compiled code. -/
inductive Reason where
  | nullCheck
  | boundsCheck
  | classCast
  | inliningViolated
  | unreached
  | transfer
deriving DecidableEq

namespace Reason

def all : List Reason :=
  [.nullCheck, .boundsCheck, .classCast, .inliningViolated, .unreached, .transfer]

def text : Reason → String
  | .nullCheck => "NullCheckException"
  | .boundsCheck => "BoundsCheckException"
  | .classCast => "ClassCastException"
  | .inliningViolated => "TypeCheckedInliningViolated"
  | .unreached => "UnreachedCode"
  | .transfer => "TransferToInterpreter"

def ofText? (s : String) : Option Reason :=
  all.find? (·.text = s)

end Reason

/-- Comparison operators; `below` is the unsigned order. -/
inductive Comparison where
  | eq
  | ne
  | lt
  | le
  | gt
  | ge
  | below
deriving DecidableEq

namespace Comparison

def all : List Comparison :=
  [.eq, .ne, .lt, .le, .gt, .ge, .below]

def text : Comparison → String
  | .eq => "=="
  | .ne => "!="
  | .lt => "<"
  | .le => "<="
  | .gt => ">"
  | .ge => ">="
  | .below => "|<|"

def ofText? (s : String) : Option Comparison :=
  all.find? (·.text = s)

def isCommutative (op : Comparison) : Bool :=
  op = .eq || op = .ne

end Comparison

inductive Constant where
  | int (value : Word)
  | null
deriving DecidableEq

namespace Constant

def text : Constant → String
  | .int v => Word.text v
  | .null => "null"

end Constant

inductive Kind where
  | start
  | begin
  | branch
  | merge
  | loopBegin
  | loopEnd
  | invoke
  | ret
  | deoptimize (reason : Reason)
  | guard (negated : Bool) (reason : Reason)
  | pi
  | read (field : Nat)
  | phi
  | parameter (index : Nat)
  | constant (value : Constant)
  | compare (op : Comparison)
  | isNull
  | instanceOf (cls : ClassId)
  | logicConstant (value : Bool)
deriving DecidableEq

namespace Kind

def isControl : Kind → Bool
  | .start | .begin | .branch | .merge | .loopBegin | .loopEnd | .invoke | .ret | .deoptimize _ => true
  | _ => false

/-- Control ends here. -/
def isTerminal : Kind → Bool
  | .ret | .deoptimize _ => true
  | _ => false

/-- Guards may be attached here. -/
def isAnchor : Kind → Bool
  | .start | .begin | .merge | .loopBegin | .invoke => true
  | _ => false

def isMerge : Kind → Bool
  | .merge | .loopBegin => true
  | _ => false

def isLogic : Kind → Bool
  | .compare _ | .isNull | .instanceOf _ | .logicConstant _ => true
  | _ => false

def isGuard : Kind → Bool
  | .guard _ _ => true
  | _ => false

/-- A new memory state begins here. -/
def killsMemory : Kind → Bool
  | .start | .invoke | .merge | .loopBegin => true
  | _ => false

/-- A node that may go once nothing uses it. -/
def isPure : Kind → Bool
  | .constant _ | .compare _ | .isNull | .instanceOf _ | .logicConstant _ | .pi | .read _ | .phi => true
  | _ => false

def text : Kind → String
  | .start => "Start"
  | .begin => "Begin"
  | .branch => "If"
  | .merge => "Merge"
  | .loopBegin => "LoopBegin"
  | .loopEnd => "LoopEnd"
  | .invoke => "Invoke"
  | .ret => "Return"
  | .deoptimize r => "Deoptimize(" ++ r.text ++ ")"
  | .guard negated r => "Guard(" ++ (if negated then "!, " else "") ++ r.text ++ ")"
  | .pi => "Pi"
  | .read field => s!"Read(.{field})"
  | .phi => "Phi"
  | .parameter index => s!"Parameter({index})"
  | .constant c => "Constant(" ++ c.text ++ ")"
  | .compare op => "Compare(" ++ op.text ++ ")"
  | .isNull => "IsNull"
  | .instanceOf c => "InstanceOf(" ++ ClassId.text c ++ ")"
  | .logicConstant b => s!"LogicConstant({b})"

end Kind

structure Node where
  kind : Kind
  stamp : Stamp := .void
  inputs : List NodeId := []
  successors : List NodeId := []
  predecessors : List NodeId := []
  /-- The control node of a guard, or the merge of a phi. -/
  anchor : Option NodeId := none
  /-- The guard or control node whose passing protects this node. -/
  guard : Option NodeId := none
  /-- The control node whose memory state a read observes. -/
  memory : Option NodeId := none
  removed : Bool := false
  /-- Added by a pass. -/
  synthetic : Bool := false
deriving DecidableEq

namespace Node

/-- Everything the node relies on besides control: inputs, then anchor, guard and memory. -/
def dependencies (n : Node) : List NodeId :=
  n.inputs ++ n.anchor.toList ++ n.guard.toList ++ n.memory.toList

def dependsOn (n : Node) (id : NodeId) : Bool :=
  n.dependencies.contains id

/-- The slot a removed node leaves behind. -/
def cleared (n : Node) : Node :=
  { n with inputs := [], successors := [], predecessors := [], anchor := none, guard := none,
           memory := none, removed := true }

end Node

end GuardElision
