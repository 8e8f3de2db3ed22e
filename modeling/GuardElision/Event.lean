import GuardElision.Fault

namespace GuardElision

inductive EventKind where
  | guardEliminated
  | guardStrengthened
  | branchFolded
  | nodeRemoved
  | constantFolded
  | dominatorRebuilt
  | passStarted
  | passCompleted
  | methodFailed
  | info
deriving DecidableEq

inductive EventCategory where
  | graphChange
  | pipeline
  | diagnostic
deriving DecidableEq

namespace EventKind

def all : List EventKind :=
  [.guardEliminated, .guardStrengthened, .branchFolded, .nodeRemoved, .constantFolded,
    .dominatorRebuilt, .passStarted, .passCompleted, .methodFailed, .info]

def category : EventKind → EventCategory
  | guardEliminated | guardStrengthened | branchFolded | nodeRemoved | constantFolded => .graphChange
  | dominatorRebuilt | passStarted | passCompleted => .pipeline
  | methodFailed | info => .diagnostic

def text : EventKind → String
  | guardEliminated => "guard eliminated"
  | guardStrengthened => "guard strengthened"
  | branchFolded => "branch folded"
  | nodeRemoved => "node removed"
  | constantFolded => "constant folded"
  | dominatorRebuilt => "dominator tree rebuilt"
  | passStarted => "pass started"
  | passCompleted => "pass completed"
  | methodFailed => "method failed"
  | info => "info"

end EventKind

structure Event where
  kind : EventKind
  method : Option MethodId := none
  node : Option NodeId := none
  pass : Option String := none
  message : String := kind.text
deriving DecidableEq

namespace Event

/-- Pass and kind, method, node, and the message unless it only names the kind. -/
def text (e : Event) : String :=
  "[" ++ (match e.pass with
    | some pass => pass ++ ": "
    | none => "") ++ e.kind.text ++ "]" ++
    (match e.method with
    | some m => " " ++ MethodId.text m
    | none => "") ++
    (match e.node with
    | some n => " @" ++ NodeId.text n
    | none => "") ++
    (if e.message = e.kind.text then "" else " " ++ e.message)

end Event

structure EventLog where
  events : Array Event := #[]
deriving DecidableEq

namespace EventLog

def size (l : EventLog) : Nat :=
  l.events.size

def record (l : EventLog) (e : Event) : EventLog :=
  ⟨l.events.push e⟩

def append (l : EventLog) (other : EventLog) : EventLog :=
  ⟨l.events ++ other.events⟩

def toList (l : EventLog) : List Event :=
  l.events.toList

@[simp] theorem toList_record (l : EventLog) (e : Event) : (l.record e).toList = l.toList ++ [e] :=
  Array.toList_push

@[simp] theorem toList_append (l l' : EventLog) : (l.append l').toList = l.toList ++ l'.toList :=
  Array.toList_append

def ofMethod (l : EventLog) (m : MethodId) : List Event :=
  l.toList.filter (·.method = some m)

def count (l : EventLog) (kind : EventKind) : Nat :=
  l.toList.countP (·.kind = kind)

def countCategory (l : EventLog) (category : EventCategory) : Nat :=
  l.toList.countP (·.kind.category = category)

def changedMethods (l : EventLog) : List MethodId :=
  (l.toList.filterMap fun e =>
    if e.kind.category = .graphChange then e.method else none).eraseDups

/-- The number of changed methods, then how often each noteworthy kind occurred. -/
def summary (l : EventLog) : String :=
  let changed := l.changedMethods.length
  let counts := [EventKind.guardEliminated, .guardStrengthened, .branchFolded, .constantFolded,
    .nodeRemoved, .methodFailed].map fun kind =>
      let n := l.count kind
      if n = 0 then "" else s!", {n} x " ++ kind.text
  s!"{changed} methods rewritten" ++ String.join counts

end EventLog

end GuardElision
