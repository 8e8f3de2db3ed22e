import GuardElision.ClassTable
import GuardElision.Interval

namespace GuardElision

/-- What is known of a reference: its class, whether objects have exactly that class, and whether
it can or must be null. -/
structure ObjectStamp where
  cls : Option ClassId := none
  exact : Bool := false
  nonNull : Bool := false
  alwaysNull : Bool := false
deriving DecidableEq

inductive Stamp where
  | void
  | int (range : Interval)
  | object (of : ObjectStamp)
  | logic
deriving DecidableEq

namespace ObjectStamp

/-- The more specific of two declared classes; unrelated classes have none. -/
def meetClass? (t : ClassTable) : Option ClassId → Option ClassId → Option (Option ClassId)
  | some a, some b =>
    if t.isSubclass a b then some (some a)
    else if t.isSubclass b a then some (some b)
    else none
  | a, b => some (a <|> b)

/-- The knowledge of both stamps, unless they contradict each other. -/
def improve? (t : ClassTable) (a b : ObjectStamp) : Option ObjectStamp :=
  (meetClass? t a.cls b.cls).bind fun cls =>
    let nonNull := a.nonNull || b.nonNull
    let alwaysNull := a.alwaysNull || b.alwaysNull
    if nonNull && alwaysNull then none
    else some ⟨cls, a.exact || b.exact, nonNull, alwaysNull⟩

def text (o : ObjectStamp) : String :=
  if o.alwaysNull then "null"
  else
    (match o.cls with
      | some c => (if o.exact then "exact " else "") ++ ClassId.text c
      | none => "object") ++
    (if o.nonNull then " !null" else "")

end ObjectStamp

namespace Stamp

def anyInt : Stamp := .int .full

def reference (cls : Option ClassId) : Stamp := .object ⟨cls, false, false, false⟩

def nonNullReference (cls : Option ClassId) : Stamp := .object ⟨cls, false, true, false⟩

def exactReference (cls : ClassId) : Stamp := .object ⟨some cls, true, true, false⟩

def null : Stamp := .object ⟨none, false, false, true⟩

def range? : Stamp → Option Interval
  | .int r => some r
  | _ => none

def object? : Stamp → Option ObjectStamp
  | .object o => some o
  | _ => none

def isNonNull (s : Stamp) : Bool :=
  s.object?.any (·.nonNull)

def isAlwaysNull (s : Stamp) : Bool :=
  s.object?.any (·.alwaysNull)

def isLogic (s : Stamp) : Bool :=
  s = .logic

/-- The knowledge of both stamps. `void` says nothing; stamps of different sorts, or with nothing in
common, have no result. -/
def improve? (t : ClassTable) : Stamp → Stamp → Option Stamp
  | .int a, .int b => (a.meet? b).map .int
  | .object a, .object b => (a.improve? t b).map .object
  | .void, s => some s
  | s, .void => some s
  | .logic, .logic => some .logic
  | _, _ => none

def text : Stamp → String
  | .void => "void"
  | .int r => if r.isFull then "i64" else "i64 " ++ r.text
  | .object o => o.text
  | .logic => "logic"

end Stamp

end GuardElision
