namespace GuardElision

abbrev ClassId := Nat

namespace ClassId

def text (c : ClassId) : String :=
  s!"t{c}"

end ClassId

structure ClassDecl where
  name : String
  parent : Option ClassId
  isFinal : Bool
deriving DecidableEq

/-- The declared classes by id. -/
structure ClassTable where
  classes : Array ClassDecl
deriving DecidableEq

namespace ClassTable

def root : ClassTable := ⟨#[⟨"Object", none, false⟩]⟩

def declare (t : ClassTable) (name : String) (parent : ClassId) (isFinal : Bool) : ClassTable :=
  ⟨t.classes.push ⟨name, some parent, isFinal⟩⟩

def size (t : ClassTable) : Nat :=
  t.classes.size

def isTrivial (t : ClassTable) : Bool :=
  t.size ≤ 1

def name (t : ClassTable) (c : ClassId) : String :=
  match t.classes[c]? with
  | some d => d.name
  | none => "?"

def parent? (t : ClassTable) (c : ClassId) : Option ClassId :=
  t.classes[c]?.bind (·.parent)

def isFinal (t : ClassTable) (c : ClassId) : Bool :=
  t.classes[c]?.any (·.isFinal)

/-- The first `n` classes on the chain of parents that starts at `c`. -/
def chain (t : ClassTable) : Nat → ClassId → List ClassId
  | 0, _ => []
  | n + 1, c => c :: (match t.parent? c with
    | some p => t.chain n p
    | none => [])

/-- All classes from `c` to the end of its chain: a chain without repetition passes each declared
class at most once and ends at the latest with an undeclared one. -/
def superclasses (t : ClassTable) (c : ClassId) : List ClassId :=
  t.chain (t.size + 1) c

def isSubclass (t : ClassTable) (sub sup : ClassId) : Bool :=
  (t.superclasses sub).contains sup

/-- Neither class is a subclass of the other, so no object is an instance of both. -/
def disjoint (t : ClassTable) (a b : ClassId) : Bool :=
  !t.isSubclass a b && !t.isSubclass b a

end ClassTable

end GuardElision
