import GuardElision.Graph.Basic

/-!
Canonical conditions. Operators that are converse or opposite to each other share a test, so that two
conditions can be compared by their tests alone.
-/

namespace GuardElision

/-- A yes-no question about the values of nodes. -/
inductive Test where
  | equals (a b : NodeId)
  | lessThan (a b : NodeId)
  /-- The unsigned order. -/
  | below (a b : NodeId)
  | isNull (x : NodeId)
  | instanceOf (x : NodeId) (cls : ClassId)
deriving DecidableEq

namespace Test

def subject : Test → NodeId
  | equals a _ | lessThan a _ | below a _ | isNull a | instanceOf a _ => a

def text : Test → String
  | equals a b => NodeId.text a ++ " == " ++ NodeId.text b
  | lessThan a b => NodeId.text a ++ " < " ++ NodeId.text b
  | below a b => NodeId.text a ++ " |<| " ++ NodeId.text b
  | isNull x => NodeId.text x ++ " == null"
  | instanceOf x c => NodeId.text x ++ " instanceof " ++ ClassId.text c

end Test

/-- A value with what its node's stamp says of it. -/
structure Operand where
  node : NodeId
  stamp : Stamp
deriving DecidableEq

/-- A test or its negation. A test of one value leaves the right operand unused. -/
structure Condition where
  test : Test
  negated : Bool
  left : Operand
  right : Operand
deriving DecidableEq

namespace Condition

/-- The truth of the test, from the truth of the condition. -/
def testTruth (c : Condition) (truth : Bool) : Bool :=
  truth != c.negated

/-- The truth of the condition, from the truth of the test. -/
def conditionTruth (c : Condition) (truth : Bool) : Bool :=
  truth != c.negated

def text (c : Condition) : String :=
  if c.negated then "!(" ++ c.test.text ++ ")" else c.test.text

/-- The operands that a test uses. -/
def operands (c : Condition) : List Operand :=
  match c.test with
  | .equals _ _ | .lessThan _ _ | .below _ _ => [c.left, c.right]
  | .isNull _ | .instanceOf _ _ => [c.left]

end Condition

/-- What a logic node amounts to. -/
inductive Canonical where
  | constant (value : Bool)
  | predicate (condition : Condition)
deriving DecidableEq

namespace Graph

def isNullConstant (g : Graph) (id : NodeId) : Bool :=
  g.kind? id = some (.constant .null)

/-- Equality with null is the null test of the other operand; otherwise the smaller node stands
first. -/
def canonicalEquality (g : Graph) (negated : Bool) (a b : Operand) : Condition :=
  match g.isNullConstant a.node, g.isNullConstant b.node with
  | false, true => ⟨.isNull a.node, negated, a, a⟩
  | true, false => ⟨.isNull b.node, negated, b, b⟩
  | _, _ =>
    if a.node ≤ b.node then ⟨.equals a.node b.node, negated, a, b⟩
    else ⟨.equals b.node a.node, negated, b, a⟩

def canonicalComparison (g : Graph) (op : Comparison) (a b : Operand) : Canonical :=
  if a.node = b.node then .constant (op = .eq || op = .le || op = .ge)
  else .predicate (match op with
    | .eq => g.canonicalEquality false a b
    | .ne => g.canonicalEquality true a b
    | .lt => ⟨.lessThan a.node b.node, false, a, b⟩
    | .gt => ⟨.lessThan b.node a.node, false, b, a⟩
    | .ge => ⟨.lessThan a.node b.node, true, a, b⟩
    | .le => ⟨.lessThan b.node a.node, true, b, a⟩
    | .below => ⟨.below a.node b.node, false, a, b⟩)

/-- The canonical form of a logic node. Operands are taken below their refinements, so a test of a
refined value and a test of the value itself are the same. -/
def condition (g : Graph) (logic : NodeId) : Except Fault Canonical := do
  let n ← g.node logic
  let operand (i : Nat) : Except Fault Operand :=
    match n.inputs[i]? with
    | some input => .ok ⟨g.rootValue input, g.stamp (g.rootValue input)⟩
    | none => .error (.internal (.missingOperand logic n.kind i))
  let unused : Operand := ⟨logic, .void⟩
  match n.kind with
  | .logicConstant value => return .constant value
  | .isNull =>
    let x ← operand 0
    return .predicate ⟨.isNull x.node, false, x, unused⟩
  | .instanceOf cls =>
    let x ← operand 0
    return .predicate ⟨.instanceOf x.node cls, false, x, unused⟩
  | .compare op =>
    let a ← operand 0
    let b ← operand 1
    return g.canonicalComparison op a b
  | kind => throw (.internal (.notLogic logic kind))

end Graph

end GuardElision
