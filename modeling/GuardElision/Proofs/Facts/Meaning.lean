import GuardElision.Facts.Push

namespace GuardElision

namespace Value

/-- The value refers to an object of the class or of one below it. -/
def isInstance (classes : ClassTable) (heap : Heap) (cls : ClassId) : Value → Bool
  | .ref i => heap[i]?.any fun o => classes.isSubclass o.cls cls
  | _ => false

end Value

namespace Stamp

/-- The value is one of those the stamp describes. `void` describes every value. -/
def Admits (classes : ClassTable) (heap : Heap) : Stamp → Value → Prop
  | .void, _ => True
  | .logic, v => ∃ b, v = .bool b
  | .int r, v => ∃ w, v = .int w ∧ w ∈ r
  | .object o, .null => o.nonNull = false
  | .object o, .ref i =>
    o.alwaysNull = false ∧ ∀ c, o.cls = some c →
      ∃ obj, heap[i]? = some obj ∧ classes.isSubclass obj.cls c = true ∧ (o.exact = true → obj.cls = c)
  | .object _, _ => False

def admits (classes : ClassTable) (heap : Heap) : Stamp → Value → Bool
  | .void, _ => true
  | .logic, .bool _ => true
  | .int r, .int w => r.admits w
  | .object o, .null => !o.nonNull
  | .object o, .ref i =>
    !o.alwaysNull && o.cls.all fun c =>
      heap[i]?.any fun obj => classes.isSubclass obj.cls c && (!o.exact || obj.cls = c)
  | _, _ => false

theorem admits_iff {classes : ClassTable} {heap : Heap} {s : Stamp} {v : Value} :
    s.admits classes heap v = true ↔ s.Admits classes heap v := by
  cases s with
  | void => simp [admits, Admits]
  | logic => cases v <;> simp [admits, Admits]
  | int r => cases v <;> simp [admits, Admits, Interval.admits_iff]
  | object o =>
    cases v with
    | int | bool => simp [admits, Admits]
    | null => simp [admits, Admits]
    | ref i =>
      cases hc : o.cls with
      | none => simp [admits, Admits, hc]
      | some c => cases he : o.exact <;> simp [admits, Admits, hc, he, Option.any_eq_true]

end Stamp

/-- Values for the nodes of a graph, with the heap and the classes that tests look at. -/
structure Valuation where
  classes : ClassTable
  heap : Heap
  value : NodeId → Value

namespace Valuation

variable (V : Valuation)

/-- The outcome of a test. The orders compare integers only. -/
def truth : Test → Bool
  | .equals a b => V.value a = V.value b
  | .lessThan a b =>
    match V.value a, V.value b with
    | .int x, .int y => x < y
    | _, _ => false
  | .below a b =>
    match V.value a, V.value b with
    | .int x, .int y => Word.below x y
    | _, _ => false
  | .isNull x => V.value x = .null
  | .instanceOf x cls => (V.value x).isInstance V.classes V.heap cls

/-- The value of an operand is one its stamp describes. -/
def Admits (o : Operand) : Prop :=
  o.stamp.Admits V.classes V.heap (V.value o.node)

theorem exists_int {o : Operand} (h : V.Admits o) {r : Interval} (hr : o.stamp.range? = some r) :
    ∃ w, V.value o.node = .int w ∧ w ∈ r := by
  unfold Admits at h
  cases hs : o.stamp <;> simp_all [Stamp.range?, Stamp.Admits]

end Valuation

namespace Condition

/-- The operands of a condition are the nodes its test is about. -/
def Matched (c : Condition) : Prop :=
  match c.test with
  | .equals a b | .lessThan a b | .below a b => c.left.node = a ∧ c.right.node = b
  | .isNull x | .instanceOf x _ => c.left.node = x

end Condition

namespace Fact

def Holds (V : Valuation) (f : Fact) : Prop :=
  V.truth f.test = f.truth

end Fact

end GuardElision
