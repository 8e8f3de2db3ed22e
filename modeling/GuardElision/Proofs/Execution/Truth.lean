import GuardElision.Proofs.Execution.Condition

namespace GuardElision

namespace Constant

def toValue : Constant → Value
  | .int v => .int v
  | .null => .null

end Constant

namespace Valuation

/-- The truth of a logic node, from the values of its inputs. -/
def logic? (V : Valuation) (n : Node) : Option Bool :=
  match n.kind with
  | .logicConstant b => some b
  | .isNull => n.inputs[0]?.map fun x => decide (V.value x = .null)
  | .instanceOf cls => n.inputs[0]?.map fun x => (V.value x).isInstance V.classes V.heap cls
  | .compare op =>
    n.inputs[0]?.bind fun x => n.inputs[1]?.bind fun y => Value.compare? op (V.value x) (V.value y)
  | _ => none

def truthAt? (V : Valuation) (g : Graph) (x : NodeId) : Option Bool :=
  (g.get? x).bind V.logic?

/-- The values are possible ones: they conform to the stamps, a refinement has the value it refines, and
a constant has its own. -/
structure Fits (V : Valuation) (g : Graph) : Prop where
  classes : V.classes = g.classes
  stamps : ∀ x, V.Admits ⟨x, g.stamp x⟩
  refinement : ∀ x n y, g.get? x = some n → n.kind = .pi → n.inputs[0]? = some y → V.value x = V.value y
  constant : ∀ x c, g.kind? x = some (.constant c) → V.value x = c.toValue

/-- One node's share of `Fits`, as a test. -/
def fitsAt (V : Valuation) (x : NodeId) (n : Node) : Bool :=
  n.stamp.admits V.classes V.heap (V.value x) &&
    match n.kind with
    | .pi => n.inputs[0]?.all fun y => decide (V.value x = V.value y)
    | .constant c => decide (V.value x = c.toValue)
    | _ => true

/-- The logic node `x` is true or false, and the test of the condition comes out accordingly. -/
structure Tells (V : Valuation) (g : Graph) (x : NodeId) (c : Condition) : Prop where
  matched : c.Matched
  admits : ∀ o ∈ c.operands, V.Admits o
  outcome : ∃ b, V.truthAt? g x = some b ∧ V.truth c.test = c.testTruth b

variable {V : Valuation} {g : Graph} {x : NodeId} {c : Condition} {b : Bool}

theorem isLogic_of_logic? {n : Node} (h : V.logic? n = some b) : n.kind.isLogic = true := by
  unfold logic? at h
  split at h
  next hk => rw [hk]; rfl
  next hk => rw [hk]; rfl
  next hk => rw [hk]; rfl
  next hk => rw [hk]; rfl
  next => cases h

theorem logic?_congr {n m : Node} (hkind : m.kind = n.kind) (hinputs : m.inputs = n.inputs) :
    V.logic? m = V.logic? n := by
  unfold logic?
  rw [hkind, hinputs]

theorem exists_of_truthAt? (h : V.truthAt? g x = some b) : ∃ n, g.get? x = some n ∧ V.logic? n = some b :=
  Option.bind_eq_some_iff.mp h

namespace Fits

theorem of_fitsAt (hclasses : V.classes = g.classes) (h : ∀ x n, g.get? x = some n → V.fitsAt x n = true) :
    V.Fits g where
  classes := hclasses
  stamps x := by
    cases hx : g.get? x with
    | none =>
      have hstamp : g.stamp x = .void := by simp [Graph.stamp, hx]
      show (g.stamp x).Admits V.classes V.heap (V.value x)
      rw [hstamp]
      trivial
    | some n =>
      have hstamp : g.stamp x = n.stamp := by simp [Graph.stamp, hx]
      have hfits := h x n hx
      rw [fitsAt, Bool.and_eq_true] at hfits
      show (g.stamp x).Admits V.classes V.heap (V.value x)
      rw [hstamp]
      exact Stamp.admits_iff.mp hfits.1
  refinement x n y hn hk hy := by
    have hfits := h x n hn
    rw [fitsAt, Bool.and_eq_true, hk, hy] at hfits
    exact of_decide_eq_true hfits.2
  constant x c hc := by
    obtain ⟨n, hn, hk⟩ := Option.map_eq_some_iff.mp hc
    have hfits := h x n hn
    rw [fitsAt, Bool.and_eq_true, hk] at hfits
    exact of_decide_eq_true hfits.2

theorem refinedValue (H : V.Fits g) (k : Nat) (x : NodeId) : V.value (g.refinedValue k x) = V.value x := by
  induction k generalizing x with
  | zero => rfl
  | succ k ih =>
    rcases g.refinedValue_succ k x with ⟨n, y, hn, hk, hy, he⟩ | ⟨he, -⟩
    · have hstep := H.refinement x n y hn hk hy
      rw [he, ih y, hstep]
    · rw [he]

theorem value_operand (H : V.Fits g) (x : NodeId) : V.value (g.operand x).node = V.value x :=
  H.refinedValue g.capacity x

theorem admits_operand (H : V.Fits g) (x : NodeId) : V.Admits (g.operand x) :=
  H.stamps (g.rootValue x)

theorem null_of_isNullConstant (H : V.Fits g) (h : g.isNullConstant (g.operand x).node = true) :
    V.value x = .null := by
  have hkind : g.kind? (g.operand x).node = some (.constant .null) := of_decide_eq_true h
  have hvalue := H.constant _ _ hkind
  rw [H.value_operand] at hvalue
  exact hvalue

/-- A condition that is constant by its form has the truth of its node. -/
theorem condition_constant (H : V.Fits g) {value : Bool} (hc : g.condition x = .ok (.constant value))
    (hx : V.truthAt? g x = some b) : value = b := by
  obtain ⟨n, hn, hb⟩ := exists_of_truthAt? hx
  obtain ⟨n', hn', hcase⟩ := Graph.condition_ok hc
  cases hn.symm.trans hn'
  rcases hcase with ⟨t, hk, hr⟩ | ⟨y, -, -, hr⟩ | ⟨y, cls, -, -, hr⟩ | ⟨y, z, op, hk, hy, hz, hr⟩
  · cases hr
    simpa [logic?, hk] using hb
  · cases hr
  · cases hr
  · have hcompare : Value.compare? op (V.value y) (V.value z) = some b := by simpa [logic?, hk, hy, hz] using hb
    refine Graph.canonicalComparison_constant (fun hsame => ?_) hcompare hr.symm
    have hvalue : V.value (g.operand y).node = V.value (g.operand z).node := congrArg V.value hsame
    rwa [H.value_operand, H.value_operand] at hvalue

theorem tells (H : V.Fits g) (hc : g.condition x = .ok (.predicate c)) (hx : V.truthAt? g x = some b) :
    V.Tells g x c := by
  obtain ⟨n, hn, hb⟩ := exists_of_truthAt? hx
  have hadmits : ∀ o ∈ c.operands, V.Admits o := by
    intro o ho
    obtain ⟨m, hm, -, hops⟩ := Graph.condition_operands hc
    obtain ⟨y, -, rfl⟩ := hops o ho
    exact H.admits_operand y
  refine ⟨Graph.condition_matched hc, hadmits, b, hx, ?_⟩
  obtain ⟨n', hn', hcase⟩ := Graph.condition_ok hc
  cases hn.symm.trans hn'
  rcases hcase with ⟨t, -, hr⟩ | ⟨y, hk, hy, hr⟩ | ⟨y, cls, hk, hy, hr⟩ | ⟨y, z, op, hk, hy, hz, hr⟩
  · cases hr
  · cases hr
    have ht : decide (V.value y = .null) = b := by simpa [logic?, hk, hy] using hb
    simp [truth, Condition.testTruth, H.value_operand, ← ht]
  · cases hr
    have ht : (V.value y).isInstance V.classes V.heap cls = b := by simpa [logic?, hk, hy] using hb
    simp [truth, Condition.testTruth, H.value_operand, ht]
  · have ht : Value.compare? op (V.value y) (V.value z) = some b := by simpa [logic?, hk, hy, hz] using hb
    exact Graph.canonicalComparison_agrees H.null_of_isNullConstant H.null_of_isNullConstant ht hr.symm V
      (fun _ => H.value_operand y) fun _ => H.value_operand z

end Fits

theorem Tells.truthAt?_iff (T : V.Tells g x c) (t : Bool) :
    V.truthAt? g x = some t ↔ V.truth c.test = c.testTruth t := by
  obtain ⟨b, hb, htruth⟩ := T.outcome
  rw [hb, htruth, Option.some.injEq]
  unfold Condition.testTruth
  cases b <;> cases t <;> cases c.negated <;> decide

end Valuation

end GuardElision
