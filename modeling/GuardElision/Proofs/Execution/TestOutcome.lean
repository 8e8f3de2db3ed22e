import GuardElision.Proofs.Execution.Condition
import GuardElision.Proofs.Execution.Unstamped

namespace GuardElision

/-- What comes out of a test, if the nodes it is about have values it can be asked about. -/
def Test.outcome? (classes : ClassTable) (heap : Heap) (value? : NodeId → Option Value) : Test → Option Bool
  | .equals a b => do return (← value? a) = (← value? b)
  | .lessThan a b =>
    match value? a, value? b with
    | some (.int x), some (.int y) => some (x < y)
    | _, _ => none
  | .below a b =>
    match value? a, value? b with
    | some (.int x), some (.int y) => some (Word.below x y)
    | _, _ => none
  | .isNull x => (value? x).map (· = .null)
  | .instanceOf x cls => (value? x).map (·.isInstance classes heap cls)

variable {value? : NodeId → Option Value} {g : Graph} {heap : Heap} {f : Frame} {a b : Operand} {va vb : Value}
  {op op' : Comparison} {t : Bool} {c : Condition}

/-- An outcome is the truth of the test in every valuation with these values. -/
theorem Test.outcome?_eq_some {test : Test} {V : Valuation} (hV : ∀ x v, value? x = some v → V.value x = v)
    (h : test.outcome? V.classes V.heap value? = some t) : t = V.truth test := by
  cases test with
  | equals a b =>
    obtain ⟨x, hx, h⟩ := Option.bind_eq_some_iff.mp h
    obtain ⟨y, hy, h⟩ := Option.bind_eq_some_iff.mp h
    rw [Valuation.truth, hV a x hx, hV b y hy]
    exact (Option.some.inj h).symm
  | lessThan a b | below a b =>
    simp only [outcome?] at h
    split at h
    next x y hx hy =>
      simp only [Valuation.truth, hV a _ hx, hV b _ hy]
      exact (Option.some.inj h).symm
    next => cases h
  | isNull x | instanceOf x cls =>
    obtain ⟨v, hv, h⟩ := Option.map_eq_some_iff.mp h
    rw [Valuation.truth, hV x v hv]
    exact h.symm

namespace Graph

theorem canonicalEquality_isSome (classes : ClassTable) (heap : Heap) (negated : Bool)
    (ha : value? a.node = some va) (hb : value? b.node = some vb) :
    ((g.canonicalEquality negated a b).test.outcome? classes heap value?).isSome := by
  unfold canonicalEquality
  split
  · simp [Test.outcome?, ha]
  · simp [Test.outcome?, hb]
  · split <;> simp [Test.outcome?, ha, hb]

theorem canonicalComparison_isSome (classes : ClassTable) (heap : Heap) (ha : value? a.node = some va)
    (hb : value? b.node = some vb) (ht : Value.compare? op va vb = some t)
    (hc : g.canonicalComparison op a b = .predicate c) : (c.test.outcome? classes heap value?).isSome := by
  unfold canonicalComparison at hc
  split at hc
  next => cases hc
  next =>
    obtain rfl := Canonical.predicate.inj hc
    cases op with
    | eq => exact canonicalEquality_isSome classes heap false ha hb
    | ne => exact canonicalEquality_isSome classes heap true ha hb
    | _ =>
      obtain ⟨x, y, rfl, rfl⟩ := compare?_order ht (by simp) (by simp)
      simp [Test.outcome?, ha, hb]

theorem canonicalComparison_outcome? (classes : ClassTable) (heap : Heap) (ha : value? a.node = some va)
    (hb : value? b.node = some vb) (hna : g.isNullConstant a.node = true → va = .null)
    (hnb : g.isNullConstant b.node = true → vb = .null) (ht : Value.compare? op va vb = some t)
    (hc : g.canonicalComparison op a b = .predicate c) :
    c.test.outcome? classes heap value? = some (c.testTruth t) := by
  obtain ⟨s, hs⟩ := Option.isSome_iff_exists.mp (canonicalComparison_isSome classes heap ha hb ht hc)
  let V : Valuation := ⟨classes, heap, fun x => (value? x).getD .null⟩
  have hV : ∀ x v, value? x = some v → V.value x = v := fun x v hx => by simp [V, hx]
  have htruth := canonicalComparison_agrees hna hnb ht hc V (fun _ => hV _ _ ha) fun _ => hV _ _ hb
  rw [hs, ← htruth, Test.outcome?_eq_some (V := V) hV hs]

def Compares (g : Graph) (x : NodeId) (op : Comparison) (a b : NodeId) : Prop :=
  ∃ n, g.get? x = some n ∧ n.kind = .compare op ∧ n.inputs[0]? = some a ∧ n.inputs[1]? = some b

theorem Compares.condition {x a b : NodeId} (h : g.Compares x op a b) :
    g.condition x = .ok (g.canonicalComparison op (g.operand a) (g.operand b)) := by
  obtain ⟨n, hn, hk, ha, hb⟩ := h
  simp only [Graph.condition, node_eq_ok_iff.mpr hn, hk, ha, hb, bind, Except.bind, pure, Except.pure]
  rfl

theorem value?_operand {y : NodeId} {v : Value} (hcache : f.cache = .empty) (h : Eval g.unstamped heap f y v) :
    f.value? g heap (g.operand y).node = some v := by
  have hroot : Eval g.unstamped heap f (g.unstamped.rootValue y) v := eval_refinedValue h
  rw [rootValue_unstamped] at hroot
  exact hroot.value? hcache

theorem operand_isNullConstant {y : NodeId} {v : Value} (h : Eval g.unstamped heap f y v)
    (hnull : g.isNullConstant (g.operand y).node = true) : v = .null := by
  have hroot : Eval g.unstamped heap f (g.unstamped.rootValue y) v := eval_refinedValue h
  refine eval_isNullConstant ?_ hroot
  rwa [rootValue_unstamped, isNullConstant, kind?_unstamped]

/-- What the canonical form of a logic node says of its value in a frame. -/
def Tells (g : Graph) (heap : Heap) (f : Frame) (v : Bool) : Canonical → Prop
  | .constant value => v = value
  | .predicate c => c.test.outcome? g.classes heap (f.value? g heap) = some (c.testTruth v)

theorem Compares.tells {x y z : NodeId} (hcache : f.cache = .empty) (h : g.Compares x op y z)
    (hy : Eval g.unstamped heap f y va) (hz : Eval g.unstamped heap f z vb) (ht : Value.compare? op va vb = some t) :
    ∃ r, g.condition x = .ok r ∧ g.Tells heap f t r := by
  have hva := value?_operand hcache hy
  have hvb := value?_operand hcache hz
  refine ⟨_, h.condition, ?_⟩
  cases hr : g.canonicalComparison op (g.operand y) (g.operand z) with
  | constant value =>
    have hsame : (g.operand y).node = (g.operand z).node → va = vb := by
      intro he
      rw [he] at hva
      exact Option.some.inj (hva.symm.trans hvb)
    exact (canonicalComparison_constant hsame ht hr).symm
  | predicate c =>
    exact canonicalComparison_outcome? g.classes heap hva hvb (operand_isNullConstant hy) (operand_isNullConstant hz)
      ht hr

/-- A logic node that evaluates has a canonical form, which tells its value. -/
theorem condition_tells {x : NodeId} {n : Node} {v : Value} (hcache : f.cache = .empty) (hn : g.get? x = some n)
    (hl : n.kind.isLogic = true) (h : Eval g.unstamped heap f x v) :
    ∃ t r, v = .bool t ∧ g.condition x = .ok r ∧ g.Tells heap f t r := by
  obtain ⟨ins, vals, hn', hins, hvals, hv, -⟩ := h
  obtain rfl : n.unstamped = _ := by simpa [hn] using hn'
  have hnode : g.node x = .ok n := node_eq_ok_iff.mpr hn
  have hkind : n.unstamped.kind = n.kind := rfl
  rw [hkind] at hins hvals
  cases hk : n.kind with
  | logicConstant value =>
    have ht : Value.bool value = v := by simpa [Node.result?, hkind, hk] using hv
    exact ⟨value, .constant value, ht.symm, by simp [condition, hnode, hk, bind, Except.bind, pure, Except.pure], rfl⟩
  | isNull =>
    have hy : n.inputs[0]? = some (ins 0) := hins 0 (by simp [hk, Kind.arity])
    have hval := value?_operand hcache (hvals 0 (by simp [hk, Kind.arity]))
    have ht : Value.bool (vals 0 = .null) = v := by simpa [Node.result?, hkind, hk] using hv
    refine ⟨vals 0 = .null, .predicate ⟨.isNull (g.operand (ins 0)).node, false, g.operand (ins 0), ⟨x, .void⟩⟩,
      ht.symm, ?_, ?_⟩
    · simp only [condition, hnode, hk, hy, bind, Except.bind, pure, Except.pure]
      rfl
    · simp [Tells, Test.outcome?, hval, Condition.testTruth]
  | instanceOf cls =>
    have hy : n.inputs[0]? = some (ins 0) := hins 0 (by simp [hk, Kind.arity])
    have hval := value?_operand hcache (hvals 0 (by simp [hk, Kind.arity]))
    have hclasses : g.unstamped.classes = g.classes := rfl
    have ht : Value.bool ((vals 0).isInstance g.classes heap cls) = v := by
      simpa [Node.result?, hkind, hk, hclasses] using hv
    refine ⟨(vals 0).isInstance g.classes heap cls,
      .predicate ⟨.instanceOf (g.operand (ins 0)).node cls, false, g.operand (ins 0), ⟨x, .void⟩⟩, ht.symm, ?_, ?_⟩
    · simp only [condition, hnode, hk, hy, bind, Except.bind, pure, Except.pure]
      rfl
    · simp [Tells, Test.outcome?, hval, Condition.testTruth]
  | compare op =>
    have hy : n.inputs[0]? = some (ins 0) := hins 0 (by simp [hk, Kind.arity])
    have hz : n.inputs[1]? = some (ins 1) := hins 1 (by simp [hk, Kind.arity])
    have ht : (Value.compare? op (vals 0) (vals 1)).map .bool = some v := by
      simpa [Node.result?, hkind, hk] using hv
    obtain ⟨t, ht, hvt⟩ := Option.map_eq_some_iff.mp ht
    obtain ⟨r, hr, htells⟩ := Compares.tells hcache ⟨n, hn, hk, hy, hz⟩ (hvals 0 (by simp [hk, Kind.arity]))
      (hvals 1 (by simp [hk, Kind.arity])) ht
    exact ⟨t, r, hvt.symm, hr, htells⟩
  | _ => simp [hk, Kind.isLogic] at hl

end Graph

namespace Comparison

/-- The operator says of swapped values what `op` says of them. -/
def Mirrors (op op' : Comparison) : Prop :=
  ∀ a b, Value.compare? op' b a = Value.compare? op a b

/-- The operator says the opposite of `op`, of the same values. -/
def Negates (op op' : Comparison) : Prop :=
  ∀ a b, Value.compare? op' a b = (Value.compare? op a b).map (!·)

def mirror? : Comparison → Option Comparison
  | .eq => some .eq
  | .ne => some .ne
  | .lt => some .gt
  | .gt => some .lt
  | .le => some .ge
  | .ge => some .le
  | .below => none

def negation? : Comparison → Option Comparison
  | .eq => some .ne
  | .ne => some .eq
  | .lt => some .ge
  | .ge => some .lt
  | .gt => some .le
  | .le => some .gt
  | .below => none

theorem mirrors_iff : op.Mirrors op' ↔ op.mirror? = some op' := by
  constructor
  · intro h
    -- Four pairs of integers tell the operators apart.
    have hlt := h (.int 0) (.int 1)
    have hgt := h (.int 1) (.int 0)
    have heq := h (.int 0) (.int 0)
    have hsign := h (.int (-1)) (.int 0)
    revert hlt hgt heq hsign
    cases op <;> cases op' <;> decide
  · intro h a b
    cases op <;> cases h <;> cases a <;> cases b <;> simp [Value.compare?, eq_comm]

theorem negates_iff : op.Negates op' ↔ op.negation? = some op' := by
  constructor
  · intro h
    have hlt := h (.int 0) (.int 1)
    have hgt := h (.int 1) (.int 0)
    have heq := h (.int 0) (.int 0)
    have hsign := h (.int (-1)) (.int 0)
    revert hlt hgt heq hsign
    cases op <;> cases op' <;> decide
  · intro h a b
    cases op <;> cases h <;> cases a <;> cases b <;> simp [Value.compare?, ← Int64.not_lt]

end Comparison

namespace Canonical

def negate : Canonical → Canonical
  | .constant value => .constant !value
  | .predicate c => .predicate { c with negated := !c.negated }

end Canonical

namespace Graph

theorem canonicalEquality_swap (hne : a.node ≠ b.node) (negated : Bool) :
    g.canonicalEquality negated b a = g.canonicalEquality negated a b := by
  unfold canonicalEquality
  have hle : b.node ≤ a.node ↔ ¬a.node ≤ b.node :=
    ⟨fun hba hab => hne (Nat.le_antisymm hab hba), fun hab => Nat.le_of_lt (Nat.not_le.mp hab)⟩
  cases g.isNullConstant a.node <;> cases g.isNullConstant b.node <;> simp only [hle, ite_not]

theorem canonicalEquality_not (negated : Bool) :
    Canonical.predicate (g.canonicalEquality (!negated) a b) =
      (Canonical.predicate (g.canonicalEquality negated a b)).negate := by
  unfold canonicalEquality
  repeat' split
  all_goals rfl

theorem canonicalComparison_mirror (h : op.mirror? = some op') :
    g.canonicalComparison op' b a = g.canonicalComparison op a b := by
  unfold canonicalComparison
  by_cases hab : a.node = b.node
  · cases op <;> cases h <;> simp [hab]
  · rw [if_neg hab, if_neg (Ne.symm hab)]
    cases op <;> cases h <;> simp only [canonicalEquality_swap hab]

theorem canonicalComparison_negation (h : op.negation? = some op') :
    g.canonicalComparison op' a b = (g.canonicalComparison op a b).negate := by
  unfold canonicalComparison
  by_cases hab : a.node = b.node
  · cases op <;> cases h <;> simp [hab, Canonical.negate]
  · rw [if_neg hab, if_neg hab]
    cases op with
    | eq =>
      cases h
      exact canonicalEquality_not false
    | ne =>
      cases h
      exact canonicalEquality_not true
    | _ => cases h <;> rfl

/-- Let a logic node evaluate in a frame that has no values cached, however deep evaluation goes. Then it has a
canonical form, which is its value if it is a constant, and otherwise holds a test of values below its inputs
that comes out, in the frame, as the condition says. Comparing swapped inputs by the converse operator has the
same canonical form, and comparing by the opposite operator has its negation. -/
theorem condition_agrees_with_evaluation (g : Graph) (heap : Heap) :
    (∀ x n f bound v f', g.get? x = some n → n.kind.isLogic = true → f.cache = .empty →
      Exec.evalCached g heap bound x f = .ok (v, f') →
      ∃ t r, v = .bool t ∧ g.condition x = .ok r ∧ g.Tells heap f t r) ∧
    ∀ x op a b, g.Compares x op a b → ∃ r, g.condition x = .ok r ∧
      (∀ y op', op.Mirrors op' → g.Compares y op' b a → g.condition y = .ok r) ∧
      ∀ y op', op.Negates op' → g.Compares y op' a b → g.condition y = .ok r.negate := by
  refine ⟨fun x n f bound v f' hn hl hcache h => condition_tells hcache hn hl (.of_evalCached hcache h), ?_⟩
  intro x op a b hx
  refine ⟨_, hx.condition, fun y op' hop hy => ?_, fun y op' hop hy => ?_⟩
  · rw [hy.condition, canonicalComparison_mirror (Comparison.mirrors_iff.mp hop)]
  · rw [hy.condition, canonicalComparison_negation (Comparison.negates_iff.mp hop)]

/-- Node 4 compares a refinement of the argument with 10, node 5 does so the other way round and node 6 asks
the opposite. -/
theorem condition_agrees_with_evaluation_less :
    let g : Graph :=
      ⟨#[{ kind := .start }, { kind := .parameter 0, stamp := .int .full },
        { kind := .constant (.int 10), stamp := .int (.constant 10) }, { kind := .pi, inputs := [1] },
        { kind := .compare .lt, inputs := [3, 2] }, { kind := .compare .gt, inputs := [2, 3] },
        { kind := .compare .ge, inputs := [3, 2] }], .root⟩
    let f : Frame := { args := [.int 5] }
    let less : Condition := ⟨.lessThan 1 2, false, ⟨1, .int .full⟩, ⟨2, .int (.constant 10)⟩⟩
    less.test.outcome? g.classes [] (f.value? g []) = some (less.testTruth true) ∧
    g.condition 5 = .ok (.predicate less) ∧ g.condition 6 = .ok (.predicate { less with negated := true }) := by
  intro g f less
  obtain ⟨htells, hforms⟩ := condition_agrees_with_evaluation g []
  have heval : ∃ f', Exec.evalCached g [] 3 4 f = .ok (.bool true, f') := ⟨_, rfl⟩
  have hless : g.condition 4 = .ok (.predicate less) := rfl
  obtain ⟨f', hf'⟩ := heval
  obtain ⟨t, r, ht, hr, houtcome⟩ := htells 4 _ f 3 _ f' rfl rfl rfl hf'
  cases Value.bool.inj ht
  cases hless.symm.trans hr
  obtain ⟨r, hr, hmirror, hnegate⟩ := hforms 4 .lt 3 2 ⟨_, rfl, rfl, rfl, rfl⟩
  cases hless.symm.trans hr
  exact ⟨houtcome, hmirror 5 .gt (Comparison.mirrors_iff.mpr rfl) ⟨_, rfl, rfl, rfl, rfl⟩,
    hnegate 6 .ge (Comparison.negates_iff.mpr rfl) ⟨_, rfl, rfl, rfl, rfl⟩⟩

end Graph

end GuardElision
