import GuardElision.Proofs.Execution.Eval

namespace GuardElision

namespace Graph

variable {g : Graph} {heap : Heap} {f : Frame}

theorem refinedValue_succ (g : Graph) (k : Nat) (id : NodeId) :
    (∃ n x, g.get? id = some n ∧ n.kind = .pi ∧ n.inputs[0]? = some x ∧
      g.refinedValue (k + 1) id = g.refinedValue k x) ∨
    (g.refinedValue (k + 1) id = id ∧
      ∀ n, g.get? id = some n → n.kind = .pi → n.inputs = []) := by
  rw [refinedValue]
  split
  next heq => exact Or.inl ⟨_, _, heq, rfl, rfl, rfl⟩
  next hno =>
    refine Or.inr ⟨rfl, fun n hn hk => ?_⟩
    cases hi : n.inputs with
    | nil => rfl
    | cons x rest =>
      obtain ⟨kind, stamp, inputs, successors, predecessors, anchor, guard, memory, removed, synthetic⟩ := n
      subst hk hi
      exact absurd hn (hno _ _ _ _ _ _ _ _ _ _)

theorem eval_refinedValue {k : Nat} {id : NodeId} {v : Value} (h : Eval g heap f id v) :
    Eval g heap f (g.refinedValue k id) v := by
  induction k generalizing id with
  | zero => exact h
  | succ k ih =>
    rcases g.refinedValue_succ k id with ⟨n, x, hn, hk, hx, he⟩ | ⟨he, _⟩
    · rw [he]
      exact ih (h.pi_input hn hk hx)
    · rw [he]
      exact h

def operand (g : Graph) (x : NodeId) : Operand :=
  ⟨g.rootValue x, g.stamp (g.rootValue x)⟩

theorem condition_ok {x : NodeId} {r : Canonical} (hc : g.condition x = .ok r) :
    ∃ n, g.get? x = some n ∧
      ((∃ b, n.kind = .logicConstant b ∧ r = .constant b) ∨
      (∃ y, n.kind = .isNull ∧ n.inputs[0]? = some y ∧
        r = .predicate ⟨.isNull (g.operand y).node, false, g.operand y, ⟨x, .void⟩⟩) ∨
      (∃ y cls, n.kind = .instanceOf cls ∧ n.inputs[0]? = some y ∧
        r = .predicate ⟨.instanceOf (g.operand y).node cls, false, g.operand y, ⟨x, .void⟩⟩) ∨
      (∃ y z op, n.kind = .compare op ∧ n.inputs[0]? = some y ∧ n.inputs[1]? = some z ∧
        r = g.canonicalComparison op (g.operand y) (g.operand z))) := by
  unfold condition at hc
  cases hn : g.node x with
  | error e => simp [hn, bind, Except.bind] at hc
  | ok n =>
    refine ⟨n, node_eq_ok_iff.mp hn, ?_⟩
    simp only [hn, bind, Except.bind] at hc
    cases hk : n.kind with
    | logicConstant b =>
      simp only [hk, pure, Except.pure, Except.ok.injEq] at hc
      exact Or.inl ⟨b, rfl, hc.symm⟩
    | isNull =>
      refine Or.inr (Or.inl ?_)
      cases hx : n.inputs[0]? with
      | none => simp [hk, hx] at hc
      | some y =>
        simp only [hk, hx, pure, Except.pure, Except.ok.injEq] at hc
        exact ⟨y, rfl, rfl, hc.symm⟩
    | instanceOf cls =>
      refine Or.inr (Or.inr (Or.inl ?_))
      cases hx : n.inputs[0]? with
      | none => simp [hk, hx] at hc
      | some y =>
        simp only [hk, hx, pure, Except.pure, Except.ok.injEq] at hc
        exact ⟨y, cls, rfl, rfl, hc.symm⟩
    | compare op =>
      refine Or.inr (Or.inr (Or.inr ?_))
      cases hx : n.inputs[0]? with
      | none => simp [hk, hx] at hc
      | some y =>
        cases hz : n.inputs[1]? with
        | none => simp [hk, hx, hz] at hc
        | some z =>
          simp only [hk, hx, hz, pure, Except.pure, Except.ok.injEq] at hc
          exact ⟨y, z, op, rfl, rfl, rfl, hc.symm⟩
    | _ => simp [hk, throw, throwThe, MonadExceptOf.throw] at hc

theorem condition_isLogic {c : Canonical} (hc : g.condition x = .ok c) :
    ∃ n, g.get? x = some n ∧ n.kind.isLogic = true := by
  obtain ⟨n, hn, hcase⟩ := condition_ok hc
  refine ⟨n, hn, ?_⟩
  rcases hcase with ⟨b, hk, -⟩ | ⟨y, hk, -⟩ | ⟨y, cls, hk, -⟩ | ⟨y, z, op, hk, -⟩ <;> rw [hk] <;> rfl

theorem eval_isNullConstant {x : NodeId} {v : Value} (hx : g.isNullConstant x = true) (h : Eval g heap f x v) :
    v = .null := by
  obtain ⟨n, hn, hk⟩ := kind?_eq_some_iff.mp (of_decide_eq_true hx)
  obtain ⟨ins, vals, hn', _, _, hv, _⟩ := h
  cases hn.symm.trans hn'
  simpa [Node.result?, hk, eq_comm] using hv

/-- The test of a canonical condition agrees with the truth of the comparison it was made from. -/
def Agrees (c : Condition) (t : Bool) (a b : Operand) (va vb : Value) : Prop :=
  ∀ V : Valuation, (a ∈ c.operands → V.value a.node = va) → (b ∈ c.operands → V.value b.node = vb) →
    V.truth c.test = c.testTruth t

theorem canonicalEquality_agrees {a b : Operand} {va vb : Value} (negated : Bool)
    (ha : g.isNullConstant a.node = true → va = .null) (hb : g.isNullConstant b.node = true → vb = .null) :
    Agrees (g.canonicalEquality negated a b) ((va = vb) != negated) a b va vb := by
  unfold canonicalEquality
  split
  next hna hnb =>
    intro V hV _
    obtain rfl := hb hnb
    simp [Valuation.truth, Condition.testTruth, hV (by simp [Condition.operands])]
  next hna hnb =>
    intro V _ hV
    obtain rfl := ha hna
    simp [Valuation.truth, Condition.testTruth, hV (by simp [Condition.operands]), eq_comm]
  next =>
    split
    all_goals
      intro V hVa hVb
      simp [Valuation.truth, Condition.testTruth, hVa (by simp [Condition.operands]),
        hVb (by simp [Condition.operands]), eq_comm]

/-- A canonical comparison is about its operands. -/
theorem canonicalComparison_shape {op : Comparison} {a b : Operand} {c : Condition}
    (hc : g.canonicalComparison op a b = .predicate c) : c.Matched ∧ ∀ o ∈ c.operands, o = a ∨ o = b := by
  have hequality : ∀ negated, (g.canonicalEquality negated a b).Matched ∧
      ∀ o ∈ (g.canonicalEquality negated a b).operands, o = a ∨ o = b := by
    intro negated
    unfold canonicalEquality
    repeat' split
    all_goals simp [Condition.Matched, Condition.operands, or_comm]
  unfold canonicalComparison at hc
  split at hc
  next => cases hc
  next =>
    obtain rfl := Canonical.predicate.inj hc
    cases op with
    | eq => exact hequality false
    | ne => exact hequality true
    | _ => simp [Condition.Matched, Condition.operands, or_comm]

theorem compare?_eq {va vb : Value} {t : Bool} (h : Value.compare? .eq va vb = some t) : t = decide (va = vb) := by
  cases va <;> cases vb <;> simp_all [Value.compare?]

theorem compare?_ne {va vb : Value} {t : Bool} (h : Value.compare? .ne va vb = some t) :
    t = !decide (va = vb) := by
  cases va <;> cases vb <;> simp_all [Value.compare?]

theorem compare?_order {op : Comparison} {va vb : Value} {t : Bool} (h : Value.compare? op va vb = some t)
    (heq : op ≠ .eq) (hne : op ≠ .ne) : ∃ x y, va = .int x ∧ vb = .int y := by
  cases va <;> cases vb <;> cases op <;> simp_all [Value.compare?]

theorem compare?_self {op : Comparison} {v : Value} {t : Bool} (h : Value.compare? op v v = some t) :
    t = (decide (op = .eq) || decide (op = .le) || decide (op = .ge)) := by
  cases op <;> cases v <;> simp_all [Value.compare?, Word.below]

theorem order_agrees (test : NodeId → NodeId → Test) (order : Word → Word → Bool) {a b : Operand} (x y : Word)
    (htest : ∀ V : Valuation, ∀ x y, V.value a.node = .int x → V.value b.node = .int y →
      V.truth (test a.node b.node) = order x y) (negated : Bool)
    (hops : (⟨test a.node b.node, negated, a, b⟩ : Condition).operands = [a, b]) :
    Agrees ⟨test a.node b.node, negated, a, b⟩ (order x y != negated) a b (.int x) (.int y) := by
  intro V hVa hVb
  rw [htest V x y (hVa (by simp [hops])) (hVb (by simp [hops]))]
  simp [Condition.testTruth]

theorem Agrees.swap {c : Condition} {t : Bool} {a b : Operand} {va vb : Value} (h : Agrees c t a b va vb) :
    Agrees c t b a vb va :=
  fun V hb ha => h V ha hb

theorem canonicalComparison_constant {op : Comparison} {a b : Operand} {va vb : Value} {t value : Bool}
    (hsame : a.node = b.node → va = vb) (ht : Value.compare? op va vb = some t)
    (hc : g.canonicalComparison op a b = .constant value) : value = t := by
  unfold canonicalComparison at hc
  split at hc
  next hab =>
    obtain rfl := hsame hab
    rw [compare?_self ht]
    exact (Canonical.constant.inj hc).symm
  next => cases hc

theorem canonicalComparison_agrees {op : Comparison} {a b : Operand} {va vb : Value} {t : Bool} {c : Condition}
    (ha : g.isNullConstant a.node = true → va = .null) (hb : g.isNullConstant b.node = true → vb = .null)
    (ht : Value.compare? op va vb = some t)
    (hc : g.canonicalComparison op a b = .predicate c) : Agrees c t a b va vb := by
  have hless : ∀ (a b : Operand) (x y : Word) (negated : Bool),
      Agrees ⟨.lessThan a.node b.node, negated, a, b⟩ (decide (x < y) != negated) a b (.int x) (.int y) :=
    fun a b x y negated => order_agrees .lessThan (fun x y => decide (x < y)) x y
      (fun V x y hx hy => by simp [Valuation.truth, hx, hy]) negated rfl
  unfold canonicalComparison at hc
  split at hc
  next => cases hc
  next =>
    obtain rfl := Canonical.predicate.inj hc
    cases op with
    | eq =>
      rw [compare?_eq ht]
      simpa using canonicalEquality_agrees false ha hb
    | ne =>
      rw [compare?_ne ht]
      simpa using canonicalEquality_agrees true ha hb
    | lt =>
      obtain ⟨x, y, rfl, rfl⟩ := compare?_order ht (by simp) (by simp)
      obtain rfl := Option.some.inj ht
      simpa using hless a b x y false
    | gt =>
      obtain ⟨x, y, rfl, rfl⟩ := compare?_order ht (by simp) (by simp)
      obtain rfl := Option.some.inj ht
      simpa using (hless b a y x false).swap
    | ge =>
      obtain ⟨x, y, rfl, rfl⟩ := compare?_order ht (by simp) (by simp)
      obtain rfl := Option.some.inj ht
      simpa [← Int64.not_lt] using hless a b x y true
    | le =>
      obtain ⟨x, y, rfl, rfl⟩ := compare?_order ht (by simp) (by simp)
      obtain rfl := Option.some.inj ht
      simpa [← Int64.not_lt] using (hless b a y x true).swap
    | below =>
      obtain ⟨x, y, rfl, rfl⟩ := compare?_order ht (by simp) (by simp)
      obtain rfl := Option.some.inj ht
      simpa using order_agrees .below Word.below x y
        (fun V x y hx hy => by simp [Valuation.truth, hx, hy]) false rfl

/-- The operands of a condition are the values below the inputs of its node. -/
theorem condition_operands {x : NodeId} {c : Condition} (hc : g.condition x = .ok (.predicate c)) :
    ∃ n, g.get? x = some n ∧ n.kind.isLogic = true ∧ ∀ o ∈ c.operands, ∃ y ∈ n.inputs, o = g.operand y := by
  obtain ⟨n, hn, hcase⟩ := condition_ok hc
  refine ⟨n, hn, ?_⟩
  rcases hcase with ⟨b, hk, hr⟩ | ⟨y, hk, hy, hr⟩ | ⟨y, cls, hk, hy, hr⟩ | ⟨y, z, op, hk, hy, hz, hr⟩
  · cases hr
  · cases hr
    refine ⟨by rw [hk]; rfl, fun o ho => ⟨y, List.mem_of_getElem? hy, ?_⟩⟩
    simpa [Condition.operands] using ho
  · cases hr
    refine ⟨by rw [hk]; rfl, fun o ho => ⟨y, List.mem_of_getElem? hy, ?_⟩⟩
    simpa [Condition.operands] using ho
  · refine ⟨by rw [hk]; rfl, fun o ho => ?_⟩
    rcases (canonicalComparison_shape hr.symm).2 o ho with rfl | rfl
    · exact ⟨y, List.mem_of_getElem? hy, rfl⟩
    · exact ⟨z, List.mem_of_getElem? hz, rfl⟩

theorem condition_matched {x : NodeId} {c : Condition} (hc : g.condition x = .ok (.predicate c)) : c.Matched := by
  obtain ⟨n, hn, hcase⟩ := condition_ok hc
  rcases hcase with ⟨b, hk, hr⟩ | ⟨y, hk, hy, hr⟩ | ⟨y, cls, hk, hy, hr⟩ | ⟨y, z, op, hk, hy, hz, hr⟩
  · cases hr
  · cases hr
    rfl
  · cases hr
    rfl
  · exact (canonicalComparison_shape hr.symm).1

end Graph

end GuardElision
