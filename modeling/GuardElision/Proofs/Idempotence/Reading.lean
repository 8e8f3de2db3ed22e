import GuardElision.Proofs.Execution.Condition
import GuardElision.Proofs.Graph.Links

namespace GuardElision

namespace Graph

variable {g h : Graph} {i j x : NodeId} {n : Node}

/-- The graphs have the same node under an id, as far as values go. -/
def SameValue (g h : Graph) (j : NodeId) : Prop :=
  (h.get? j).map (fun n => (n.kind, n.inputs, n.stamp)) = (g.get? j).map fun n => (n.kind, n.inputs, n.stamp)

theorem SameValue.symm (H : SameValue g h j) : SameValue h g j :=
  Eq.symm H

theorem SameValue.exists_node (H : SameValue g h j) (hn : g.get? j = some n) :
    ∃ m, h.get? j = some m ∧ m.kind = n.kind ∧ m.inputs = n.inputs ∧ m.stamp = n.stamp := by
  unfold SameValue at H
  rw [hn, Option.map_some, Option.map_eq_some_iff] at H
  obtain ⟨m, hm, he⟩ := H
  obtain ⟨hkind, hinputs, hstamp⟩ := by simpa only [Prod.mk.injEq] using he
  exact ⟨m, hm, hkind, hinputs, hstamp⟩

theorem SameValue.of_node {m : Node} (hn : g.get? j = some n) (hm : h.get? j = some m) (hkind : m.kind = n.kind)
    (hinputs : m.inputs = n.inputs) (hstamp : m.stamp = n.stamp) : SameValue g h j := by
  simp [SameValue, hn, hm, hkind, hinputs, hstamp]

theorem SameValue.of_none (hn : g.get? j = none) (hm : h.get? j = none) : SameValue g h j := by
  simp [SameValue, hn, hm]

theorem SameValue.stamp_eq (H : SameValue g h j) : h.stamp j = g.stamp j := by
  unfold SameValue at H
  unfold stamp
  cases hn : g.get? j <;> cases hm : h.get? j <;> simp_all

theorem SameValue.kind?_eq (H : SameValue g h j) : h.kind? j = g.kind? j := by
  unfold SameValue at H
  unfold kind?
  cases hn : g.get? j <;> cases hm : h.get? j <;> simp_all

/-- The nodes on the way from a value down through its refinements. -/
inductive Below (g : Graph) (i : NodeId) : NodeId → Prop where
  | refl : Below g i i
  | step {j k : NodeId} {n : Node} : Below g i j → g.get? j = some n → n.kind = .pi → k ∈ n.inputs → Below g i k

theorem Below.trans {k : NodeId} (h : g.Below i j) (h' : g.Below j k) : g.Below i k := by
  induction h' with
  | refl => exact h
  | step _ hn hk hi ih => exact .step ih hn hk hi

theorem below_refinedValue (g : Graph) (bound : Nat) (i : NodeId) : g.Below i (g.refinedValue bound i) := by
  induction bound generalizing i with
  | zero => exact .refl
  | succ bound ih =>
    rcases g.refinedValue_succ bound i with ⟨n, y, hn, hk, hy, he⟩ | ⟨he, -⟩
    · have hstep : g.Below i y := .step .refl hn hk (List.mem_of_getElem? hy)
      rw [he]
      exact hstep.trans (ih y)
    · rw [he]
      exact .refl

theorem refinedValue_congr (H : ∀ j, g.Below i j → SameValue g h j) (bound : Nat) :
    h.refinedValue bound i = g.refinedValue bound i := by
  induction bound generalizing i with
  | zero => rfl
  | succ bound ih =>
    have hsame := H i .refl
    rcases g.refinedValue_succ bound i with ⟨n, y, hn, hk, hy, he⟩ | ⟨he, hnil⟩
    · obtain ⟨m, hm, hkind, hinputs, -⟩ := hsame.exists_node hn
      have hstep : g.Below i y := .step .refl hn hk (List.mem_of_getElem? hy)
      rcases h.refinedValue_succ bound i with ⟨m', y', hm', -, hy', he'⟩ | ⟨-, hnil'⟩
      · cases hm.symm.trans hm'
        rw [hinputs, hy] at hy'
        cases hy'
        rw [he, he']
        exact ih fun j hj => H j (hstep.trans hj)
      · rw [← hinputs, hnil' m hm (hkind.trans hk)] at hy
        cases hy
    · rcases h.refinedValue_succ bound i with ⟨m', y', hm', hk', hy', -⟩ | ⟨he', -⟩
      · obtain ⟨n, hn, hkind, hinputs, -⟩ := hsame.symm.exists_node hm'
        rw [← hinputs, hnil n hn (hkind.trans hk')] at hy'
        cases hy'
      · rw [he, he']

theorem rootValue_congr (hcap : h.capacity = g.capacity) (H : ∀ j, g.Below i j → SameValue g h j) :
    h.rootValue i = g.rootValue i ∧ SameValue g h (g.rootValue i) := by
  refine ⟨?_, H _ (g.below_refinedValue g.capacity i)⟩
  unfold rootValue
  rw [hcap]
  exact refinedValue_congr H g.capacity

theorem canonicalComparison_congr {a b : Operand} (ha : SameValue g h a.node) (hb : SameValue g h b.node)
    (op : Comparison) : h.canonicalComparison op a b = g.canonicalComparison op a b := by
  have hnull : h.isNullConstant a.node = g.isNullConstant a.node ∧
      h.isNullConstant b.node = g.isNullConstant b.node := by
    unfold isNullConstant
    rw [ha.kind?_eq, hb.kind?_eq]
    exact ⟨rfl, rfl⟩
  simp only [canonicalComparison, canonicalEquality, hnull.1, hnull.2]

/-- The canonical form is the same where the logic node and the values below its inputs are. -/
theorem condition_congr (hcap : h.capacity = g.capacity) (hx : SameValue g h x)
    (H : ∀ n, g.get? x = some n → ∀ i ∈ n.inputs, ∀ j, g.Below i j → SameValue g h j) :
    h.condition x = g.condition x := by
  unfold condition node
  cases hn : g.get? x with
  | none =>
    have hm : h.get? x = none := by simpa [SameValue, hn] using hx
    rw [hm]
    rfl
  | some n =>
    obtain ⟨m, hm, hkind, hinputs, -⟩ := hx.exists_node hn
    have hroot : ∀ k y, n.inputs[k]? = some y → h.rootValue y = g.rootValue y ∧ SameValue g h (g.rootValue y) :=
      fun k y hy => rootValue_congr hcap (H n hn y (List.mem_of_getElem? hy))
    simp only [hm, bind, Except.bind, hkind, hinputs]
    cases n.kind with
    | compare op =>
      cases ha : n.inputs[0]? with
      | none => rfl
      | some a =>
        cases hb : n.inputs[1]? with
        | none => rfl
        | some b =>
          obtain ⟨hra, hsa⟩ := hroot 0 a ha
          obtain ⟨hrb, hsb⟩ := hroot 1 b hb
          simp only [hra, hrb, hsa.stamp_eq, hsb.stamp_eq]
          rw [canonicalComparison_congr hsa hsb]
    | isNull | instanceOf cls =>
      cases ha : n.inputs[0]? with
      | none => rfl
      | some a =>
        obtain ⟨hra, hsa⟩ := hroot 0 a ha
        simp only [hra, hsa.stamp_eq]
    | _ => rfl

/-- Logic nodes and refinements take values: neither a guard nor another logic node stands below them. -/
def OverValues (g : Graph) : Prop :=
  ∀ id n, g.get? id = some n → n.kind.isLogic = true ∨ n.kind = .pi → ∀ i ∈ n.inputs, ∀ m, g.get? i = some m →
    m.kind.isGuard = false ∧ m.kind.isLogic = false

theorem OverValues.below (O : g.OverValues) (hx : g.get? x = some n) (hk : n.kind.isLogic = true) (hi : i ∈ n.inputs)
    (hj : g.Below i j) : ∀ m, g.get? j = some m → m.kind.isGuard = false ∧ m.kind.isLogic = false := by
  cases hj with
  | refl => exact O x n hx (.inl hk) i hi
  | step _ hn hpi hmem => exact O _ _ hn (.inr hpi) _ hmem

/-- An edit of the guards at one anchor: some go, some get another test, and nodes may be guarded by others. -/
structure EditsAt (a : NodeId) (g h : Graph) : Prop where
  classes : h.classes = g.classes
  capacity : h.capacity = g.capacity
  keep : ∀ j n, g.get? j = some n → (n.kind.isGuard = true → n.anchor ≠ some a) →
    ∃ guard, h.get? j = some { n with guard }
  back : ∀ j n, h.get? j = some n → ∃ m, g.get? j = some m ∧ n.kind.isGuard = m.kind.isGuard ∧ n.anchor = m.anchor
  test : ∀ j n, h.get? j = some n → n.kind.isGuard = true →
    ∃ i m, g.get? i = some m ∧ m.kind = n.kind ∧ m.inputs = n.inputs

namespace EditsAt

variable {a b : NodeId} {k : Graph}

theorem refl (a : NodeId) (g : Graph) : EditsAt a g g :=
  ⟨rfl, rfl, fun _ n hn _ => ⟨n.guard, hn⟩, fun _ n hn => ⟨n, hn, rfl, rfl⟩, fun j n hn _ => ⟨j, n, hn, rfl, rfl⟩⟩

theorem trans (E : EditsAt a g h) (E' : EditsAt a h k) : EditsAt a g k := by
  refine ⟨E'.classes.trans E.classes, E'.capacity.trans E.capacity, fun j n hn hother => ?_, fun j n hn => ?_,
    fun j n hn hg => ?_⟩
  · obtain ⟨guard, hm⟩ := E.keep j n hn hother
    obtain ⟨guard', hl⟩ := E'.keep j _ hm hother
    exact ⟨guard', hl⟩
  · obtain ⟨m, hm, hguard, hanchor⟩ := E'.back j n hn
    obtain ⟨l, hl, hguard', hanchor'⟩ := E.back j m hm
    exact ⟨l, hl, hguard.trans hguard', hanchor.trans hanchor'⟩
  · obtain ⟨i, m, hm, hkind, hinputs⟩ := E'.test j n hn hg
    obtain ⟨i', l, hl, hkind', hinputs'⟩ := E.test i m hm (hkind ▸ hg)
    exact ⟨i', l, hl, hkind'.trans hkind, hinputs'.trans hinputs⟩

/-- All but guards is the same value as before. -/
theorem sameValue (E : EditsAt a g h) (hj : ∀ n, g.get? j = some n → n.kind.isGuard = false) : SameValue g h j := by
  cases hn : g.get? j with
  | none =>
    refine .of_none hn (Option.eq_none_iff_forall_ne_some.mpr fun m hm => ?_)
    obtain ⟨n, hn', -⟩ := E.back j m hm
    cases hn.symm.trans hn'
  | some n =>
    have hother : n.kind.isGuard = true → n.anchor ≠ some a := by
      intro hg
      rw [hj n hn] at hg
      cases hg
    obtain ⟨guard, hm⟩ := E.keep j n hn hother
    exact .of_node hn hm rfl rfl rfl

theorem sameControl (E : EditsAt a g h) : SameControl g h := by
  have hkeep : ∀ c m, g.get? c = some m → m.kind.isControl = true → ∃ guard, h.get? c = some { m with guard } := by
    intro c m hm hk
    refine E.keep c m hm fun hg => ?_
    rw [Kind.isGuard_of_isControl hk] at hg
    cases hg
  refine ⟨E.capacity, fun x n hn => ?_, fun c m hm hk => ?_, fun c n hn hk => ?_⟩
  · obtain ⟨m, hm, -⟩ := E.back x n hn
    exact ⟨m, hm⟩
  · obtain ⟨guard, hn⟩ := hkeep c m hm hk
    exact ⟨_, hn, rfl, rfl, rfl, rfl⟩
  · obtain ⟨m, hm, hguard, -⟩ := E.back c n hn
    have hplain : m.kind.isGuard = false := hguard ▸ Kind.isGuard_of_isControl hk
    obtain ⟨guard, hn'⟩ := E.keep c m hm fun hg => by rw [hplain] at hg; cases hg
    cases hn.symm.trans hn'
    exact ⟨m, hm, rfl, rfl, rfl, rfl⟩

/-- The canonical form of a logic node over values is not read from guards. -/
theorem condition_eq (E : EditsAt a g h) (O : g.OverValues) (hn : g.get? x = some n) (hk : n.kind.isLogic = true) :
    h.condition x = g.condition x := by
  have hplain : ∀ m, g.get? x = some m → m.kind.isGuard = false := by
    intro m hm
    cases hn.symm.trans hm
    exact Kind.isGuard_of_isLogic hk
  refine condition_congr E.capacity (E.sameValue hplain) fun m hm i hi j hj => ?_
  cases hn.symm.trans hm
  exact E.sameValue fun l hl => (O.below hn hk hi hj l hl).1

theorem condition_ok (E : EditsAt a g h) (O : g.OverValues) {c : Canonical} (hc : g.condition x = .ok c) :
    h.condition x = .ok c := by
  obtain ⟨n, hn, hk⟩ := condition_isLogic hc
  rw [E.condition_eq O hn hk, hc]

theorem overValues (E : EditsAt a g h) (O : g.OverValues) : h.OverValues := by
  have hplain : ∀ j m, h.get? j = some m → m.kind.isGuard = false → ∃ l, g.get? j = some l ∧ l.kind = m.kind ∧
      l.inputs = m.inputs := by
    intro j m hm hg
    obtain ⟨l, hl, hguard, -⟩ := E.back j m hm
    obtain ⟨guard, hm'⟩ := E.keep j l hl fun hg' => by rw [← hguard, hg] at hg'; cases hg'
    cases hm.symm.trans hm'
    exact ⟨l, hl, rfl, rfl⟩
  intro id n hn hk i hi m hm
  have hg : n.kind.isGuard = false := by
    rcases hk with hk | hk
    · exact Kind.isGuard_of_isLogic hk
    · rw [hk]
      rfl
  obtain ⟨n', hn', hkind, hinputs⟩ := hplain id n hn hg
  obtain ⟨m', hm', hguard, -⟩ := E.back i m hm
  obtain ⟨hg', hl'⟩ := O id n' hn' (hkind ▸ hk) i (hinputs ▸ hi) m' hm'
  obtain ⟨m'', hm'', hkind', -⟩ := hplain i m hm (hguard.trans hg')
  cases hm'.symm.trans hm''
  exact ⟨hguard.trans hg', hkind' ▸ hl'⟩

end EditsAt

end Graph

end GuardElision
