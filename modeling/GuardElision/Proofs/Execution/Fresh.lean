import GuardElision.Proofs.Execution.Conforming
import GuardElision.Proofs.Placement.Position

namespace GuardElision

namespace Graph

/-- The value of `x` is found from that of `y`. -/
def Takes (g : Graph) (x y : NodeId) : Prop :=
  ∃ n i, g.get? x = some n ∧ i < n.kind.arity ∧ n.inputs[i]? = some y

/-- The epoch of memory state `m` is looked at to find the value of `x`. -/
def LooksAt (g : Graph) (x m : NodeId) : Prop :=
  ∃ y n field, Relation.ReflTransGen g.Takes x y ∧ g.get? y = some n ∧ n.kind = .read field ∧ n.memory = some m

/-- No node has an input that is gone. -/
def InputsLive (g : Graph) : Prop :=
  ∀ x n y, g.get? x = some n → y ∈ n.inputs → ∃ m, g.get? y = some m

variable {g : Graph} {x y m : NodeId}

theorem Takes.computes (h : g.Takes x y) : g.Computes x y := by
  obtain ⟨n, i, hn, hi, hy⟩ := h
  refine ⟨n, hn, ?_, ?_, List.mem_of_getElem? hy⟩
  · cases hk : n.kind with
    | pi | isNull | instanceOf | read | compare => rfl
    | _ => simp [hk, Kind.arity] at hi
  · intro hk
    simp [hk, Kind.arity] at hi

theorem LooksAt.of_takes (h : Relation.ReflTransGen g.Takes x y) (hy : g.LooksAt y m) : g.LooksAt x m := by
  obtain ⟨z, n, field, hz, hread⟩ := hy
  exact ⟨z, n, field, h.trans hz, hread⟩

/-- Values that are computed from older nodes only are not computed from themselves. -/
theorem acyclic_of_lt (h : ∀ x n y, g.get? x = some n → y ∈ n.inputs → y < x) : ∀ x, ¬Relation.TransGen g.Computes x x := by
  have hlt : Relation.TransGen g.Computes ≤ (· > ·) :=
    Relation.transGen_minimal fun x y ⟨n, hn, _, _, hy⟩ => h x n y hn hy
  exact fun x hx => (hlt x x hx).false

theorem height_le_capacity (g : Graph) (x : NodeId) : g.height x ≤ g.capacity := by
  classical
  exact (Finset.card_filter_le _ _).trans_eq (Finset.card_range _)

theorem height_lt_of_takes (hacyclic : ∀ x, ¬Relation.TransGen g.Computes x x) (hlive : g.InputsLive)
    (h : g.Takes x y) : g.height y < g.height x := by
  obtain ⟨n, hn, _, _, hy⟩ := h.computes
  obtain ⟨m, hm⟩ := hlive x n y hn hy
  exact height_lt hacyclic h.computes (lt_capacity hm)

end Graph

/-- The nodes in `P` are found from nodes in `P`. -/
def ClosedUnderTakes (g : Graph) (P : NodeId → Prop) : Prop :=
  ∀ x y, P x → g.Takes x y → P y

namespace Exec

variable {g : Graph} {heap : Heap} {ev ev' : Evaluator} {id : NodeId} {n : Node} {f f' : Frame} {v : Value}
  {bound bound' : Nat}

theorem node_bind {α : Type} (hn : g.get? id = some n) (k : Node → Exec α) :
    (liftM (g.node id) >>= k : Exec α) = k n := by
  rw [Graph.node_eq_ok_iff.mpr hn]
  rfl

theorem node_bind_none {α : Type} (hn : g.get? id = none) (k : Node → Exec α) :
    (liftM (g.node id) >>= k : Exec α) = throw (.invalidNode id) := by
  unfold Graph.node
  rw [hn]
  rfl

theorem input_bind {α : Type} {i : Nat} {x : NodeId} (hx : n.inputs[i]? = some x) (k : NodeId → Exec α) :
    (liftM (input id n i) >>= k : Exec α) = k x := by
  rw [input_ok.mpr hx]
  rfl

theorem input_bind_none {α : Type} {i : Nat} (hx : n.inputs[i]? = none) (k : NodeId → Exec α) :
    (liftM (input id n i) >>= k : Exec α) = throw (.internal (.missingInput id n.kind i)) := by
  unfold input
  rw [hx]
  rfl

/-- Inputs that are evaluated alike give the same value. -/
theorem compute_congr (h : ∀ i < n.kind.arity, ∀ x, n.inputs[i]? = some x → ev x = ev' x) :
    compute g heap ev id n = compute g heap ev' id n := by
  have hinput : ∀ {α : Type} (i : Nat) (k : Value → Exec α), i < n.kind.arity →
      (liftM (input id n i) >>= fun x => ev x >>= k : Exec α) = liftM (input id n i) >>= fun x => ev' x >>= k := by
    intro α i k hi
    cases hx : n.inputs[i]? with
    | none => rw [input_bind_none hx, input_bind_none hx]
    | some x => rw [input_bind hx, input_bind hx, h i hi x hx]
  unfold compute
  cases hk : n.kind with
  | pi => simpa using hinput 0 pure (by simp [hk, Kind.arity])
  | isNull | instanceOf | read => exact hinput 0 _ (by simp [hk, Kind.arity])
  | compare op =>
    refine (hinput 0 _ (by simp [hk, Kind.arity])).trans ?_
    refine bind_congr fun x => bind_congr fun a => ?_
    exact hinput 1 _ (by simp [hk, Kind.arity])
  | constant c => cases c <;> rfl
  | _ => rfl

/-- Where no value is computed from itself, any bound that is large enough will do. -/
theorem evalFresh_bound (hacyclic : ∀ x, ¬Relation.TransGen g.Computes x x) (hlive : g.InputsLive)
    (hb : g.height id < bound) (hb' : g.height id < bound') :
    evalFresh g heap bound id = evalFresh g heap bound' id := by
  induction bound generalizing bound' id with
  | zero => exact absurd hb (Nat.not_lt_zero _)
  | succ bound ih =>
    obtain ⟨bound', rfl⟩ : ∃ b, bound' = b + 1 := ⟨bound' - 1, by omega⟩
    rw [evalFresh, evalFresh]
    cases hn : g.get? id with
    | none => rw [node_bind_none hn, node_bind_none hn]
    | some n =>
      rw [node_bind hn, node_bind hn]
      refine compute_congr fun i hi x hx => ?_
      have hlt := Graph.height_lt_of_takes hacyclic hlive ⟨n, i, hn, hi, hx⟩
      exact ih (by omega) (by omega)

/-- An evaluator that leaves the frame as it is finds a value exactly if it finds those of the inputs and
they admit one. -/
theorem compute_ok_of_keeps (hev : ∀ x w f', ev x f = .ok (w, f') → f = f') :
    compute g heap ev id n f = .ok (v, f') ↔ f = f' ∧ ∃ ins : Nat → NodeId, ∃ vals : Nat → Value,
      (∀ i < n.kind.arity, n.inputs[i]? = some (ins i)) ∧ (∀ i < n.kind.arity, ev (ins i) f = .ok (vals i, f)) ∧
      n.result? g.classes heap f id vals = some v := by
  rcases arity_cases n.kind with hk | hk | hk
  · rw [compute_zero hk fun _ => .null]
    constructor
    · rintro ⟨hv, rfl⟩
      exact ⟨rfl, fun _ => id, fun _ => .null, by simp [hk], by simp [hk], hv⟩
    · rintro ⟨rfl, ins, vals, _, _, hv⟩
      exact ⟨(Node.result?_congr (by simp [hk])).trans hv, rfl⟩
  · rw [compute_one hk]
    constructor
    · rintro ⟨x, w, hx, hw, hv⟩
      obtain rfl := hev x w f' hw
      refine ⟨rfl, fun _ => x, fun _ => w, fun i hi => ?_, fun _ _ => hw, hv⟩
      obtain rfl : i = 0 := by omega
      exact hx
    · rintro ⟨rfl, ins, vals, hins, hvals, hv⟩
      refine ⟨ins 0, vals 0, hins 0 (by omega), hvals 0 (by omega), (Node.result?_congr fun i hi => ?_).trans hv⟩
      obtain rfl : i = 0 := by omega
      rfl
  · rw [compute_two hk]
    constructor
    · rintro ⟨x, y, a, b, f₁, hx, hy, ha, hb, hv⟩
      obtain rfl := hev x a f₁ ha
      obtain rfl := hev y b f' hb
      refine ⟨rfl, fun i => if i = 0 then x else y, fun i => if i = 0 then a else b, fun i hi => ?_, fun i hi => ?_, hv⟩
      · rcases (by omega : i = 0 ∨ i = 1) with rfl | rfl
        · exact hx
        · exact hy
      · rcases (by omega : i = 0 ∨ i = 1) with rfl | rfl
        · exact ha
        · exact hb
    · rintro ⟨rfl, ins, vals, hins, hvals, hv⟩
      refine ⟨ins 0, ins 1, vals 0, vals 1, f, hins 0 (by omega), hins 1 (by omega), hvals 0 (by omega),
        hvals 1 (by omega), (Node.result?_congr fun i hi => ?_).trans hv⟩
      rcases (by omega : i = 0 ∨ i = 1) with rfl | rfl <;> rfl

theorem evalFresh_keeps (h : evalFresh g heap bound id f = .ok (v, f')) : f = f' := by
  induction bound generalizing id v f' with
  | zero => simp [evalFresh, stateT_throw_ok] at h
  | succ bound ih =>
    simp only [evalFresh, stateT_bind_ok, stateT_lift_ok] at h
    obtain ⟨n, _, ⟨_, rfl⟩, h⟩ := h
    exact ((compute_ok_of_keeps fun _ _ _ h => ih h).mp h).1

theorem evalFresh_succ_ok : evalFresh g heap (bound + 1) id f = .ok (v, f') ↔
    f = f' ∧ ∃ n, ∃ ins : Nat → NodeId, ∃ vals : Nat → Value, g.get? id = some n ∧
      (∀ i < n.kind.arity, n.inputs[i]? = some (ins i)) ∧
      (∀ i < n.kind.arity, evalFresh g heap bound (ins i) f = .ok (vals i, f)) ∧
      n.result? g.classes heap f id vals = some v := by
  simp only [evalFresh, stateT_bind_ok, stateT_lift_ok, Graph.node_eq_ok_iff]
  constructor
  · rintro ⟨n, _, ⟨hn, rfl⟩, h⟩
    obtain ⟨rfl, ins, vals, h⟩ := (compute_ok_of_keeps fun _ _ _ => evalFresh_keeps).mp h
    exact ⟨rfl, n, ins, vals, hn, h⟩
  · rintro ⟨rfl, n, ins, vals, hn, h⟩
    exact ⟨n, f, ⟨hn, rfl⟩, (compute_ok_of_keeps fun _ _ _ => evalFresh_keeps).mpr ⟨rfl, ins, vals, h⟩⟩

/-- A value that was found needs no memory state that control has not passed. -/
theorem recorded_of_evalFresh {m : NodeId} (h : evalFresh g heap bound id f = .ok (v, f')) (hm : g.LooksAt id m) :
    ∃ e, f.epochs.get? m = some e := by
  induction bound generalizing id v f' with
  | zero => simp [evalFresh, stateT_throw_ok] at h
  | succ bound ih =>
    obtain ⟨_, n, ins, vals, hn, hins, hvals, hv⟩ := evalFresh_succ_ok.mp h
    obtain ⟨y, k, field, hy, hk, hread, hmem⟩ := hm
    rcases hy.cases_head with rfl | ⟨x, ⟨n', i, hn', hi, hx⟩, hxy⟩
    · cases hn.symm.trans hk
      simp only [Node.result?, hread, hmem] at hv
      cases hval : vals 0 with
      | ref j =>
        simp only [hval, Option.bind_eq_some_iff] at hv
        obtain ⟨_, _, _, hm, e, he, _⟩ := hv
        exact ⟨e, Option.some.inj hm ▸ he⟩
      | int | null | bool => simp [hval] at hv
    · cases hn.symm.trans hn'
      cases (hins i hi).symm.trans hx
      exact ih (hvals i hi) ⟨y, k, field, hxy, hk, hread, hmem⟩

/-- A value stays right as long as the memory states that it looks at have their epochs. -/
theorem evalFresh_of_epochs {f₁ : Frame} (hargs : f.args = f₁.args) (hphis : f.phis = f₁.phis)
    (hepochs : ∀ m, g.LooksAt id m → f.epochs.get? m = f₁.epochs.get? m)
    (h : evalFresh g heap bound id f = .ok (v, f')) : evalFresh g heap bound id f₁ = .ok (v, f₁) := by
  induction bound generalizing id v f' with
  | zero => simp [evalFresh, stateT_throw_ok] at h
  | succ bound ih =>
    obtain ⟨_, n, ins, vals, hn, hins, hvals, hv⟩ := evalFresh_succ_ok.mp h
    refine evalFresh_succ_ok.mpr ⟨rfl, n, ins, vals, hn, hins, fun i hi => ?_, ?_⟩
    · exact ih (fun m hm => hepochs m (.of_takes (.single ⟨n, i, hn, hi, hins i hi⟩) hm)) (hvals i hi)
    · rw [← hv]
      refine Node.result?_frame hargs.symm (fun _ => by rw [hphis]) fun field m hk hm => ?_
      exact (hepochs m ⟨id, n, field, .refl, hn, hk, hm⟩).symm

end Exec

end GuardElision
