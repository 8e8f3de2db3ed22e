import GuardElision.Execution
import GuardElision.Proofs.Facts.Meaning
import GuardElision.Proofs.Attempt
import GuardElision.Proofs.Graph.Lookup
import Mathlib.Data.Fintype.Card
import Mathlib.Data.Nat.Find

namespace GuardElision

namespace Kind

/-- How many inputs a value is computed from. -/
def arity : Kind → Nat
  | .pi | .isNull | .instanceOf _ | .read _ => 1
  | .compare _ => 2
  | _ => 0

end Kind

namespace Node

/-- The value of a node, if the values of its inputs admit one. -/
def result? (classes : ClassTable) (heap : Heap) (f : Frame) (id : NodeId) (n : Node)
    (x : Nat → Value) : Option Value :=
  match n.kind with
  | .parameter index => f.args[index]?
  | .constant (.int v) => some (.int v)
  | .constant .null => some .null
  | .logicConstant b => some (.bool b)
  | .pi => some (x 0)
  | .phi => f.phis.get? id
  | .isNull => some (.bool (x 0 = .null))
  | .instanceOf cls => some (.bool ((x 0).isInstance classes heap cls))
  | .compare op => (Value.compare? op (x 0) (x 1)).map .bool
  | .read field =>
    match x 0 with
    | .ref i => heap[i]?.bind fun o => n.memory.bind fun m => (f.epochs.get? m).bind fun epoch =>
        (Word.ofInt? ((o.field field).toInt + epoch)).map .int
    | _ => none
  | _ => none

/-- The value is one that the node's stamp describes. -/
def Conforms (classes : ClassTable) (heap : Heap) (n : Node) (v : Value) : Prop :=
  n.kind ≠ .pi → n.stamp.Admits classes heap v

variable {classes : ClassTable} {heap : Heap} {f f' : Frame} {id : NodeId} {n n' : Node}
  {x y : Nat → Value}

theorem result?_congr (h : ∀ i < n.kind.arity, x i = y i) :
    n.result? classes heap f id x = n.result? classes heap f id y := by
  unfold result?
  cases hk : n.kind with
  | constant c => cases c <;> rfl
  | pi | isNull | instanceOf | read => simp only [h 0 (by simp [hk, Kind.arity])]
  | compare => simp only [h 0 (by simp [hk, Kind.arity]), h 1 (by simp [hk, Kind.arity])]
  | _ => rfl

/-- What a value depends on besides its inputs. -/
theorem result?_frame (hargs : f.args = f'.args) (hphi : n.kind = .phi → f.phis.get? id = f'.phis.get? id)
    (hmem : ∀ field m, n.kind = .read field → n.memory = some m → f.epochs.get? m = f'.epochs.get? m) :
    n.result? classes heap f id x = n.result? classes heap f' id x := by
  unfold result?
  cases hk : n.kind with
  | constant c => cases c <;> rfl
  | parameter => simp only [hargs]
  | phi => exact hphi hk
  | read field =>
    cases hm : n.memory with
    | none => rfl
    | some m => simp only [Option.bind_some, hmem field m hk hm]
  | _ => rfl

end Node

/-- The node has the value in the frame. -/
inductive Eval (g : Graph) (heap : Heap) (f : Frame) : NodeId → Value → Prop where
  | intro {id : NodeId} {n : Node} {v : Value} (ins : Nat → NodeId) (vals : Nat → Value)
    (hn : g.get? id = some n) (hins : ∀ i < n.kind.arity, n.inputs[i]? = some (ins i))
    (hvals : ∀ i < n.kind.arity, Eval g heap f (ins i) (vals i))
    (hv : n.result? g.classes heap f id vals = some v) (hc : n.Conforms g.classes heap v) :
    Eval g heap f id v

namespace Eval

variable {g : Graph} {heap : Heap} {f f' : Frame} {id : NodeId} {v w : Value}

theorem unique (h : Eval g heap f id v) (k : Eval g heap f id w) : v = w := by
  induction h generalizing w with
  | @intro id n v ins vals hn hins _ hv _ ih =>
    obtain ⟨ins', vals', hn', hins', hvals', hv', _⟩ := k
    cases hn.symm.trans hn'
    have he : ∀ i < n.kind.arity, vals i = vals' i := by
      intro i hi
      have hsame : ins i = ins' i := Option.some.inj ((hins i hi).symm.trans (hins' i hi))
      exact ih i hi (hsame ▸ hvals' i hi)
    rw [Node.result?_congr he] at hv
    exact Option.some.inj (hv.symm.trans hv')

theorem pi_input {n : Node} {x : NodeId} (h : Eval g heap f id v) (hn : g.get? id = some n)
    (hk : n.kind = .pi) (hx : n.inputs[0]? = some x) : Eval g heap f x v := by
  obtain ⟨ins, vals, hn', hins, hvals, hv, _⟩ := h
  cases hn.symm.trans hn'
  have harity : 0 < n.kind.arity := by simp [hk, Kind.arity]
  have hval : vals 0 = v := by simpa [Node.result?, hk] using hv
  cases (hins 0 harity).symm.trans hx
  exact hval ▸ hvals 0 harity

theorem congr_frame (hargs : f.args = f'.args) (hphis : f.phis = f'.phis) (hepochs : f.epochs = f'.epochs)
    (h : Eval g heap f id v) : Eval g heap f' id v := by
  induction h with
  | intro ins vals hn hins _ hv hc ih =>
    refine .intro ins vals hn hins ih ?_ hc
    rw [← hv]
    exact Node.result?_frame hargs.symm (fun _ => by rw [hphis]) fun _ _ _ _ => by rw [hepochs]

end Eval

namespace Exec

variable {g : Graph} {heap : Heap} {ev : Evaluator} {id : NodeId} {n : Node} {f f' : Frame} {v : Value}

theorem input_ok {i : Nat} {x : NodeId} : input id n i = .ok x ↔ n.inputs[i]? = some x :=
  expect_ok

theorem compute_zero (hk : n.kind.arity = 0) (x : Nat → Value) :
    compute g heap ev id n f = .ok (v, f') ↔ n.result? g.classes heap f id x = some v ∧ f = f' := by
  unfold compute Node.result?
  cases h : n.kind with
  | constant c => cases c <;> simp [stateT_pure_ok]
  | parameter i =>
    simp only [stateT_bind_ok, stateT_get_ok]
    cases hi : f.args[i]? with
    | none => simp [hi, stateT_throw_ok]
    | some a => simp [hi, stateT_pure_ok]
  | phi => simp [stateT_bind_ok, stateT_get_ok, stateT_lift_ok, expect_ok, and_comm]
  | logicConstant b => simp [stateT_pure_ok]
  | pi | isNull | instanceOf | read | compare => simp [h, Kind.arity] at hk
  | _ => simp [stateT_throw_ok]

theorem compute_one (hk : n.kind.arity = 1) :
    compute g heap ev id n f = .ok (v, f') ↔ ∃ x w, n.inputs[0]? = some x ∧ ev x f = .ok (w, f') ∧
      n.result? g.classes heap f' id (fun _ => w) = some v := by
  unfold compute Node.result?
  cases h : n.kind with
  | pi =>
    simp only [stateT_bind_ok, stateT_lift_ok, input_ok, Option.some.injEq]
    constructor
    · rintro ⟨x, _, ⟨hx, rfl⟩, hev⟩
      exact ⟨x, v, hx, hev, rfl⟩
    · rintro ⟨x, w, hx, hev, rfl⟩
      exact ⟨x, f, ⟨hx, rfl⟩, hev⟩
  | isNull =>
    simp only [stateT_bind_ok, stateT_lift_ok, input_ok, stateT_pure_ok, Option.some.injEq]
    constructor
    · rintro ⟨x, _, ⟨hx, rfl⟩, w, _, hev, hv, rfl⟩
      exact ⟨x, w, hx, hev, hv⟩
    · rintro ⟨x, w, hx, hev, hv⟩
      exact ⟨x, f, ⟨hx, rfl⟩, w, f', hev, hv, rfl⟩
  | instanceOf cls =>
    simp only [stateT_bind_ok, stateT_lift_ok, input_ok, Option.some.injEq]
    constructor
    · rintro ⟨x, _, ⟨hx, rfl⟩, w, f₁, hev, hv⟩
      cases w <;> simp only [stateT_pure_ok] at hv <;> obtain ⟨hv, rfl⟩ := hv <;>
        exact ⟨x, _, hx, hev, by simpa [Value.isInstance] using hv⟩
    · rintro ⟨x, w, hx, hev, hv⟩
      refine ⟨x, f, ⟨hx, rfl⟩, w, f', hev, ?_⟩
      cases w <;> simp only [stateT_pure_ok, and_true] <;> simpa [Value.isInstance] using hv
  | read field =>
    simp only [stateT_bind_ok, stateT_lift_ok, input_ok]
    constructor
    · rintro ⟨x, _, ⟨hx, rfl⟩, w, f₁, hev, hv⟩
      cases w with
      | ref i =>
        simp only at hv
        cases ho : heap[i]? with
        | none => simp [ho, stateT_throw_ok] at hv
        | some o =>
          simp only [ho, readField, stateT_bind_ok, stateT_lift_ok, expect_ok, stateT_get_ok] at hv
          obtain ⟨m, _, ⟨hm, rfl⟩, _, _, ⟨rfl, rfl⟩, e, _, ⟨he, rfl⟩, hv⟩ := hv
          cases hw : Word.ofInt? ((o.field field).toInt + e) with
          | none => simp [hw, stateT_throw_ok] at hv
          | some r =>
            simp only [hw, stateT_pure_ok] at hv
            obtain ⟨rfl, rfl⟩ := hv
            exact ⟨x, .ref i, hx, hev, by simp [ho, hm, he, hw]⟩
      | int | null | bool => simp [stateT_throw_ok] at hv
    · rintro ⟨x, w, hx, hev, hv⟩
      refine ⟨x, f, ⟨hx, rfl⟩, w, f', hev, ?_⟩
      cases w with
      | ref i =>
        simp only [Option.bind_eq_some_iff, Option.map_eq_some_iff] at hv
        obtain ⟨o, ho, m, hm, e, he, r, hr, rfl⟩ := hv
        simp only [ho, readField, stateT_bind_ok, stateT_lift_ok, expect_ok, stateT_get_ok]
        exact ⟨m, f', ⟨hm, rfl⟩, f', f', ⟨rfl, rfl⟩, e, f', ⟨he, rfl⟩, by simp [hr, stateT_pure_ok]⟩
      | int | null | bool => simp at hv
  | _ => simp [h, Kind.arity] at hk

theorem compute_two (hk : n.kind.arity = 2) :
    compute g heap ev id n f = .ok (v, f') ↔ ∃ x y a b f₁, n.inputs[0]? = some x ∧ n.inputs[1]? = some y ∧
      ev x f = .ok (a, f₁) ∧ ev y f₁ = .ok (b, f') ∧
      n.result? g.classes heap f' id (fun i => if i = 0 then a else b) = some v := by
  unfold compute Node.result?
  cases h : n.kind with
  | compare op =>
    simp only [stateT_bind_ok, stateT_lift_ok, input_ok, ↓reduceIte, Nat.one_ne_zero]
    constructor
    · rintro ⟨x, _, ⟨hx, rfl⟩, a, f₁, ha, y, _, ⟨hy, rfl⟩, b, f₂, hb, hv⟩
      cases hc : Value.compare? op a b with
      | none => simp [hc, stateT_throw_ok] at hv
      | some t =>
        simp only [hc, stateT_pure_ok] at hv
        obtain ⟨rfl, rfl⟩ := hv
        exact ⟨x, y, a, b, f₁, hx, hy, ha, hb, by simp [hc]⟩
    · rintro ⟨x, y, a, b, f₁, hx, hy, ha, hb, hv⟩
      obtain ⟨t, ht, rfl⟩ := Option.map_eq_some_iff.mp hv
      exact ⟨x, f, ⟨hx, rfl⟩, a, f₁, ha, y, f₁, ⟨hy, rfl⟩, b, f', hb, by simp [ht, stateT_pure_ok]⟩
  | _ => simp [h, Kind.arity] at hk

end Exec

namespace Eval

variable (g : Graph) (heap : Heap) (f : Frame)

/-- The value is found by going at most `k` nodes deep. -/
def Within : Nat → NodeId → Value → Prop
  | 0, _, _ => False
  | k + 1, id, v => ∃ n, ∃ ins : Nat → NodeId, ∃ vals : Nat → Value,
      g.get? id = some n ∧ (∀ i < n.kind.arity, n.inputs[i]? = some (ins i)) ∧
      (∀ i < n.kind.arity, Within k (ins i) (vals i)) ∧
      n.result? g.classes heap f id vals = some v ∧ n.Conforms g.classes heap v

variable {g heap f} {k l : Nat} {id : NodeId} {v : Value}

theorem Within.eval (h : Within g heap f k id v) : Eval g heap f id v := by
  induction k generalizing id v with
  | zero => exact h.elim
  | succ k ih =>
    obtain ⟨n, ins, vals, hn, hins, hvals, hv, hc⟩ := h
    exact .intro ins vals hn hins (fun i hi => ih (hvals i hi)) hv hc

theorem Within.mono (h : Within g heap f k id v) (hkl : k ≤ l) : Within g heap f l id v := by
  induction k generalizing id v l with
  | zero => exact h.elim
  | succ k ih =>
    obtain ⟨l, rfl⟩ : ∃ m, l = m + 1 := ⟨l - 1, by omega⟩
    obtain ⟨n, ins, vals, hn, hins, hvals, hv, hc⟩ := h
    exact ⟨n, ins, vals, hn, hins, fun i hi => ih (hvals i hi) (by omega), hv, hc⟩

theorem exists_within (h : Eval g heap f id v) : ∃ k, Within g heap f k id v := by
  induction h with
  | @intro id n v ins vals hn hins _ hv hc ih =>
    have hbound : ∀ m ≤ n.kind.arity, ∃ k, ∀ i < m, Within g heap f k (ins i) (vals i) := by
      intro m
      induction m with
      | zero => exact fun _ => ⟨0, fun i hi => absurd hi (Nat.not_lt_zero i)⟩
      | succ m ihm =>
        intro hm
        obtain ⟨k₁, h₁⟩ := ihm (Nat.le_of_succ_le hm)
        obtain ⟨k₂, h₂⟩ := ih m hm
        refine ⟨max k₁ k₂, fun i hi => ?_⟩
        rcases Nat.lt_succ_iff_lt_or_eq.mp hi with hi | rfl
        · exact (h₁ i hi).mono (Nat.le_max_left _ _)
        · exact h₂.mono (Nat.le_max_right _ _)
    obtain ⟨k, hk⟩ := hbound n.kind.arity (Nat.le_refl _)
    exact ⟨k + 1, n, ins, vals, hn, hins, hk, hv, hc⟩

/-- Going `k` nodes deep is needed and enough. -/
def Depth (g : Graph) (heap : Heap) (f : Frame) (k : Nat) (id : NodeId) : Prop :=
  (∃ v, Within g heap f (k + 1) id v) ∧ ∀ v, ¬Within g heap f k id v

theorem Depth.unique (h : Depth g heap f k id) (h' : Depth g heap f l id) : k = l := by
  obtain ⟨⟨v, hv⟩, hn⟩ := h
  obtain ⟨⟨w, hw⟩, hm⟩ := h'
  have hkl : ¬k < l := fun hlt => hm v (hv.mono hlt)
  have hlk : ¬l < k := fun hlt => hn w (hw.mono hlt)
  omega

theorem Depth.lt_capacity (h : Depth g heap f k id) : id < g.capacity := by
  obtain ⟨⟨_, n, _, _, hn, _⟩, _⟩ := h
  exact Graph.lt_capacity hn

/-- Behind a node of some depth stands an input of the depth before. -/
theorem Depth.exists_input (h : Depth g heap f (k + 1) id) : ∃ x, Depth g heap f k x := by
  obtain ⟨⟨v, n, ins, vals, hn, hins, hvals, hv, hc⟩, hnot⟩ := h
  by_contra hnone
  refine hnot v ⟨n, ins, vals, hn, hins, fun i hi => ?_, hv, hc⟩
  by_contra hshallow
  refine hnone ⟨ins i, ⟨vals i, hvals i hi⟩, fun w hw => ?_⟩
  exact hshallow ((hw.eval.unique (hvals i hi).eval) ▸ hw)

theorem Depth.exists_of_le (h : Depth g heap f k id) (hl : l ≤ k) : ∃ x, Depth g heap f l x := by
  induction k generalizing id with
  | zero => exact ⟨id, Nat.le_zero.mp hl ▸ h⟩
  | succ k ih =>
    rcases Nat.le_or_eq_of_le_succ hl with hl | rfl
    · obtain ⟨x, hx⟩ := h.exists_input
      exact ih hx hl
    · exact ⟨id, h⟩

/-- Nodes at different depths differ, so no value lies deeper than there are nodes. -/
theorem Depth.succ_le_capacity (h : Depth g heap f k id) : k + 1 ≤ g.capacity := by
  choose x hx using fun l : Fin (k + 1) => h.exists_of_le (Nat.lt_succ_iff.mp l.2)
  have hinj : Function.Injective fun l => (⟨x l, (hx l).lt_capacity⟩ : Fin g.capacity) := by
    intro l m hlm
    have he : x l = x m := congrArg Fin.val hlm
    exact Fin.ext ((hx l).unique (he ▸ hx m))
  simpa using Fintype.card_le_of_injective _ hinj

theorem within_capacity (h : Eval g heap f id v) : Within g heap f g.capacity id v := by
  classical
  obtain ⟨k, hk⟩ := h.exists_within
  have hex : ∃ k w, Within g heap f k id w := ⟨k, v, hk⟩
  obtain ⟨w, hw⟩ := Nat.find_spec hex
  have hpos : Nat.find hex ≠ 0 := fun h0 => by
    rw [h0] at hw
    exact hw
  have hdepth : Depth g heap f (Nat.find hex - 1) id := by
    refine ⟨⟨w, hw.mono (by omega)⟩, fun u hu => ?_⟩
    exact Nat.find_min hex (m := Nat.find hex - 1) (by omega) ⟨u, hu⟩
  have hle := hdepth.succ_le_capacity
  exact (hw.eval.unique h) ▸ hw.mono (by omega)

end Eval

end GuardElision
