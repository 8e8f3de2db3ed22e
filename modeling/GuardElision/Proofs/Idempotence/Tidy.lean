import GuardElision.Proofs.Cleanup.Orphans
import GuardElision.Proofs.Elimination.Rounds
import GuardElision.Proofs.Idempotence.Cover

namespace GuardElision

namespace Graph

open Round (isUndecidedLogic stampTruth?)

variable {g h k : Graph} {a j x : NodeId} {n : Node} {ps : List Post}

theorem isPure_of_isUndecidedLogic {k : Kind} (hk : isUndecidedLogic k = true) :
    k.isPure = true ∧ k.isLogic = true := by
  cases k <;> simp_all [isUndecidedLogic, Kind.isPure, Kind.isLogic]

/-- The graphs have the same nodes but for pure ones, of which none is new. -/
structure SameRigid (g h : Graph) : Prop where
  classes : h.classes = g.classes
  capacity : h.capacity = g.capacity
  live : ∀ j n, h.get? j = some n → ∃ m, g.get? j = some m
  rigid : ∀ j n, n.kind.isPure = false → (h.get? j = some n ↔ g.get? j = some n)

namespace SameRigid

theorem trans (F : SameRigid g h) (F' : SameRigid h k) : SameRigid g k := by
  refine ⟨F'.classes.trans F.classes, F'.capacity.trans F.capacity, fun j n hn => ?_, fun j n hk => ?_⟩
  · obtain ⟨m, hm⟩ := F'.live j n hn
    exact F.live j m hm
  · rw [F'.rigid j n hk, F.rigid j n hk]

variable (F : SameRigid g h)

include F

theorem sameControl : SameControl g h := by
  have hrigid : ∀ c n, n.kind.isControl = true → (h.get? c = some n ↔ g.get? c = some n) := by
    intro c n hk
    refine F.rigid c n ?_
    cases hkind : n.kind <;> simp_all [Kind.isControl, Kind.isPure]
  refine ⟨F.capacity, F.live, fun c m hm hk => ?_, fun c n hn hk => ?_⟩
  · exact ⟨m, (hrigid c m hk).mpr hm, rfl, rfl, rfl, rfl⟩
  · exact ⟨n, (hrigid c n hk).mp hn, rfl, rfl, rfl, rfl⟩

theorem guard_iff (hk : n.kind.isGuard = true) : h.get? j = some n ↔ g.get? j = some n := by
  refine F.rigid j n ?_
  cases hkind : n.kind <;> simp_all [Kind.isGuard, Kind.isPure]

theorem noNewGuard : g.NoNewGuard h :=
  fun _ n hn hk => ⟨n, (F.guard_iff hk).mp hn, hk⟩

/-- Posts stay where the tests of their guards do. -/
theorem manned (M : g.Manned a ps []) (hcondition : ∀ p ∈ ps, ∀ n x, g.get? p.guard = some n →
      n.inputs.head? = some x → g.condition x = .ok (.predicate p.claim.condition) →
      h.condition x = .ok (.predicate p.claim.condition)) : h.Manned a ps [] := by
  constructor
  · rw [← M.guards]
    refine guardsAt_eq (select_sorted g _) fun id => ?_
    rw [mem_guardsAt, mem_guardsAt]
    constructor
    · rintro ⟨n, hn, hk, ha⟩
      exact ⟨n, (F.guard_iff hk).mp hn, hk, ha⟩
    · rintro ⟨n, hn, hk, ha⟩
      exact ⟨n, (F.guard_iff hk).mpr hn, hk, ha⟩
  · intro p hp
    refine (M.posts p hp).transfer (fun n hn => ⟨n.guard, ?_⟩) (hcondition p hp)
    obtain ⟨m, negated, x, c, hm, hk, -⟩ := M.posts p hp
    cases hn.symm.trans hm
    exact (F.guard_iff (by rw [hk]; rfl)).mpr hn

end SameRigid

/-- Some conditions that stamps decide have become constants. -/
structure Folds (g h : Graph) : Prop where
  classes : h.classes = g.classes
  capacity : h.capacity = g.capacity
  node : ∀ j, h.get? j = g.get? j ∨ ∃ m b, g.get? j = some m ∧ isUndecidedLogic m.kind = true ∧
    stampTruth? g j = .ok (some b) ∧ h.get? j = some { m with kind := .logicConstant b, inputs := [] }

namespace Folds

theorem refl (g : Graph) : Folds g g :=
  ⟨rfl, rfl, fun _ => .inl rfl⟩

variable (F : Folds g h)

include F

theorem eq_of_not_logic (hj : ∀ n, g.get? j = some n → isUndecidedLogic n.kind = false) : h.get? j = g.get? j := by
  refine (F.node j).resolve_right ?_
  rintro ⟨m, b, hm, hk, -⟩
  rw [hj m hm] at hk
  cases hk

theorem eq_of_undecided (hn : h.get? j = some n) (hk : isUndecidedLogic n.kind = true) : h.get? j = g.get? j := by
  refine (F.node j).resolve_right ?_
  rintro ⟨m, b, -, -, -, hm⟩
  cases hn.symm.trans hm
  cases hk

theorem condition_eq (O : g.OverValues) (hsame : h.get? x = g.get? x) (hn : g.get? x = some n)
    (hk : n.kind.isLogic = true) : h.condition x = g.condition x := by
  have hvalue : ∀ j, h.get? j = g.get? j → SameValue g h j := fun j hj => by rw [SameValue, hj]
  refine condition_congr F.capacity (hvalue x hsame) fun m hm i hi j hj => hvalue j (F.eq_of_not_logic fun l hl => ?_)
  cases hn.symm.trans hm
  have hvalue := (O.below hn hk hi hj l hl).2
  by_contra hlogic
  rw [(isPure_of_isUndecidedLogic (Bool.eq_true_of_not_eq_false hlogic)).2] at hvalue
  cases hvalue

theorem stampTruth?_eq (O : g.OverValues) (hsame : h.get? x = g.get? x) (hn : g.get? x = some n)
    (hk : n.kind.isLogic = true) : stampTruth? h x = stampTruth? g x := by
  simp only [stampTruth?, F.condition_eq O hsame hn hk, F.classes]

theorem overValues (O : g.OverValues) : h.OverValues := by
  intro id n hn hk i hi m hm
  rcases F.node id with hsame | ⟨l, b, -, -, -, hl⟩
  · rcases F.node i with hsame' | ⟨l, b, hl, hlogic, -⟩
    · exact O id n (hsame ▸ hn) hk i hi m (hsame' ▸ hm)
    · have hvalue := (O id n (hsame ▸ hn) hk i hi l hl).2
      rw [(isPure_of_isUndecidedLogic hlogic).2] at hvalue
      cases hvalue
  · cases hn.symm.trans hl
    cases hi

theorem trans (O : g.OverValues) (F' : Folds h k) : Folds g k := by
  refine ⟨F'.classes.trans F.classes, F'.capacity.trans F.capacity, fun j => ?_⟩
  rcases F'.node j with hsame | ⟨m, b, hm, hk, hb, hj⟩
  · rw [hsame]
    exact F.node j
  · have hsame := F.eq_of_undecided hm hk
    rw [hsame] at hm
    rw [F.stampTruth?_eq O hsame hm (isPure_of_isUndecidedLogic hk).2] at hb
    exact .inr ⟨m, b, hm, hk, hb, hj⟩

theorem sameRigid : SameRigid g h := by
  refine ⟨F.classes, F.capacity, fun j n hn => ?_, fun j n hk => ?_⟩
  · rcases F.node j with hsame | ⟨m, b, hm, -⟩
    · exact ⟨n, hsame ▸ hn⟩
    · exact ⟨m, hm⟩
  · rcases F.node j with hsame | ⟨m, b, hm, hlogic, -, hj⟩
    · rw [hsame]
    · refine ⟨fun hn => ?_, fun hn => ?_⟩
      · cases hn.symm.trans hj
        cases hk
      · cases hn.symm.trans hm
        rw [(isPure_of_isUndecidedLogic hlogic).1] at hk
        cases hk

/-- What guards test that stamps do not decide is not folded. -/
theorem condition_ok (O : g.OverValues) {c : Condition} (hc : g.condition x = .ok (.predicate c))
    (hnone : Known.lookup? g.classes {} c = none) : h.get? x = g.get? x ∧ h.condition x = .ok (.predicate c) := by
  obtain ⟨n, hn, hk⟩ := condition_isLogic hc
  have hsame : h.get? x = g.get? x := by
    refine (F.node x).resolve_right ?_
    rintro ⟨m, b, -, -, hb, -⟩
    simp only [stampTruth?, hc, bind, Except.bind, hnone] at hb
    cases hb
  exact ⟨hsame, (F.condition_eq O hsame hn hk).trans hc⟩

theorem manned (O : g.OverValues) (M : g.Manned a ps [])
    (hopen : ∀ p ∈ ps, Known.lookup? g.classes {} p.claim.condition = none) : h.Manned a ps [] :=
  F.sameRigid.manned M fun p hp _ _ _ _ hc => (F.condition_ok O hc (hopen p hp)).2

end Folds

/-- Some pure nodes are gone, and nothing left depends on them. -/
structure Sweeps (g h : Graph) : Prop where
  classes : h.classes = g.classes
  capacity : h.capacity = g.capacity
  node : ∀ j, h.get? j = g.get? j ∨ h.get? j = none ∧ ∀ n, g.get? j = some n → n.kind.isPure = true
  used : ∀ j n, h.get? j = some n → ∀ i ∈ n.dependencies, h.get? i = g.get? i

namespace Sweeps

theorem refl (g : Graph) : Sweeps g g :=
  ⟨rfl, rfl, fun _ => .inl rfl, fun _ _ _ _ _ => rfl⟩

/-- Unused values can go. -/
theorem ofUnused (g : Graph) : Sweeps g ((Round.unused g).foldl delete g) := by
  refine ⟨classes_foldl_delete _ g, capacity_foldl_delete _ g, fun j => ?_, fun j n hn i hi => ?_⟩
  · rw [get?_foldl_delete]
    split
    next hj =>
      refine .inr ⟨rfl, fun n hn => ?_⟩
      obtain ⟨m, hm, hpure⟩ := mem_select.mp (List.mem_filter.mp hj).1
      cases hn.symm.trans hm
      exact hpure
    next => exact .inl rfl
  · rw [get?_foldl_delete] at hn ⊢
    split at hn
    next => cases hn
    next =>
      have husage : g.hasUsages i = true := by
        have hmem : j ∈ g.usages i := mem_usages.mpr ⟨n, hn, hi⟩
        simpa [hasUsages] using List.ne_nil_of_mem hmem
      rw [if_neg]
      intro hunused
      simpa [husage] using (List.mem_filter.mp hunused).2

variable (S : Sweeps g h)

include S

theorem eq_of_live (hn : h.get? j = some n) : g.get? j = some n := by
  rcases S.node j with hsame | ⟨hnone, -⟩
  · exact hsame ▸ hn
  · cases hn.symm.trans hnone

theorem trans (S' : Sweeps h k) : Sweeps g k := by
  refine ⟨S'.classes.trans S.classes, S'.capacity.trans S.capacity, fun j => ?_, fun j n hn i hi => ?_⟩
  · rcases S'.node j with hsame | ⟨hnone, hpure⟩
    · rw [hsame]
      exact S.node j
    · refine .inr ⟨hnone, fun n hn => ?_⟩
      rcases S.node j with hsame | ⟨-, hpure'⟩
      · exact hpure n (hsame.trans hn)
      · exact hpure' n hn
  · rw [S'.used j n hn i hi, S.used j n (S'.eq_of_live hn) i hi]

theorem sameRigid : SameRigid g h := by
  refine ⟨S.classes, S.capacity, fun j n hn => ⟨n, S.eq_of_live hn⟩, fun j n hk => ⟨S.eq_of_live, fun hn => ?_⟩⟩
  rcases S.node j with hsame | ⟨-, hpure⟩
  · exact hsame.trans hn
  · rw [hpure n hn] at hk
    cases hk

theorem below {i : NodeId} (hi : h.get? i = g.get? i) (hj : g.Below i j) : h.get? j = g.get? j := by
  induction hj with
  | refl => exact hi
  | @step j k n _ hn _ hk ih =>
    refine S.used j n (ih.trans hn) k ?_
    simp [Node.dependencies, hk]

theorem condition_eq (hn : h.get? x = some n) : h.condition x = g.condition x := by
  have hvalue : ∀ j, h.get? j = g.get? j → SameValue g h j := fun j hj => by rw [SameValue, hj]
  have hsame := S.eq_of_live hn
  refine condition_congr S.capacity (hvalue x (hn.trans hsame.symm)) fun m hm i hi j hj => hvalue j (S.below ?_ hj)
  cases hsame.symm.trans hm
  refine S.used x n hn i ?_
  simp [Node.dependencies, hi]

theorem manned (M : g.Manned a ps []) : h.Manned a ps [] := by
  refine S.sameRigid.manned M fun p hp n x hn hx hc => ?_
  obtain ⟨m, negated, y, c, hm, hk, -⟩ := M.posts p hp
  cases hn.symm.trans hm
  have hn' : h.get? p.guard = some n := (S.sameRigid.guard_iff (by rw [hk]; rfl)).mpr hn
  obtain ⟨l, hl, -⟩ := condition_isLogic hc
  have hused : h.get? x = g.get? x := by
    refine S.used p.guard n hn' x ?_
    simp [Node.dependencies, List.mem_of_head? hx]
  rw [S.condition_eq (hused.trans hl), hc]

end Sweeps

/-- What guards test is undecided, and there is no branch. -/
structure Settled (g : Graph) : Prop where
  overValues : g.OverValues
  branch : ∀ c n, g.get? c = some n → n.kind ≠ .branch
  posts : ∀ q n, g.get? q = some n → n.kind.isGuard = true → ∃ a p, p.guard = q ∧ g.HasPost a p ∧
    Known.lookup? g.classes {} p.claim.condition = none

/-- Guards test logic nodes that are no constants. -/
def GuardsOpen (g : Graph) : Prop :=
  ∀ q n, g.get? q = some n → n.kind.isGuard = true → ∃ a x rest m, n.anchor = some a ∧ n.inputs = x :: rest ∧
    g.get? x = some m ∧ isUndecidedLogic m.kind = true

/-- A round finds nothing to do. -/
structure AtRest (g : Graph) : Prop where
  logic : ∀ x n, g.get? x = some n → isUndecidedLogic n.kind = true → stampTruth? g x = .ok none
  guards : g.GuardsOpen
  branch : ∀ c n, g.get? c = some n → n.kind ≠ .branch
  unused : Round.unused g = []

/-- A guard tests a logic node whose condition is open. -/
theorem Settled.test (S : g.Settled) (hn : g.get? j = some n) (hk : n.kind.isGuard = true) :
    ∃ a x rest m c, n.anchor = some a ∧ n.inputs = x :: rest ∧ g.get? x = some m ∧ isUndecidedLogic m.kind = true ∧
      g.condition x = .ok (.predicate c) ∧ Known.lookup? g.classes {} c = none := by
  obtain ⟨a, p, rfl, ⟨l, negated, x, c, hl, -, ha, hx, hc, hclaim⟩, hnone⟩ := S.posts j n hn hk
  cases hn.symm.trans hl
  obtain ⟨rest, hinputs⟩ := List.head?_eq_some_iff.mp hx
  rw [hclaim] at hnone
  obtain ⟨m, hm, hlogic⟩ := condition_isLogic hc
  refine ⟨a, x, rest, m, c, ha, hinputs, hm, ?_, hc, hnone⟩
  cases hkind : m.kind with
  | logicConstant b =>
    simp [condition, node_eq_ok_iff.mpr hm, bind, Except.bind, hkind, pure, Except.pure] at hc
  | _ => simp_all [isUndecidedLogic, Kind.isLogic]

end Graph

namespace Round

variable {r r' : Round} {method : Option MethodId} {x : NodeId} {u : PUnit}

theorem foldCondition_folds {n : Node} (hn : r.graph.get? x = some n) (hk : isUndecidedLogic n.kind = true)
    (h : foldCondition method x r = .ok u r') :
    r.graph.Folds r'.graph ∧ r'.seeds = r.seeds ∧ (∀ j, j ≠ x → r'.graph.get? j = r.graph.get? j) ∧
      (stampTruth? r.graph x = .ok none ∧ r' = r ∨
        ∃ m, r'.graph.get? x = some m ∧ isUndecidedLogic m.kind = false) := by
  rcases foldCondition_cases h with ⟨htruth, rfl⟩ | ⟨value, e, htruth, rfl, -⟩
  · exact ⟨.refl _, rfl, fun _ _ => rfl, .inl ⟨htruth, rfl⟩⟩
  · have hget : ∀ j, (r.graph.setKind x (.logicConstant value) []).get? j =
        if j = x then some { n with kind := .logicConstant value, inputs := [] } else r.graph.get? j := by
      intro j
      rw [Graph.get?_setKind]
      split
      next hj => rw [hj, hn, Option.map_some]
      next => rw [Option.map_id']
    refine ⟨⟨rfl, Graph.capacity_modify _ _ _, fun j => ?_⟩, rfl, fun j hj => (hget j).trans (if_neg hj), .inr ?_⟩
    · by_cases hj : j = x
      · exact .inr ⟨n, value, hj ▸ hn, hk, hj ▸ htruth, (hget j).trans (if_pos hj)⟩
      · exact .inl ((hget j).trans (if_neg hj))
    · exact ⟨_, (hget x).trans (if_pos rfl), rfl⟩

theorem forM_foldCondition {ids : List NodeId} (hids : ids.Nodup) (O : r.graph.OverValues)
    (hlogic : ∀ x ∈ ids, ∃ n, r.graph.get? x = some n ∧ isUndecidedLogic n.kind = true)
    (h : ids.forM (foldCondition method) r = .ok u r') :
    r.graph.Folds r'.graph ∧ r'.seeds = r.seeds ∧ ∀ x ∈ ids, ∀ n, r'.graph.get? x = some n →
      isUndecidedLogic n.kind = true → stampTruth? r'.graph x = .ok none := by
  induction ids generalizing r with
  | nil =>
    obtain ⟨-, rfl⟩ := Attempt.pure_ok.mp h
    exact ⟨.refl _, rfl, by simp⟩
  | cons y ids ih =>
    obtain ⟨v, r₁, hfirst, h⟩ := Attempt.bind_ok.mp h
    obtain ⟨hy, hids⟩ := List.nodup_cons.mp hids
    obtain ⟨⟨n, hn, hk⟩, hlogic⟩ := List.forall_mem_cons.mp hlogic
    obtain ⟨F, hseeds, hother, hcase⟩ := foldCondition_folds hn hk hfirst
    have hlogic₁ : ∀ x ∈ ids, ∃ n, r₁.graph.get? x = some n ∧ isUndecidedLogic n.kind = true := by
      intro x hx
      rw [hother x fun he => hy (he ▸ hx)]
      exact hlogic x hx
    obtain ⟨F', hseeds', hrest⟩ := ih hids (F.overValues O) hlogic₁ h
    refine ⟨F.trans O F', hseeds'.trans hseeds, List.forall_mem_cons.mpr ⟨fun m hm hk' => ?_, hrest⟩⟩
    have hsame := F'.eq_of_undecided hm hk'
    rcases hcase with ⟨hnone, rfl⟩ | ⟨l, hl, hfolded⟩
    · rw [F'.stampTruth?_eq O hsame hn (Graph.isPure_of_isUndecidedLogic hk).2]
      exact hnone
    · rw [hsame, hl] at hm
      cases hm
      rw [hfolded] at hk'
      cases hk'

theorem settleGuard_stays (hguards : r.graph.GuardsOpen) (id : NodeId) : settleGuard method id r = .ok () r := by
  refine Attempt.bind_ok.mpr ⟨r, r, Attempt.get_ok.mpr ⟨rfl, rfl⟩, ?_⟩
  cases hq : r.graph.get? id with
  | none => rfl
  | some q =>
    cases hk : q.kind with
    | guard negated reason =>
      obtain ⟨a, x, rest, m, ha, hx, hm, hlogic⟩ := hguards id q hq (by rw [hk]; rfl)
      obtain ⟨kind, _, inputs, _, _, anchor?, _, _, _, _⟩ := q
      obtain rfl : kind = _ := hk
      obtain rfl : anchor? = _ := ha
      obtain rfl : inputs = _ := hx
      refine Attempt.bind_ok.mpr ⟨m, r, Attempt.ask_ok.mpr ⟨Graph.node_eq_ok_iff.mpr hm, rfl⟩, ?_⟩
      cases hmk : m.kind with
      | logicConstant b =>
        rw [hmk] at hlogic
        cases hlogic
      | _ => rfl
    | _ =>
      obtain ⟨kind, _, inputs, _, _, anchor?, _, _, _, _⟩ := q
      obtain rfl : kind = _ := hk
      rfl

/-- As many passes as there are live nodes sweep all unused values away. -/
theorem sweepUnused_sweeps (method : Option MethodId) {bound : Nat} (hbound : r.graph.liveCount ≤ bound) :
    r.graph.Sweeps (sweepUnused method bound r).graph ∧ unused (sweepUnused method bound r).graph = [] := by
  induction bound generalizing r with
  | zero =>
    refine ⟨.refl _, List.eq_nil_iff_forall_not_mem.mpr fun id hid => ?_⟩
    obtain ⟨n, hn, -⟩ := exists_of_mem_unused hid
    have hmem : id ∈ r.graph.liveIds := Graph.mem_select.mpr ⟨n, hn, rfl⟩
    have hpos := List.length_pos_of_mem hmem
    exact absurd hpos (Nat.not_lt.mpr hbound)
  | succ bound ih =>
    unfold sweepUnused
    split
    next hnone => exact ⟨.refl _, hnone⟩
    next hsome =>
      obtain ⟨id, hid⟩ := List.exists_mem_of_ne_nil _ hsome
      obtain ⟨n, hn, -⟩ := exists_of_mem_unused hid
      have hless := Graph.liveCount_foldl_delete_lt hid hn
      rw [← foldl_dropUnused_graph method] at hless
      obtain ⟨S, hunused⟩ := ih (r := (unused r.graph).foldl (dropUnused method) r) (by omega)
      refine ⟨?_, hunused⟩
      rw [foldl_dropUnused_graph] at S
      exact (Graph.Sweeps.ofUnused r.graph).trans S

theorem cleanSeeds_stays (hseeds : r.seeds = []) : cleanSeeds r = .ok () r := by
  simp [cleanSeeds, hseeds]

theorem select_branch_eq_nil {g : Graph} (hb : ∀ c n, g.get? c = some n → n.kind ≠ .branch) :
    g.select (·.kind = .branch) = [] := by
  refine List.eq_nil_iff_forall_not_mem.mpr fun c hc => ?_
  obtain ⟨n, hn, hk⟩ := Graph.mem_select.mp hc
  exact hb c n hn (of_decide_eq_true hk)

/-- A round folds what stamps decide, and sweeps. It leaves nothing to do. -/
theorem run_tidies (S : r.graph.Settled) (hseeds : r.seeds = []) (h : run method r = .ok u r') :
    ∃ g, r.graph.Folds g ∧ g.Sweeps r'.graph ∧ r'.graph.AtRest := by
  have h := Attempt.get_bind_ok.mp h
  obtain ⟨_, r₁, hfold, h⟩ := Attempt.bind_ok.mp h
  obtain ⟨F, hseeds₁, hnone⟩ := forM_foldCondition ((Graph.select_sorted _ _).imp Nat.ne_of_lt) S.overValues
    (fun x hx => Graph.mem_select.mp hx) hfold
  have hguards : r₁.graph.GuardsOpen := by
    intro q n hn hk
    obtain ⟨a, x, rest, m, c, ha, hx, hm, hlogic, hc, hopen⟩ := S.test ((F.sameRigid.guard_iff hk).mp hn) hk
    exact ⟨a, x, rest, m, ha, hx, (F.condition_ok S.overValues hc hopen).1.trans hm, hlogic⟩
  have hbranch : ∀ c n, r₁.graph.get? c = some n → n.kind ≠ .branch := by
    intro c n hn hk
    exact S.branch c n ((F.sameRigid.rigid c n (by rw [hk]; rfl)).mp hn) hk
  have h := Attempt.get_bind_ok.mp h
  obtain ⟨_, r₂, hsettle, h⟩ := Attempt.bind_ok.mp h
  have hstays : r₁.graph.liveIds.forM (settleGuard method) r₁ = .ok () r₁ :=
    Attempt.forM_stays fun id _ => settleGuard_stays hguards id
  obtain ⟨-, rfl⟩ := EStateM.Result.ok.inj (hstays.symm.trans hsettle)
  have h := Attempt.get_bind_ok.mp h
  obtain ⟨_, r₃, hbranches, h⟩ := Attempt.bind_ok.mp h
  rw [select_branch_eq_nil hbranch] at hbranches
  obtain ⟨-, rfl⟩ := Attempt.pure_ok.mp hbranches
  obtain ⟨_, r₄, hclean, h⟩ := Attempt.bind_ok.mp h
  obtain ⟨-, rfl⟩ := EStateM.Result.ok.inj ((cleanSeeds_stays (hseeds₁.trans hseeds)).symm.trans hclean)
  obtain rfl := Attempt.modify_ok.mp h
  obtain ⟨W, hunused⟩ := sweepUnused_sweeps method (Nat.le_refl r₁.graph.liveCount)
  refine ⟨r₁.graph, F, W, fun x n hn hk => ?_, fun q n hn hk => ?_, fun c n hn => ?_, hunused⟩
  · have hn₁ := W.eq_of_live hn
    have horiginal := (F.eq_of_undecided hn₁ hk).symm.trans hn₁
    have htruth := hnone x (Graph.mem_select.mpr ⟨n, horiginal, hk⟩) n hn₁ hk
    unfold stampTruth? at htruth ⊢
    rw [W.condition_eq hn, W.classes]
    exact htruth
  · obtain ⟨a, x, rest, m, ha, hx, hm, hlogic⟩ := hguards q n (W.eq_of_live hn) hk
    refine ⟨a, x, rest, m, ha, hx, (W.used q n hn x ?_).trans hm, hlogic⟩
    simp [Node.dependencies, hx]
  · exact hbranch c n (W.eq_of_live hn)

theorem foldCondition_stays (h : stampTruth? r.graph x = .ok none) : foldCondition method x r = .ok () r :=
  Attempt.bind_ok.mpr ⟨none, r, Attempt.ask_ok.mpr ⟨h, rfl⟩, rfl⟩

theorem run_stays (R : r.graph.AtRest) (hseeds : r.seeds = []) : run method r = .ok () r := by
  have hfold : (r.graph.select (isUndecidedLogic ·.kind)).forM (foldCondition method) r = .ok () r := by
    refine Attempt.forM_stays fun x hx => ?_
    obtain ⟨n, hn, hk⟩ := Graph.mem_select.mp hx
    exact foldCondition_stays (R.logic x n hn hk)
  have hsettle : r.graph.liveIds.forM (settleGuard method) r = .ok () r :=
    Attempt.forM_stays fun id _ => settleGuard_stays R.guards id
  have hbranches : (r.graph.select (·.kind = .branch)).forM (settleBranch method) r = .ok () r := by
    rw [select_branch_eq_nil R.branch]
    rfl
  have hsweep : sweepUnused method r.graph.liveCount r = r := by
    cases r.graph.liveCount with
    | zero => rfl
    | succ bound => rw [sweepUnused, R.unused]
  refine Attempt.bind_ok.mpr ⟨r, r, Attempt.get_ok.mpr ⟨rfl, rfl⟩, Attempt.bind_ok.mpr ⟨(), r, hfold, ?_⟩⟩
  refine Attempt.bind_ok.mpr ⟨r, r, Attempt.get_ok.mpr ⟨rfl, rfl⟩, Attempt.bind_ok.mpr ⟨(), r, hsettle, ?_⟩⟩
  refine Attempt.bind_ok.mpr ⟨r, r, Attempt.get_ok.mpr ⟨rfl, rfl⟩, Attempt.bind_ok.mpr ⟨(), r, hbranches, ?_⟩⟩
  exact Attempt.bind_ok.mpr ⟨(), r, cleanSeeds_stays hseeds, Attempt.modify_ok.mpr hsweep⟩

end Round

namespace Draft

variable {method : Option MethodId} {d d' : Draft} {bound : Nat} {total changes : Changes}

theorem canonicalizeOnce_stays (R : d.graph.AtRest) : canonicalizeOnce method d = .ok {} d := by
  have hrun : Round.run method { draft := d } = .ok () { draft := d } := Round.run_stays R rfl
  unfold canonicalizeOnce
  rw [hrun]

theorem canonicalizeRounds_stays (R : d.graph.AtRest) : canonicalizeRounds method bound total d = .ok total d := by
  cases bound with
  | zero => rfl
  | succ bound => exact Attempt.bind_ok.mpr ⟨{}, d, canonicalizeOnce_stays R, rfl⟩

theorem canonicalize_stays (R : d.graph.AtRest) : canonicalize method d = .ok {} d :=
  Attempt.bind_ok.mpr ⟨d, d, Attempt.get_ok.mpr ⟨rfl, rfl⟩, canonicalizeRounds_stays R⟩

/-- All that canonicalizing does over settled guards is done in its first round. -/
theorem canonicalize_tidies (S : d.graph.Settled) (h : canonicalize method d = .ok changes d') :
    ∃ g, d.graph.Folds g ∧ g.Sweeps d'.graph ∧ d'.graph.AtRest := by
  have h := Attempt.get_bind_ok.mp h
  obtain ⟨first, d₁, honce, h⟩ := Attempt.bind_ok.mp h
  unfold canonicalizeOnce at honce
  split at honce
  next r hrun =>
    obtain ⟨rfl, rfl⟩ := EStateM.Result.ok.inj honce
    obtain ⟨g, F, W, R⟩ := Round.run_tidies (r := { draft := d }) S rfl hrun
    have hsame : d' = r.draft := by
      split at h
      next => exact (Attempt.pure_ok.mp h).2.symm
      next => exact (EStateM.Result.ok.inj ((canonicalizeRounds_stays R).symm.trans h)).2.symm
    exact ⟨g, F, hsame ▸ W, hsame ▸ R⟩
  next => cases honce

end Draft

end GuardElision
