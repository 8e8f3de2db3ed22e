import GuardElision.Proofs.Flow.ClosedWalks
import GuardElision.Proofs.Graph.ControlPaths
import GuardElision.Proofs.Graph.Symmetry
import GuardElision.Proofs.Placement.Earliest

namespace GuardElision

namespace Graph

/-- Both checks accept the graph, and it keeps to what they do not look at. -/
structure Accepted (g : Graph) : Prop where
  checked : g.checkStructure = .ok ()
  placeable : g.checkPlacement = .ok ()
  begins : g.kind? start = some .start
  regular : g.Regular
  reached : ∀ c n, g.get? c = some n → n.kind.isControl = true → g.Reach c
  /-- The arms of a branch are two nodes of their own. -/
  arms : ∀ c n, g.get? c = some n → n.kind = .branch → n.successors.Nodup ∧
    ∀ s ∈ n.successors, g.kind? s = some .begin
  headers : g.HeadersDominate
  tests : ∀ x n t, g.get? x = some n → n.kind = .branch ∨ n.kind.isGuard = true → n.inputs.head? = some t →
    ∀ m, g.get? t = some m → m.kind.isLogic = true
  acyclic : ∀ x, ¬Relation.TransGen g.Computes x x
  ordered : ∀ q r a n m, g.get? q = some n → n.kind.isGuard = true → n.anchor = some a → g.get? r = some m →
    m.kind.isGuard = true → m.anchor = some a → Relation.TransGen g.Relies q r → r < q

open Placement

variable {g : Graph} {c x : NodeId} {n : Node}

/-- A guard takes effect where it stands, a control node at itself. -/
theorem guardPosition?_eq_some {q a : NodeId} (h : g.guardPosition? q = some a) :
    ∃ k, g.get? q = some k ∧ (k.kind.isGuard = true ∧ k.anchor = some a ∨ k.kind.isControl = true ∧ a = q) := by
  unfold guardPosition? at h
  split at h
  next k hk =>
    refine ⟨k, hk, ?_⟩
    split at h
    next hg => exact Or.inl ⟨hg, h⟩
    next =>
      split at h
      next hc => exact Or.inr ⟨hc, (Option.some.inj h).symm⟩
      next => cases h
  next => cases h

namespace Regular

variable (R : g.Regular) {d : NodeId}

include R

theorem anchored_of_anchor (hn : g.get? x = some n) (ha : n.anchor = some d) : n.kind.standing = .anchored := by
  cases hk : n.kind.standing with
  | control => simp [(R.plain x n hn (Kind.standing_eq_control_iff.mp hk)).1] at ha
  | anchored => rfl
  | leaf =>
    have hmem : d ∈ n.dependencies := Node.mem_dependencies.mpr (Or.inr (Or.inl ha))
    simp [R.leaf x n hn hk] at hmem
  | computed => simp [R.computed x n hn hk] at ha

theorem computed_of_edge (hn : g.get? x = some n) (hd : n.guard = some d ∨ n.memory = some d) :
    n.kind.standing = .computed := by
  cases hk : n.kind.standing with
  | control =>
    obtain ⟨_, hguard, hmemory, _⟩ := R.plain x n hn (Kind.standing_eq_control_iff.mp hk)
    simp [hguard, hmemory] at hd
  | anchored =>
    obtain ⟨hguard, hmemory, _⟩ := R.anchored x n hn hk
    simp [hguard, hmemory] at hd
  | leaf =>
    have hmem : d ∈ n.dependencies := Node.mem_dependencies.mpr (Or.inr (Or.inr hd))
    simp [R.leaf x n hn hk] at hmem
  | computed => rfl

end Regular

theorem successors_counted (haccepted : g.checkStructure = .ok ()) (hn : g.get? c = some n)
    (hk : n.kind.isControl = true) :
    (n.kind = .branch → n.successors.length = 2 ∧ ∃ t, n.inputs.head? = some t ∧ (g.stamp t).isLogic = true) ∧
    (n.kind ≠ .branch → n.successors.length ≤ 1) ∧ (n.kind.isTerminal = true → n.successors = []) ∧
    (n.kind = .loopEnd → n.successors ≠ [] ∧ ∀ s ∈ n.successors, g.kind? s = some .loopBegin) := by
  have hcheck := successors_checked haccepted hn hk
  unfold checkSuccessors at hcheck
  cases hkind : n.kind with
  | branch =>
    simp only [hkind] at hcheck
    obtain ⟨_, hcount, hcheck⟩ := except_bind_ok.mp hcheck
    obtain ⟨t, ht, hlogic⟩ := except_bind_ok.mp hcheck
    exact ⟨fun _ => ⟨of_decide_eq_true (ensure_ok.mp hcount), t, expect_ok.mp ht, ensure_ok.mp hlogic⟩,
      by simp, by simp [Kind.isTerminal], by simp⟩
  | ret | deoptimize =>
    simp only [hkind] at hcheck
    have hnil := List.length_eq_zero_iff.mp (of_decide_eq_true (ensure_ok.mp hcheck))
    exact ⟨by simp, by simp [hnil], fun _ => hnil, by simp⟩
  | loopEnd =>
    simp only [hkind] at hcheck
    have hboth := ensure_ok.mp hcheck
    rw [Bool.and_eq_true, decide_eq_true_iff, decide_eq_true_iff] at hboth
    obtain ⟨s, hs⟩ := List.length_eq_one_iff.mp hboth.1
    refine ⟨by simp, by simp [hs], by simp [Kind.isTerminal], fun _ => ⟨by simp [hs], ?_⟩⟩
    simpa [hs] using hboth.2
  | start =>
    simp only [hkind] at hcheck
    obtain ⟨_, _, hcheck⟩ := except_bind_ok.mp hcheck
    exact ⟨by simp, fun _ => of_decide_eq_true (ensure_ok.mp hcheck), by simp [Kind.isTerminal], by simp⟩
  | begin | merge | loopBegin | invoke =>
    simp only [hkind] at hcheck
    have hle := ensure_ok.mp hcheck
    simp only [Kind.isAnchor, Bool.not_true, Bool.false_or, decide_eq_true_eq] at hle
    exact ⟨by simp, fun _ => hle, by simp [Kind.isTerminal], by simp⟩
  | _ => simp [hkind, Kind.isControl] at hk

namespace Accepted

variable (A : g.Accepted)

include A

theorem shaped : g.Shaped := by
  obtain ⟨n₀, hn₀, hk₀⟩ := kind?_eq_some_iff.mp A.begins
  have hcount : ∀ {c n}, g.get? c = some n → n.kind.isControl = true → ∀ s, n.successors.count s ≤ 1 := by
    intro c n hn hk s
    by_cases hb : n.kind = .branch
    · exact List.nodup_iff_count_le_one.mp (A.arms c n hn hb).1 s
    · exact List.count_le_length.trans ((successors_counted A.checked hn hk).2.1 hb)
  have hpred : ∀ {c n}, g.get? c = some n → n.kind.isControl = true → ∀ p ∈ n.predecessors,
      ∃ m, g.get? p = some m ∧ m.kind.isControl = true ∧ c ∈ m.successors := by
    intro c n hn hk p hp
    obtain ⟨m, hm, hmem⟩ := successor_of_predecessor A.checked hn hk hp
    refine ⟨m, hm, ?_, hmem⟩
    by_contra hfloat
    simp [A.regular.loose p m hm (by simpa using hfloat)] at hmem
  refine ⟨⟨n₀, hn₀, hk₀, predecessors_of_start A.checked hn₀ hk₀⟩, fun c n hn hk => ?_, fun c n hn hk s hs => Or.inl ?_,
    fun c n hn hk p hp => hpred hn hk p hp, fun c n hn hk => ?_, fun c n hn hk => ?_,
    fun c n hn hk hb => (successors_counted A.checked hn hk).2.1 hb, fun c n hn hk => ?_, fun c n hn hk s hs m hm => ?_,
    fun c n hn hk hr s hs => ?_, fun c n hn hk hm => predecessors_of_straight A.checked hn hk hm, ?_⟩
  · by_contra hne
    obtain ⟨a, _, m, hm, hkm, _, hmem, _⟩ := (A.reached c n hn (by simp [hk, Kind.isControl])).exists_step hne
    have hrecorded := (successor_recorded A.checked hm hkm hmem hn).2
    rw [predecessors_of_start A.checked hn hk, List.count_nil] at hrecorded
    exact absurd (List.count_pos_iff.mpr hmem) (by omega)
  · obtain ⟨m, hm⟩ := successor_live A.checked hn hs
    obtain ⟨hkm, hrecorded⟩ := successor_recorded A.checked hn hk hs hm
    exact ⟨m, hm, hkm, List.count_pos_iff.mp (hrecorded ▸ List.count_pos_iff.mpr hs)⟩
  · refine List.nodup_iff_count_le_one.mpr fun p => ?_
    by_cases hp : p ∈ n.predecessors
    · obtain ⟨m, hm, hkm, _⟩ := hpred hn hk p hp
      rw [← count_successors_eq A.checked hm hkm hn hk]
      exact hcount hm hkm c
    · simp [List.count_eq_zero_of_not_mem hp]
  · obtain ⟨hlen, _⟩ := (successors_counted A.checked hn (by simp [hk, Kind.isControl])).1 hk
    obtain ⟨yes, no, hs⟩ := List.length_eq_two.mp hlen
    obtain ⟨hnodup, hbegin⟩ := A.arms c n hn hk
    rw [hs] at hnodup hbegin
    exact ⟨yes, no, hs, by simpa using hnodup, hbegin yes (by simp), hbegin no (by simp)⟩
  · exact (successors_counted A.checked hn (Kind.isControl_of_isTerminal hk)).2.2.1 hk
  · obtain ⟨m', hm', hkind⟩ := kind?_eq_some_iff.mp
      (((successors_counted A.checked hn (by simp [hk, Kind.isControl])).2.2.2 hk).2 s hs)
    cases hm.symm.trans hm'
    exact hkind
  · exact Placement.dominates_iff.mp (A.headers c n hn hk (Placement.isReachable_iff.mpr hr) s hs)
  · obtain ⟨_, _, hcheck⟩ := except_bind_ok.mp A.checked
    have hnone : g.forwardFlow.findCycle? start = none := by
      cases hcycle : g.forwardFlow.findCycle? start with
      | none => rfl
      | some cycle =>
        rw [hcycle] at hcheck
        cases hcheck
    obtain ⟨rank, hrank⟩ := Digraph.exists_rank_of_findCycle? hnone
    refine ⟨rank, fun c s hs => hrank c s ?_ (mem_forwardSuccessors.mpr hs) hs.lt⟩
    obtain ⟨m, hm, hkm, _⟩ := hs
    exact A.reached c m hm hkm

theorem live {d : NodeId} (hn : g.get? x = some n) (hd : d ∈ n.dependencies) : ∃ m, g.get? d = some m := by
  obtain ⟨_, hlive, _⟩ := except_bind_ok.mp (node_checked A.checked hn).1
  exact isLive_iff.mp (ensure_ok.mp (except_forM_ok hlive d hd))

theorem anchor_control {a : NodeId} (hn : g.get? x = some n) (hk : n.kind.standing = .anchored)
    (ha : n.anchor = some a) : ∃ m, g.get? a = some m ∧ m.kind.isControl = true := by
  by_cases hphi : n.kind = .phi
  · obtain ⟨a', m, ha', hm, hmerge, _⟩ := phi_merge A.checked hn hphi
    cases ha.symm.trans ha'
    exact ⟨m, hm, Kind.isControl_of_isMerge hmerge⟩
  · obtain ⟨a', m, ha', hm, hkm⟩ := guard_anchor A.checked hn (Kind.isGuard_of_standing hk hphi)
    cases ha.symm.trans ha'
    exact ⟨m, hm, hkm⟩

theorem guard_position {q : NodeId} (hn : g.get? x = some n) (hq : n.guard = some q) :
    ∃ a, g.guardPosition? q = some a := by
  have hk := A.regular.computed_of_edge hn (Or.inl hq)
  obtain ⟨r, hat⟩ := (value_of_checkPlacement A.placeable hn (Kind.isControl_of_standing hk)).1
  have hown : ∃ own, (ofGraph g).ownPositions x n = .ok own := by
    cases hat with
    | computed _ hn' _ hown | unreached _ hn' _ hown =>
      cases hn.symm.trans hn'
      exact ⟨_, hown⟩
    | control hn' hk' | anchored hn' hk' | leaf hn' hk' =>
      cases hn.symm.trans hn'
      cases hk.symm.trans hk'
  obtain ⟨own, hown⟩ := hown
  unfold ownPositions at hown
  rw [hq] at hown
  obtain ⟨a, ha, _⟩ := except_bind_ok.mp hown
  exact ⟨a, expect_ok.mp ha⟩

theorem guardPosition_control {q a : NodeId} (h : g.guardPosition? q = some a) :
    ∃ m, g.get? a = some m ∧ m.kind.isControl = true := by
  obtain ⟨k, hk, ⟨hg, ha⟩ | ⟨hc, rfl⟩⟩ := guardPosition?_eq_some h
  · exact A.anchor_control hk (standing_of_isGuard hg) ha
  · exact ⟨k, hk, hc⟩

/-- In an accepted graph where control reaches all control nodes, positions are reached. -/
theorem stands {r : Option NodeId} (hat : (ofGraph g).At x r) : ∃ q, r = some q ∧ g.Reach q := by
  have hcontrol : ∀ {c n}, g.get? c = some n → n.kind.isControl = true →
      ∃ q, (ofGraph g).reachable? c = some q ∧ g.Reach q := by
    intro c n hn hk
    have hr := A.reached c n hn hk
    refine ⟨c, ?_, hr⟩
    rw [reachable?, if_pos (isReachable_iff.mpr hr)]
  induction hat with
  | @control x n hn hk => exact hcontrol hn (Kind.standing_eq_control_iff.mp hk)
  | @anchored x a n hn hk ha =>
    obtain ⟨m, hm, hkm⟩ := A.anchor_control hn hk ha
    exact hcontrol hm hkm
  | leaf => exact ⟨start, rfl, .start A.shaped.start_lt⟩
  | @computed x n own r place hn hk hown _ hr ih =>
    have hreached : ∀ a ∈ own ++ n.inputs.map place, g.Reach a := by
      intro a ha
      rcases List.mem_append.mp ha with ha | ha
      · rcases (mem_ownPositions hown).mp ha with ⟨q, _, hq⟩ | hm
        · obtain ⟨m, hm, hkm⟩ := A.guardPosition_control hq
          exact A.reached a m hm hkm
        · obtain ⟨m, hm'⟩ := A.live hn (Node.mem_dependencies.mpr (Or.inr (Or.inr (Or.inr hm))))
          exact A.reached a m hm' (A.regular.state x n a m hn hm hm')
      · obtain ⟨i, hi, rfl⟩ := List.mem_map.mp ha
        obtain ⟨q, hq, hr⟩ := ih i hi
        exact Option.some.inj hq ▸ hr
    rcases deepest?_cases x hreached with ⟨⟨e, he⟩, _⟩ | ⟨q, hq, _, hmem⟩
    · cases hr.symm.trans he
    · refine ⟨q, Except.ok.inj (hr.symm.trans hq), ?_⟩
      rcases hmem with hmem | ⟨_, rfl⟩
      · exact hreached q hmem
      · exact .start A.shaped.start_lt
  | unreached _ _ _ _ _ _ _ _ ih =>
    obtain ⟨_, hnone, _⟩ := ih
    cases hnone

theorem exists_at (hn : g.get? x = some n) : (ofGraph g).At x (some ((ofGraph g).spot x)) ∧ g.Reach ((ofGraph g).spot x) := by
  have hat : ∃ r, (ofGraph g).At x r := by
    by_cases hk : n.kind.isControl = true
    · exact ⟨_, .control hn (Kind.standing_eq_control_iff.mpr hk)⟩
    · exact (value_of_checkPlacement A.placeable hn (by simpa using hk)).1
  obtain ⟨r, hr⟩ := hat
  obtain ⟨q, rfl, hq⟩ := A.stands hr
  rw [← hr.eq_spot]
  exact ⟨hr, hq⟩

theorem spot_of_control (hn : g.get? c = some n) (hk : n.kind.isControl = true) : (ofGraph g).spot c = c := by
  have hat : (ofGraph g).At c (some c) := by
    have hat : (ofGraph g).At c ((ofGraph g).reachable? c) := .control hn (Kind.standing_eq_control_iff.mpr hk)
    rwa [reachable?, if_pos (isReachable_iff.mpr (A.reached c n hn hk))] at hat
  exact hat.eq_spot.symm

theorem spot_of_anchor {a : NodeId} (hn : g.get? x = some n) (hk : n.kind.standing = .anchored)
    (ha : n.anchor = some a) : (ofGraph g).spot x = a := by
  obtain ⟨m, hm, hkm⟩ := A.anchor_control hn hk ha
  have hat : (ofGraph g).At x (some a) := by
    have hat : (ofGraph g).At x ((ofGraph g).reachable? a) := .anchored hn hk ha
    rwa [reachable?, if_pos (isReachable_iff.mpr (A.reached a m hm hkm))] at hat
  exact hat.eq_spot.symm

theorem formed : g.Formed := by
  have H := A.shaped
  have hcheck : ∀ {x n}, g.get? x = some n → n.kind.isControl = false → g.checkFloating x n = .ok () :=
    fun hn => (node_checked A.checked hn).2.2
  have hlogic : ∀ {t m}, g.get? t = some m → (g.stamp t).isLogic = true → m.stamp.isLogic = true := by
    intro t m hm hstamp
    simpa [stamp, hm] using hstamp
  refine ⟨A.regular, H, fun c n hn hk => ?_, fun x n d hn hd => ?_, fun x n hn hk => ?_, fun q n hn hk => ?_,
    fun p n hn hk => ?_, fun x n hn count hcount => ?_, fun x n hn hk => ?_, fun x n d k hn hd hk => ?_⟩
  · exact ((successors_counted A.checked hn (by simp [hk, Kind.isControl])).2.2.2 hk).1
  · obtain ⟨m, hm⟩ := A.live hn hd
    exact lt_capacity hm
  · have htest : ∃ t, n.inputs.head? = some t ∧ (g.stamp t).isLogic = true := by
      rcases hk with hk | hk
      · exact ((successors_counted A.checked hn (by simp [hk, Kind.isControl])).1 hk).2
      · have hpassed := hcheck hn (Kind.isControl_of_isGuard hk)
        unfold checkFloating at hpassed
        cases hkind : n.kind with
        | guard negated reason =>
          simp only [hkind] at hpassed
          obtain ⟨t, ht, hpassed⟩ := except_bind_ok.mp hpassed
          obtain ⟨_, hstamp, _⟩ := except_bind_ok.mp hpassed
          exact ⟨t, expect_ok.mp ht, ensure_ok.mp hstamp⟩
        | _ => simp [hkind, Kind.isGuard] at hk
    obtain ⟨t, ht, hstamp⟩ := htest
    exact ⟨t, ht, fun m hm => ⟨A.tests x n t hn hk ht m hm, hlogic hm hstamp⟩⟩
  · obtain ⟨a, m, ha, hm, hanchor⟩ := guard_isAnchor A.checked hn hk
    refine ⟨a, ha, fun k hk' => ?_⟩
    cases hm.symm.trans hk'
    exact hanchor
  · obtain ⟨a, m, ha, hm, hmerge, hlen⟩ := phi_merge A.checked hn hk
    exact ⟨a, m, ha, hm, hmerge, fun _ => hlen⟩
  · have hpassed := hcheck hn (Kind.floats_of_takes? hcount).1
    unfold checkFloating at hpassed
    cases hkind : n.kind with
    | pi =>
      simp only [hkind] at hpassed
      simp only [hkind, Kind.takes?, Option.some.injEq] at hcount
      exact (of_decide_eq_true (Bool.and_eq_true _ _ ▸ ensure_ok.mp hpassed).1).trans hcount
    | read | compare | isNull | instanceOf =>
      simp only [hkind] at hpassed
      simp only [hkind, Kind.takes?, Option.some.injEq] at hcount
      exact (of_decide_eq_true (ensure_ok.mp hpassed)).trans hcount
    | _ => simp [hkind, Kind.takes?] at hcount
  · have hpassed := hcheck hn (by simp [hk, Kind.isControl])
    simp only [checkFloating, hk] at hpassed
    exact (Bool.and_eq_true _ _ ▸ ensure_ok.mp hpassed).2
  · rcases hd with hd | hd | hd
    · obtain ⟨m, hm, hkm⟩ := A.anchor_control hn (A.regular.anchored_of_anchor hn hd) hd
      cases hm.symm.trans hk
      exact Or.inl hkm
    · obtain ⟨a, ha⟩ := A.guard_position hn hd
      obtain ⟨m, hm, hkm⟩ := guardPosition?_eq_some ha
      cases hm.symm.trans hk
      exact hkm.symm.imp And.left And.left
    · exact Or.inl (A.regular.state x n d k hn hd hk)

/-- The positions that the check gives are places in order. -/
theorem placed : g.Placed (ofGraph g).spot g.Dom := by
  refine ⟨fun c n hn hk => A.spot_of_control hn hk, fun x n a hn hk ha => A.spot_of_anchor hn ?_ ha, fun x n d hn hd => ?_,
    fun p n m k i x s hp hk ha hm hx hs => ?_⟩
  · exact hk.elim standing_of_isGuard fun hphi => by rw [hphi]; rfl
  · obtain ⟨m, hm⟩ := A.live hn hd.mem
    obtain ⟨hat, hr⟩ := A.exists_at hn
    by_cases hcontrol : m.kind.isControl = true
    · rw [A.spot_of_control hm hcontrol]
      rcases hd with ⟨_, hin⟩ | ha | hq | hmem
      · simp [(A.regular.input x n d m hn hin hm).1] at hcontrol
      · rw [A.spot_of_anchor hn (A.regular.anchored_of_anchor hn ha) ha] at hr ⊢
        exact .refl hr
      · refine (Needs.guard hn (A.regular.computed_of_edge hn (Or.inl hq)) hq ?_).dom hat
        rw [guardPosition?, hm]
        simp [hcontrol, Kind.isGuard_of_isControl hcontrol]
      · exact (Needs.memory hn (A.regular.computed_of_edge hn (Or.inr hmem)) hmem).dom hat
    · obtain ⟨hat', _⟩ := A.exists_at hm
      suffices hused : UsedAt g x d ((ofGraph g).spot x) from
        dom_of_checkPlacement A.placeable hm (by simpa using hcontrol) hat' hused hr
      refine .plain hn (fun hphi => ?_) hd.mem (hat.position A.acyclic)
      have hstanding : n.kind.standing = .anchored := by rw [hphi]; rfl
      obtain ⟨hguard, hmemory, _⟩ := A.regular.anchored x n hn hstanding
      rcases hd with ⟨hne, _⟩ | ha | hq | hmem
      · exact hne hphi
      · obtain ⟨m', hm', hkm⟩ := A.anchor_control hn hstanding ha
        cases hm.symm.trans hm'
        exact hcontrol hkm
      · simp [hguard] at hq
      · simp [hmemory] at hmem
  · obtain ⟨l, hl⟩ := A.live hp (Node.mem_dependencies.mpr (Or.inl (List.mem_of_getElem? hx)))
    obtain ⟨a, k', ha', hk', hmerge, _⟩ := phi_merge A.checked hp hk
    cases ha.symm.trans ha'
    cases hm.symm.trans hk'
    obtain ⟨q, hq, hkq, _⟩ := A.shaped.pred m k hm (Kind.isControl_of_isMerge hmerge) s (List.mem_of_getElem? hs)
    have hused : UsedAt g p x s :=
      .phi hp hk ha hm (List.mem_iff_getElem?.mpr ⟨i, List.getElem?_zip_eq_some.mpr ⟨hx, hs⟩⟩)
    exact dom_of_checkPlacement A.placeable hl (A.regular.input p n x l hp (List.mem_of_getElem? hx) hl).1
      (A.exists_at hl).1 hused (A.reached s q hq hkq)

theorem inOrder : g.InOrder :=
  ⟨A.formed, fun _ _ _ => A.live, A.reached, ⟨_, A.placed, fun _ _ hn => (A.exists_at hn).2⟩, A.acyclic, A.ordered⟩

end Accepted

namespace InOrder

variable (I : g.InOrder)

include I

theorem checkEdges_ok (hn : g.get? c = some n) (hk : n.kind.isControl = true) : g.checkEdges c n = .ok () := by
  have H := I.formed.shaped
  have hr := I.reached c n hn hk
  refine except_bind_ok.mpr ⟨(), except_forM_of_forall fun s hs => ?_, except_forM_of_forall fun p hp => ?_⟩
  · obtain ⟨m, hm, hkm⟩ := H.exists_control (H.reach_successor hr hn hs)
    have hmem : c ∈ m.predecessors := by
      rcases H.succ c n hn hk s hs with ⟨m', hm', _, hmem⟩ | ⟨_, _, hnone⟩
      · cases hm.symm.trans hm'
        exact hmem
      · cases hm.symm.trans hnone
    refine except_bind_ok.mpr ⟨m, node_eq_ok_iff.mpr hm, except_bind_ok.mpr ⟨(), ensure_ok.mpr hkm, ensure_ok.mpr ?_⟩⟩
    rw [List.count_eq_one_of_mem (H.nodup_successors hn hk) hs, List.count_eq_one_of_mem (H.nodup s m hm hkm) hmem]
    rfl
  · obtain ⟨m, hm, _, hmem⟩ := H.pred c n hn hk p hp
    exact except_bind_ok.mpr ⟨m, node_eq_ok_iff.mpr hm, ensure_ok.mpr (List.contains_iff_mem.mpr hmem)⟩

theorem test_stamp {t : NodeId} (hn : g.get? x = some n) (hk : n.kind = .branch ∨ n.kind.isGuard = true)
    (ht : n.inputs.head? = some t) : (g.stamp t).isLogic = true := by
  obtain ⟨t', ht', htest⟩ := I.formed.test x n hn hk
  cases ht.symm.trans ht'
  obtain ⟨m, hm⟩ := I.live x n t hn (Node.mem_dependencies.mpr (Or.inl (List.mem_of_head? ht)))
  simpa [stamp, hm] using (htest m hm).2

theorem checkSuccessors_ok (hn : g.get? c = some n) (hk : n.kind.isControl = true) : g.checkSuccessors c n = .ok () := by
  have H := I.formed.shaped
  have hsingle := H.single c n hn hk
  unfold checkSuccessors
  cases hkind : n.kind with
  | branch =>
    obtain ⟨yes, no, hsucc, _⟩ := H.branch c n hn hkind
    obtain ⟨t, ht, _⟩ := I.formed.test c n hn (Or.inl hkind)
    exact except_bind_ok.mpr ⟨(), ensure_ok.mpr (by simp [hsucc]), except_bind_ok.mpr ⟨t, expect_ok.mpr ht,
      ensure_ok.mpr (I.test_stamp hn (Or.inl hkind) ht)⟩⟩
  | ret | deoptimize =>
    exact ensure_ok.mpr (by simp [H.terminal c n hn (by simp [hkind, Kind.isTerminal])])
  | loopEnd =>
    obtain ⟨s, hs⟩ := List.exists_mem_of_ne_nil _ (I.formed.back c n hn hkind)
    have hsucc := eq_singleton_of_mem (hsingle (by simp [hkind])) hs
    obtain ⟨m, hm, _⟩ := H.exists_control (H.reach_successor (I.reached c n hn hk) hn hs)
    refine ensure_ok.mpr ?_
    simp [hsucc, kind?, hm, H.loopEnd c n hn hkind s hs m hm]
  | start =>
    obtain ⟨m, hm, _, hnil⟩ := H.start
    obtain rfl := H.start_only c n hn hkind
    cases hn.symm.trans hm
    exact except_bind_ok.mpr ⟨(), ensure_ok.mpr (by simp [hnil]),
      ensure_ok.mpr (decide_eq_true (hsingle (by simp [hkind])))⟩
  | begin | merge | loopBegin | invoke =>
    refine ensure_ok.mpr ?_
    simp [Kind.isAnchor, hsingle (by simp [hkind])]
  | _ => simp [hkind, Kind.isControl] at hk

theorem checkPredecessors_ok (hn : g.get? c = some n) (hk : n.kind.isControl = true) :
    g.checkPredecessors c n = .ok () := by
  have H := I.formed.shaped
  have hstep : c ≠ start → ∃ a, g.Step a c ∧ a ∈ n.predecessors := by
    intro hne
    obtain ⟨a, _, hs⟩ := (I.reached c n hn hk).exists_step hne
    exact ⟨a, hs, H.mem_predecessors hs hn⟩
  have hne : n.kind ≠ .start → c ≠ start := by
    rintro hkind rfl
    obtain ⟨m, hm, hkm, _⟩ := H.start
    cases hn.symm.trans hm
    exact hkind hkm
  unfold checkPredecessors
  cases hkind : n.kind with
  | begin | branch | invoke | loopEnd | ret | deoptimize =>
    obtain ⟨a, _, ha⟩ := hstep (hne (by simp [hkind]))
    have hone := eq_singleton_of_mem (H.join c n hn hk (by simp [hkind, Kind.isMerge])) ha
    exact ensure_ok.mpr (by simp [hone])
  | merge | loopBegin =>
    obtain ⟨a, ⟨m, hm, _, hend, _⟩, ha⟩ := hstep (hne (by simp [hkind]))
    have hmem : a ∈ g.forwardPredecessors c := by
      simp [forwardPredecessors, hn, kind?, hm, ha, hend]
    refine ensure_ok.mpr ?_
    rw [Bool.not_eq_true', List.isEmpty_eq_false_iff]
    exact List.ne_nil_of_mem hmem
  | _ => rfl

theorem checkFloating_ok (hn : g.get? x = some n) : g.checkFloating x n = .ok () := by
  have F := I.formed
  have harity := F.arity x n hn
  unfold checkFloating
  cases hkind : n.kind with
  | guard negated reason =>
    have hk : n.kind.isGuard = true := by rw [hkind]; rfl
    obtain ⟨t, ht, _⟩ := F.test x n hn (Or.inr hk)
    obtain ⟨a, ha, hanchored⟩ := F.guard x n hn hk
    obtain ⟨m, hm⟩ := I.live x n a hn (Node.mem_dependencies.mpr (Or.inr (Or.inl ha)))
    refine except_bind_ok.mpr ⟨t, expect_ok.mpr ht, except_bind_ok.mpr ⟨(),
      ensure_ok.mpr (I.test_stamp hn (Or.inr hk) ht), except_bind_ok.mpr ⟨a, expect_ok.mpr ha, ensure_ok.mpr ?_⟩⟩⟩
    simp [kind?, hm, hanchored m hm]
  | phi =>
    obtain ⟨a, m, ha, hm, hmerge, hlen⟩ := F.phi x n hn hkind
    refine except_bind_ok.mpr ⟨a, expect_ok.mpr ha, except_bind_ok.mpr ⟨m, node_eq_ok_iff.mpr hm, ensure_ok.mpr ?_⟩⟩
    simp [hmerge, hlen (I.reached a m hm (Kind.isControl_of_isMerge hmerge))]
  | pi => exact ensure_ok.mpr (by simp [harity 1 (by rw [hkind]; rfl), F.pi x n hn hkind])
  | read | isNull | instanceOf => exact ensure_ok.mpr (by simp [harity 1 (by rw [hkind]; rfl)])
  | compare => exact ensure_ok.mpr (by simp [harity 2 (by rw [hkind]; rfl)])
  | _ => rfl

theorem checkStructure_ok : g.checkStructure = .ok () := by
  have F := I.formed
  have H := F.shaped
  refine except_bind_ok.mpr ⟨(), except_forM_of_forall fun x hx => ?_, ?_⟩
  · obtain ⟨n, hn, _⟩ := mem_select.mp hx
    refine except_bind_ok.mpr ⟨n, node_eq_ok_iff.mpr hn, except_bind_ok.mpr ⟨(), ?_, ?_⟩⟩
    · refine except_bind_ok.mpr ⟨(), except_forM_of_forall fun d hd => ?_, except_forM_of_forall fun s hs => ?_⟩
      · exact ensure_ok.mpr (isLive_iff.mpr (I.live x n d hn hd))
      · have hk : n.kind.isControl = true := by
          by_contra hfloat
          simp [F.loose x n hn (by simpa using hfloat)] at hs
        obtain ⟨m, hm, _⟩ := H.exists_control (H.reach_successor (I.reached x n hn hk) hn hs)
        exact ensure_ok.mpr (isLive_iff.mpr ⟨m, hm⟩)
    · by_cases hk : n.kind.isControl = true
      · rw [if_pos hk]
        exact except_bind_ok.mpr ⟨(), I.checkEdges_ok hn hk, except_bind_ok.mpr ⟨(), I.checkSuccessors_ok hn hk,
          I.checkPredecessors_ok hn hk⟩⟩
      · rw [if_neg hk]
        exact I.checkFloating_ok hn
  · cases hcycle : g.forwardFlow.findCycle? start with
    | none => rfl
    | some cycle =>
      obtain ⟨rank, hrank⟩ := H.ranked
      exact ((Digraph.findCycle?_found hcycle).cycle.not_ascending fun x _ y hy _ =>
        hrank x y (mem_forwardSuccessors.mp hy)).elim

variable {place : NodeId → NodeId} (P : g.Placed place g.Dom)
  (hplace : ∀ x n, g.get? x = some n → g.Reach (place x))

include P

theorem own_above {own : List NodeId} (hn : g.get? x = some n) (hown : (ofGraph g).ownPositions x n = .ok own) {a : NodeId}
    (ha : a ∈ own) : g.Dom a (place x) := by
  have F := I.formed
  rcases (mem_ownPositions hown).mp ha with ⟨q, hq, hposition⟩ | hm
  · have hrests := P.rests x n q hn (Or.inr (Or.inr (Or.inl hq)))
    obtain ⟨k, hk, ⟨hg, hanchor⟩ | ⟨hc, rfl⟩⟩ := guardPosition?_eq_some hposition
    · rwa [P.anchor q k a hk (Or.inl hg) hanchor] at hrests
    · rwa [P.control a k hk hc] at hrests
  · have hrests := P.rests x n a hn (Or.inr (Or.inr (Or.inr hm)))
    obtain ⟨k, hk⟩ := I.live x n a hn (Node.mem_dependencies.mpr (Or.inr (Or.inr (Or.inr hm))))
    rwa [P.control a k hk (F.state x n a k hn hm hk)] at hrests

include hplace

theorem exists_at (hn : g.get? x = some n) : ∃ q, (ofGraph g).At x (some q) ∧ g.Dom q (place x) := by
  have F := I.formed
  have hreachable : ∀ {a}, g.Reach a → (ofGraph g).reachable? a = some a := fun hr => by
    rw [reachable?, if_pos (isReachable_iff.mpr hr)]
  -- the inputs of a node are computed from fewer nodes
  induction hheight : g.height x using Nat.strong_induction_on generalizing x n with
  | _ height ih =>
    have hr := hplace x n hn
    cases hk : n.kind.standing with
    | control =>
      have hself := P.control x n hn (Kind.standing_eq_control_iff.mp hk)
      rw [hself] at hr ⊢
      exact ⟨x, hreachable hr ▸ .control hn hk, .refl hr⟩
    | anchored =>
      have hanchor : ∃ a, n.anchor = some a ∧ place x = a := by
        by_cases hphi : n.kind = .phi
        · obtain ⟨a, _, ha, _⟩ := F.phi x n hn hphi
          exact ⟨a, ha, P.anchor x n a hn (Or.inr hphi) ha⟩
        · have hguard := Kind.isGuard_of_standing hk hphi
          obtain ⟨a, ha, _⟩ := F.guard x n hn hguard
          exact ⟨a, ha, P.anchor x n a hn (Or.inl hguard) ha⟩
      obtain ⟨a, ha, hself⟩ := hanchor
      rw [hself] at hr ⊢
      exact ⟨a, hreachable hr ▸ .anchored hn hk ha, .refl hr⟩
    | leaf => exact ⟨start, .leaf hn hk, .entry_left hr⟩
    | computed =>
      have hguard : ∀ q, n.guard = some q → ∃ a, g.guardPosition? q = some a := by
        intro q hq
        obtain ⟨k, hk'⟩ := I.live x n q hn (Node.mem_dependencies.mpr (Or.inr (Or.inr (Or.inl hq))))
        by_cases hg : k.kind.isGuard = true
        · obtain ⟨a, ha, _⟩ := F.guard q k hk' hg
          exact ⟨a, by simp [guardPosition?, hk', hg, ha]⟩
        · have hc := (F.edge x n q k hn (Or.inr (Or.inl hq)) hk').resolve_right hg
          exact ⟨q, by simp [guardPosition?, hk', hg, hc]⟩
      obtain ⟨own, hown⟩ := exists_ownPositions x hguard
      have hin : ∀ i ∈ n.inputs, (ofGraph g).At i (some ((ofGraph g).spot i)) ∧ g.Dom ((ofGraph g).spot i) (place x) := by
        intro i hi
        obtain ⟨m, hm⟩ := I.live x n i hn (Node.mem_dependencies.mpr (Or.inl hi))
        have hlt := height_lt I.acyclic (computes_of_mem (p := ofGraph g) hn hk hi) (lt_capacity hm)
        obtain ⟨q, hq, hd⟩ := ih _ (hheight ▸ hlt) hm rfl
        rw [← hq.eq_spot]
        refine ⟨hq, hd.trans (P.rests x n i hn (Or.inl ⟨?_, hi⟩))⟩
        rintro hphi
        simp [hphi, Kind.standing] at hk
      have habove : ∀ a ∈ own ++ n.inputs.map (ofGraph g).spot, g.Dom a (place x) := by
        intro a ha
        rcases List.mem_append.mp ha with ha | ha
        · exact I.own_above P hn hown ha
        · obtain ⟨i, hi, rfl⟩ := List.mem_map.mp ha
          exact (hin i hi).2
      rcases deepest?_cases x fun a ha => (habove a ha).reach_left with ⟨_, a, ha, b, hb, hab, hba⟩ | ⟨q, hq, _, hmem⟩
      · exact (Digraph.Dominates.total (habove a ha) (habove b hb)).elim (absurd · hab) (absurd · hba)
      · refine ⟨q, .computed _ hn hk hown (fun i hi => (hin i hi).1) hq, ?_⟩
        rcases hmem with hmem | ⟨_, rfl⟩
        · exact habove q hmem
        · exact .entry_left hr

theorem used_below {v q user use : NodeId} (hv : ∀ m, g.get? v = some m → m.kind.isControl = false)
    (hat : (ofGraph g).At v (some q)) (hu : UsedAt g user v use) : g.Dom q use := by
  have F := I.formed
  obtain ⟨m, hm⟩ : ∃ m, g.get? v = some m := hat.exists_node
  have habove : g.Dom q (place v) := by
    obtain ⟨q', hat', hd⟩ := I.exists_at P hplace hm
    cases hat.unique hat'
    exact hd
  cases hu with
  | @phi n k merge hn hk ha hk' he =>
    obtain ⟨i, hi⟩ := List.mem_iff_getElem?.mp he
    obtain ⟨hx, hs⟩ := List.getElem?_zip_eq_some.mp hi
    exact habove.trans (P.entry user n merge k i v use hn hk ha hk' hx hs)
  | @plain n hn hphi hd hposition =>
    have hrests : n.RestsOn v := (Node.dependency_cases hd).resolve_right fun h => hphi h.1
    have huse := position_ok hposition
    have hbelow := habove.trans (P.rests user n v hn hrests)
    cases hk : n.kind.standing with
    | control =>
      have hself := huse.unique (.control hn hk)
      have hcontrol := Kind.standing_eq_control_iff.mp hk
      rw [P.control user n hn hcontrol] at hbelow
      exact hbelow.trans (dom_of_reachable? hself.symm)
    | anchored =>
      have hguard := Kind.isGuard_of_standing hk hphi
      obtain ⟨a, ha, _⟩ := F.guard user n hn hguard
      rw [P.anchor user n a hn (Or.inl hguard) ha] at hbelow
      exact hbelow.trans (dom_of_reachable? (huse.unique (.anchored hn hk ha)).symm)
    | leaf => simp [F.leaf user n hn hk] at hd
    | computed =>
      rcases hrests with ⟨_, hin⟩ | ha | hq | hmem
      · obtain ⟨spot, own, _, hins, hdeepest⟩ := huse.of_computed hn hk
        cases hat.unique (hins v hin)
        exact dom_of_deepest? hdeepest _ (List.mem_append_right _ (List.mem_map_of_mem hin))
      · simp [F.computed user n hn hk] at ha
      · have hguard := (F.edge user n v m hn (Or.inr (Or.inl hq)) hm).resolve_left (by simp [hv m hm])
        obtain ⟨a, ha, _⟩ := F.guard v m hm hguard
        have hself := hat.unique (.anchored hm (standing_of_isGuard hguard) ha)
        have hreached : a = q := by
          rw [reachable?] at hself
          split at hself
          · exact (Option.some.inj hself).symm
          · cases hself
        rw [← hreached]
        exact (Needs.guard hn hk hq (by simp [guardPosition?, hm, hguard, ha])).dom huse
      · have hcontrol := F.state user n v m hn hmem hm
        simp [hv m hm] at hcontrol

omit P hplace in
theorem checkPlacement_ok : g.checkPlacement = .ok () := by
  obtain ⟨place, P, hplace⟩ := I.placed
  suffices hvalue : ∀ v ∈ g.select (!·.kind.isControl), ∀ memo, (ofGraph g).Sound memo →
      ∃ memo', (ofGraph g).Sound memo' ∧ (ofGraph g).checkValue v memo = .ok ((), memo') by
    obtain ⟨memo, _, hrun⟩ := stateT_forM_of_forall hvalue (sound_empty _)
    exact stateT_run'_ok.mpr ⟨memo, hrun⟩
  intro v hv memo hs
  obtain ⟨n, hn, hk⟩ := mem_select.mp hv
  have hfloat : ∀ m, g.get? v = some m → m.kind.isControl = false := by
    intro m hm
    cases hn.symm.trans hm
    simpa using hk
  obtain ⟨q, hat, _⟩ := I.exists_at P hplace hn
  obtain ⟨memo₁, hs₁, hfound⟩ := hat.found I.acyclic memo hs
  suffices huser : ∀ user ∈ g.usages v, ∀ memo, (ofGraph g).Sound memo → ∃ memo', (ofGraph g).Sound memo' ∧
      (do (← (ofGraph g).usePositions user v).forM fun use =>
        liftM (ensure (!(ofGraph g).dominators.isReachable use || (ofGraph g).dominators.dominates q use)
          (.useNotDominated v q user use)) : Search Unit) memo = .ok ((), memo') by
    obtain ⟨memo', hs', hrun⟩ := stateT_forM_of_forall huser hs₁
    exact ⟨memo', hs', stateT_bind_ok.mpr ⟨some q, memo₁, hfound, hrun⟩⟩
  intro user huser memo hs
  obtain ⟨m, hm, hd⟩ := mem_usages.mp huser
  obtain ⟨uses, memo', huses, hs', hused⟩ := usePositions_succeeds I.acyclic hs hm hd
    (fun _ => let ⟨r, hr, _⟩ := I.exists_at P hplace hm; ⟨some r, hr⟩)
    fun hphi => (I.formed.phi user m hm hphi).imp fun _ ⟨k, ha, hk, _⟩ => ⟨k, ha, hk⟩
  obtain ⟨memo'', hs'', hrun⟩ := stateT_forM_of_forall (P := (ofGraph g).Sound)
    (f := fun use => liftM (ensure (!(ofGraph g).dominators.isReachable use || (ofGraph g).dominators.dominates q use)
      (.useNotDominated v q user use))) (fun use hu memo hs => by
    refine ⟨memo, hs, stateT_lift_ok.mpr ⟨ensure_ok.mpr ?_, rfl⟩⟩
    rw [dominates_iff.mpr (I.used_below P hplace hfloat hat (hused use hu)), Bool.or_true]) hs'
  exact ⟨memo'', hs'', stateT_bind_ok.mpr ⟨uses, memo', huses, hrun⟩⟩

end InOrder

/-- Being accepted and being in order are the same. -/
theorem accepted_iff_inOrder : g.Accepted ↔ g.InOrder := by
  refine ⟨Accepted.inOrder, fun I => ?_⟩
  have F := I.formed
  have H := F.shaped
  refine ⟨I.checkStructure_ok, I.checkPlacement_ok, ?_, F.toRegular, I.reached, fun c n hn hk => ?_, fun e n hn hk hr s hs => ?_,
    fun x n t hn hk ht m hm => ?_, I.acyclic, I.ordered⟩
  · obtain ⟨n, hn, hk, _⟩ := H.start
    exact kind?_eq_some_iff.mpr ⟨n, hn, hk⟩
  · obtain ⟨yes, no, hsucc, hne, hyes, hno⟩ := H.branch c n hn hk
    rw [hsucc]
    exact ⟨by simp [hne], by simp [hyes, hno]⟩
  · exact dominates_iff.mpr (H.header e n hn hk (isReachable_iff.mp hr) s hs)
  · obtain ⟨t', ht', htest⟩ := F.test x n hn hk
    cases ht.symm.trans ht'
    exact (htest m hm).1

/-- A control node can be reached and has no edges but those that control has. A floating node has a greater number
than all it relies on. -/
structure NumberedAt (g : Graph) (x : NodeId) (n : Node) : Prop where
  control : n.kind.isControl = true → g.dominators.isReachable x = true ∧ n.anchor = none ∧ n.guard = none ∧
    n.memory = none ∧ (n.kind.isAnchor = true → n.inputs = [])
  floating : n.kind.isControl = false → n.successors = [] ∧ (n.kind ≠ .phi → ∀ y ∈ n.inputs, y < x) ∧
    ∀ y ∈ n.guard, y < x
  anchored : n.kind.standing = .anchored → n.guard = none ∧ n.memory = none ∧
    (n.kind.isGuard = true → n.inputs.length = 1)
  leaf : n.kind.standing = .leaf → n.dependencies = []
  computed : n.kind.standing = .computed → n.anchor = none
  input : ∀ d ∈ n.inputs, ∀ k ∈ g.get? d, k.kind.isControl = false ∧ k.kind.isGuard = false
  state : ∀ d ∈ n.memory, ∀ k ∈ g.get? d, k.kind.isControl = true
  arms : n.kind = .branch → n.successors.Nodup ∧ ∀ s ∈ n.successors, g.kind? s = some .begin
  header : n.kind = .loopEnd → ∀ s ∈ n.successors, g.dominators.dominates s x = true
  test : n.kind = .branch ∨ n.kind.isGuard = true → ∀ t ∈ n.inputs.head?, ∀ m ∈ g.get? t, m.kind.isLogic = true

instance (g : Graph) (x : NodeId) (n : Node) : Decidable (g.NumberedAt x n) :=
  decidable_of_iff (_ ∧ _ ∧ _ ∧ _ ∧ _ ∧ _ ∧ _ ∧ _ ∧ _ ∧ _)
    ⟨fun ⟨h₁, h₂, h₃, h₄, h₅, h₆, h₇, h₈, h₉, h₁₀⟩ => ⟨h₁, h₂, h₃, h₄, h₅, h₆, h₇, h₈, h₉, h₁₀⟩,
      fun ⟨h₁, h₂, h₃, h₄, h₅, h₆, h₇, h₈, h₉, h₁₀⟩ => ⟨h₁, h₂, h₃, h₄, h₅, h₆, h₇, h₈, h₉, h₁₀⟩⟩

theorem Computes.relies {x y : NodeId} (h : g.Computes x y) : g.Relies x y := by
  obtain ⟨n, hn, hk, hphi, hy⟩ := h
  exact ⟨n, hn, hk, .inl ⟨hphi, hy⟩⟩

/-- A graph that both checks accept, with its values numbered in the order they rely on each other, is accepted. -/
theorem accepted_of_numbered (hchecked : g.checkStructure = .ok ()) (hplaceable : g.checkPlacement = .ok ())
    (hbegins : g.kind? start = some .start) (hnodes : ∀ x < g.capacity, ∀ n ∈ g.get? x, g.NumberedAt x n) :
    g.Accepted := by
  have N : ∀ {x n}, g.get? x = some n → g.NumberedAt x n := fun hn => hnodes _ (lt_capacity hn) _ hn
  have hrelies : ∀ x y, g.Relies x y → y < x := by
    rintro x y ⟨n, hn, hk, ⟨hphi, hy⟩ | hy⟩
    · exact ((N hn).floating hk).2.1 hphi y hy
    · exact ((N hn).floating hk).2.2 y hy
  have hless : ∀ x y, Relation.TransGen g.Relies x y → y < x :=
    (Relation.transGen_minimal hrelies : Relation.TransGen g.Relies ≤ (· > ·))
  exact {
    checked := hchecked
    placeable := hplaceable
    begins := hbegins
    regular := {
      loose := fun x n hn hk => ((N hn).floating hk).1
      plain := fun c n hn hk => ((N hn).control hk).2
      anchored := fun x n hn hk => (N hn).anchored hk
      leaf := fun x n hn hk => (N hn).leaf hk
      computed := fun x n hn hk => (N hn).computed hk
      input := fun x n d k hn hd hk => (N hn).input d hd k hk
      state := fun x n d k hn hd hk => (N hn).state d hd k hk }
    reached := fun c n hn hk => isReachable_iff.mp ((N hn).control hk).1
    arms := fun c n hn hk => (N hn).arms hk
    headers := fun e n hn hk _ s hs => (N hn).header hk s hs
    tests := fun x n t hn hk ht m hm => (N hn).test hk t ht m hm
    acyclic := fun x h => (hless x x (h.lift id fun _ _ => Computes.relies)).false
    ordered := fun q r a n m _ _ _ _ _ _ h => hless q r h }

end Graph

end GuardElision
