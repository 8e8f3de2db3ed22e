import GuardElision.Proofs.Flow.Depth
import GuardElision.Proofs.Placement.Position

namespace GuardElision

namespace Placement

variable {g : Graph} {id a b q v : NodeId} {qs : List NodeId} {n : Node} {r : Option NodeId}

theorem isReachable_iff : (ofGraph g).dominators.isReachable a = true ↔ g.Reach a :=
  g.forwardFlow.dominators_isReachable Graph.start a

theorem dominates_iff : (ofGraph g).dominators.dominates a b = true ↔ g.Dom a b :=
  g.forwardFlow.dominators_dominates Graph.start a b

theorem dom_of_reachable? (h : (ofGraph g).reachable? a = some q) : g.Dom a q := by
  unfold reachable? at h
  split at h
  next hreach =>
    cases h
    exact .refl (isReachable_iff.mp hreach)
  next => cases h

/-- Of positions that are all reached, the deepest lies below all others, unless two of them are not on
one chain: then it lies below only one of the two. -/
theorem deepest?_cases (id : NodeId) (hreach : ∀ a ∈ qs, g.Reach a) :
    (∃ e, (ofGraph g).deepest? id qs = .error e) ∧ (∃ a ∈ qs, ∃ b ∈ qs, ¬g.Dom a b ∧ ¬g.Dom b a) ∨
      ∃ q, (ofGraph g).deepest? id qs = .ok (some q) ∧ (∀ a ∈ qs, g.Dom a q) ∧
        (q ∈ qs ∨ qs = [] ∧ q = Graph.start) := by
  have hall : qs.all (ofGraph g).dominators.isReachable = true :=
    List.all_eq_true.mpr fun a ha => isReachable_iff.mpr (hreach a ha)
  rw [deepest?, if_pos hall]
  rcases DominatorTree.deepest?_spec hall with ⟨hnone, rfl⟩ | ⟨d, hd, hm, hmax⟩
  · rw [hnone]
    exact Or.inr ⟨Graph.start, rfl, by simp, Or.inr ⟨rfl, rfl⟩⟩
  · rw [hd]
    dsimp only
    cases hstray : qs.find? fun q => !(ofGraph g).dominators.dominates q d with
    | none =>
      refine Or.inr ⟨d, rfl, fun a ha => ?_, Or.inl hm⟩
      exact dominates_iff.mp (by simpa using List.find?_eq_none.mp hstray a ha)
    | some stray =>
      have hmem := List.mem_of_find?_eq_some hstray
      have hnot : ¬g.Dom stray d := by
        rw [← dominates_iff, Bool.not_eq_true]
        simpa using List.find?_some hstray
      refine Or.inl ⟨⟨_, rfl⟩, stray, hmem, d, hm, hnot, fun hdom => ?_⟩
      have hne : d ≠ stray := by
        rintro rfl
        exact hnot hdom
      have hlt : (ofGraph g).dominators.depth d < (ofGraph g).dominators.depth stray :=
        Digraph.StrictlyDominates.depth_lt ⟨hne, hdom⟩
      have hle := hmax stray hmem
      omega

theorem dom_of_deepest? (h : (ofGraph g).deepest? id qs = .ok (some q)) : ∀ a ∈ qs, g.Dom a q := by
  by_cases hall : qs.all (ofGraph g).dominators.isReachable = true
  · rcases deepest?_cases id fun a ha => isReachable_iff.mp (List.all_eq_true.mp hall a ha) with
      ⟨⟨e, he⟩, _⟩ | ⟨q', hq, hdom, _⟩
    · cases h.symm.trans he
    · cases h.symm.trans hq
      exact hdom
  · rw [deepest?, if_neg hall] at h
    cases h

/-- Control has to pass `a` before the node can be computed: its guard is tested there, its memory state
is that of `a`, or an input stands there. -/
def Awaits (g : Graph) (n : Node) (a : NodeId) : Prop :=
  (∃ q, n.guard = some q ∧ g.guardPosition? q = some a) ∨ n.memory = some a ∨
    ∃ i ∈ n.inputs, (ofGraph g).position i = .ok (some a)

theorem mem_ownPositions {own : List NodeId} (h : (ofGraph g).ownPositions id n = .ok own) :
    a ∈ own ↔ (∃ q, n.guard = some q ∧ g.guardPosition? q = some a) ∨ n.memory = some a := by
  unfold ownPositions at h
  cases hq : n.guard with
  | none =>
    rw [hq] at h
    cases h
    simp
  | some q =>
    rw [hq] at h
    obtain ⟨position, hp, h⟩ := except_bind_ok.mp h
    cases h
    have hposition : g.guardPosition? q = some position := expect_ok.mp hp
    simp [hposition, eq_comm]

theorem exists_ownPositions (id : NodeId) (hguard : ∀ q, n.guard = some q → ∃ a, g.guardPosition? q = some a) :
    ∃ own, (ofGraph g).ownPositions id n = .ok own := by
  unfold ownPositions
  cases hq : n.guard with
  | none => exact ⟨n.memory.toList, rfl⟩
  | some q =>
    obtain ⟨position, hp⟩ := hguard q hq
    exact ⟨position :: n.memory.toList, except_bind_ok.mpr ⟨position, expect_ok.mpr hp, rfl⟩⟩

/-- A computed node whose own positions and inputs' positions are all there. -/
theorem position_eq_deepest? (hacyclic : ∀ x, ¬Relation.TransGen g.Computes x x) (hn : g.get? v = some n)
    (hk : n.kind.standing = .computed) (hguard : ∀ q, n.guard = some q → ∃ a, g.guardPosition? q = some a)
    (hinput : ∀ i ∈ n.inputs, ∃ a, (ofGraph g).position i = .ok (some a)) :
    ∃ qs, (ofGraph g).position v = (ofGraph g).deepest? v qs ∧ ∀ a, a ∈ qs ↔ Awaits g n a := by
  obtain ⟨own, hown⟩ := exists_ownPositions v hguard
  have hspot : ∀ i ∈ n.inputs, (ofGraph g).position i = .ok (some ((ofGraph g).spot i)) := by
    intro i hi
    obtain ⟨a, ha⟩ := hinput i hi
    rw [← (position_ok ha).eq_spot, ha]
  refine ⟨own ++ n.inputs.map (ofGraph g).spot, ?_, fun a => ?_⟩
  · exact position_eq hacyclic hn hk hown fun i hi => position_ok (hspot i hi)
  · rw [List.mem_append, mem_ownPositions hown, List.mem_map, or_assoc, Awaits]
    refine or_congr_right (or_congr_right ⟨?_, ?_⟩)
    · rintro ⟨i, hi, rfl⟩
      exact ⟨i, hi, hspot i hi⟩
    · rintro ⟨i, hi, ha⟩
      exact ⟨i, hi, (position_ok ha).eq_spot.symm⟩

/-- Control has to pass `a` before the node can be computed, because of a guard or a memory state: its own, or
that of a node it is computed from. -/
inductive Needs (g : Graph) : NodeId → NodeId → Prop
  | guard {v q a : NodeId} {n : Node} (hn : g.get? v = some n) (hk : n.kind.standing = .computed)
    (hq : n.guard = some q) (ha : g.guardPosition? q = some a) : Needs g v a
  | memory {v a : NodeId} {n : Node} (hn : g.get? v = some n) (hk : n.kind.standing = .computed)
    (ha : n.memory = some a) : Needs g v a
  | anchor {v a : NodeId} {n : Node} (hn : g.get? v = some n) (hk : n.kind.isGuard = true)
    (ha : n.anchor = some a) : Needs g v a
  | input {v i a : NodeId} {n : Node} (hn : g.get? v = some n) (hk : n.kind.standing = .computed)
    (hi : i ∈ n.inputs) (h : Needs g i a) : Needs g v a

theorem standing_of_isGuard {k : Kind} (h : k.isGuard = true) : k.standing = .anchored := by
  cases k <;> first | rfl | cases h

theorem Needs.dom (h : Needs g v a) (hat : (ofGraph g).At v (some q)) : g.Dom a q := by
  induction h generalizing q with
  | guard hn hk hq ha =>
    obtain ⟨place, own, hown, _, hr⟩ := hat.of_computed hn hk
    exact dom_of_deepest? hr _ (List.mem_append_left _ ((mem_ownPositions hown).mpr (Or.inl ⟨_, hq, ha⟩)))
  | memory hn hk ha =>
    obtain ⟨place, own, hown, _, hr⟩ := hat.of_computed hn hk
    exact dom_of_deepest? hr _ (List.mem_append_left _ ((mem_ownPositions hown).mpr (Or.inr ha)))
  | anchor hn hk ha =>
    have hreached := hat.unique (.anchored hn (standing_of_isGuard hk) ha)
    exact dom_of_reachable? hreached.symm
  | input hn hk hi _ ih =>
    obtain ⟨place, own, _, hins, hr⟩ := hat.of_computed hn hk
    exact (ih (hins _ hi)).trans (dom_of_deepest? hr _ (List.mem_append_right _ (List.mem_map_of_mem hi)))

/-- The user asks for the value at `use`: a phi at the end of a predecessor that the value comes from, any other
node where it stands. -/
inductive UsedAt (g : Graph) (user value use : NodeId) : Prop
  | phi {n m : Node} {merge : NodeId} (hn : g.get? user = some n) (hk : n.kind = .phi)
    (ha : n.anchor = some merge) (hm : g.get? merge = some m) (he : (value, use) ∈ n.inputs.zip m.predecessors)
  | plain {n : Node} (hn : g.get? user = some n) (hk : n.kind ≠ .phi) (hd : value ∈ n.dependencies)
    (hp : (ofGraph g).position user = .ok (some use))

theorem UsedAt.mem_usages {user value use : NodeId} (h : UsedAt g user value use) : user ∈ g.usages value := by
  refine Graph.mem_usages.mpr ?_
  cases h with
  | @phi n _ _ hn _ _ _ he => exact ⟨n, hn, Node.mem_dependencies.mpr (Or.inl (List.of_mem_zip he).1)⟩
  | @plain n hn _ hd => exact ⟨n, hn, hd⟩

theorem usePositions_ok {user value : NodeId} {uses : List NodeId} {memo memo' : Memo}
    (hs : (ofGraph g).Sound memo) (h : (ofGraph g).usePositions user value memo = .ok (uses, memo')) :
    (ofGraph g).Sound memo' ∧ ∀ use, UsedAt g user value use → use ∈ uses := by
  obtain ⟨n, _, hlift, h⟩ := stateT_bind_ok.mp h
  obtain ⟨hnode, rfl⟩ := stateT_lift_ok.mp hlift
  have hn : g.get? user = some n := Graph.node_eq_ok_iff.mp hnode
  by_cases hk : n.kind = .phi
  · simp only [hk] at h
    obtain ⟨merge, _, hlift, h⟩ := stateT_bind_ok.mp h
    obtain ⟨ha, rfl⟩ := stateT_lift_ok.mp hlift
    obtain ⟨m, _, hlift, h⟩ := stateT_bind_ok.mp h
    obtain ⟨hm, rfl⟩ := stateT_lift_ok.mp hlift
    obtain ⟨rfl, rfl⟩ := stateT_pure_ok.mp h
    refine ⟨hs, fun use hu => ?_⟩
    cases hu with
    | phi hn' _ ha' hm' he =>
      cases hn.symm.trans hn'
      cases (expect_ok.mp ha).symm.trans ha'
      cases (Graph.node_eq_ok_iff.mp hm).symm.trans hm'
      exact List.mem_filterMap.mpr ⟨_, he, by simp⟩
    | plain hn' hk' =>
      cases hn.symm.trans hn'
      exact absurd hk hk'
  · have hplain : (do return (← (ofGraph g).position? (ofGraph g).bound user).toList : Search (List NodeId)) memo =
        .ok (uses, memo') := by
      rw [← h]
      refine congrFun ?_ memo
      split
      next hphi => exact absurd hphi hk
      next => rfl
    obtain ⟨r, memo₁, hr, hpure⟩ := stateT_bind_ok.mp hplain
    obtain ⟨rfl, rfl⟩ := stateT_pure_ok.mp hpure
    obtain ⟨hat, hs'⟩ := position?_finds _ _ _ memo r memo₁ hs hr
    refine ⟨hs', fun use hu => ?_⟩
    cases hu with
    | phi hn' hk' =>
      cases hn.symm.trans hn'
      exact absurd hk' hk
    | plain _ _ _ hp => exact Option.mem_toList.mpr (hat.unique (position_ok hp))

/-- A value that passes its check stands above each of its uses. -/
theorem checkValue_ok {value : NodeId} {u : Unit} {memo memo' : Memo} (hs : (ofGraph g).Sound memo)
    (h : (ofGraph g).checkValue value memo = .ok (u, memo')) :
    (ofGraph g).Sound memo' ∧ (∃ r, (ofGraph g).At value r) ∧ ∀ q, (ofGraph g).At value (some q) →
      ∀ user use, UsedAt g user value use → g.Reach use → g.Dom q use := by
  obtain ⟨r, memo₁, hr, h⟩ := stateT_bind_ok.mp h
  obtain ⟨hat, hs₁⟩ := position?_finds _ _ _ memo r memo₁ hs hr
  cases r with
  | none =>
    obtain ⟨_, rfl⟩ := stateT_pure_ok.mp h
    exact ⟨hs₁, ⟨none, hat⟩, fun q hq => nomatch hat.unique hq⟩
  | some position =>
    have huse : ∀ user use memo u memo', (ofGraph g).Sound memo →
        (liftM (ensure (!(ofGraph g).dominators.isReachable use || (ofGraph g).dominators.dominates position use)
          (.useNotDominated value position user use)) : Search Unit) memo = .ok (u, memo') →
        (ofGraph g).Sound memo' ∧ (g.Reach use → g.Dom position use) := by
      intro user use memo u memo' hs h
      obtain ⟨hensure, rfl⟩ := stateT_lift_ok.mp h
      refine ⟨hs, fun hreach => dominates_iff.mp ?_⟩
      have hor := ensure_ok.mp hensure
      rwa [isReachable_iff.mpr hreach, Bool.not_true, Bool.false_or] at hor
    have huser : ∀ user memo u memo', (ofGraph g).Sound memo →
        (do (← (ofGraph g).usePositions user value).forM fun use =>
          liftM (ensure (!(ofGraph g).dominators.isReachable use || (ofGraph g).dominators.dominates position use)
            (.useNotDominated value position user use)) : Search Unit) memo = .ok (u, memo') →
        (ofGraph g).Sound memo' ∧ ∀ use, UsedAt g user value use → g.Reach use → g.Dom position use := by
      intro user memo u memo' hs h
      obtain ⟨uses, memo₁, huses, h⟩ := stateT_bind_ok.mp h
      obtain ⟨hs₁, hmem⟩ := usePositions_ok hs huses
      obtain ⟨hs', hall⟩ := stateT_forM_ok (fun use _ => huse user use) hs₁ h
      exact ⟨hs', fun use hu => hall use (hmem use hu)⟩
    obtain ⟨hs', hall⟩ := stateT_forM_ok (fun user _ => huser user) hs₁ h
    refine ⟨hs', ⟨_, hat⟩, fun q hq user use hu => ?_⟩
    cases hat.unique hq
    exact hall user hu.mem_usages use hu

theorem value_of_checkPlacement (h : g.checkPlacement = .ok ()) (hn : g.get? v = some n) (hk : n.kind.isControl = false) :
    (∃ r, (ofGraph g).At v r) ∧ ∀ q, (ofGraph g).At v (some q) →
      ∀ user use, UsedAt g user v use → g.Reach use → g.Dom q use := by
  obtain ⟨memo, hrun⟩ := stateT_run'_ok.mp h
  have hall := (stateT_forM_ok (fun value _ memo u memo' hs h => checkValue_ok hs h) (sound_empty _) hrun).2
  exact hall v (Graph.mem_select.mpr ⟨n, hn, by simp [hk]⟩)

theorem usePositions_succeeds (hacyclic : ∀ x, ¬Relation.TransGen g.Computes x x) {user value : NodeId} {memo : Memo}
    (hs : (ofGraph g).Sound memo) (hn : g.get? user = some n) (hd : value ∈ n.dependencies)
    (hat : n.kind ≠ .phi → ∃ r, (ofGraph g).At user r)
    (hphi : n.kind = .phi → ∃ merge m, n.anchor = some merge ∧ g.get? merge = some m) :
    ∃ uses memo', (ofGraph g).usePositions user value memo = .ok (uses, memo') ∧ (ofGraph g).Sound memo' ∧
      ∀ use ∈ uses, UsedAt g user value use := by
  have hnode : (liftM (g.node user) : Search Node) memo = .ok (n, memo) :=
    stateT_lift_ok.mpr ⟨Graph.node_eq_ok_iff.mpr hn, rfl⟩
  by_cases hk : n.kind = .phi
  · obtain ⟨merge, m, ha, hm⟩ := hphi hk
    refine ⟨(n.inputs.zip m.predecessors).filterMap fun e => if e.1 = value then some e.2 else none, memo,
      stateT_bind_ok.mpr ⟨n, memo, hnode, ?_⟩, hs, fun use hu => ?_⟩
    · simp only [hk]
      exact stateT_bind_ok.mpr ⟨merge, memo, stateT_lift_ok.mpr ⟨expect_ok.mpr ha, rfl⟩,
        stateT_bind_ok.mpr ⟨m, memo, stateT_lift_ok.mpr ⟨Graph.node_eq_ok_iff.mpr hm, rfl⟩, rfl⟩⟩
    · obtain ⟨⟨v, s⟩, he, hif⟩ := List.mem_filterMap.mp hu
      split at hif
      next hv =>
        cases hif
        cases hv
        exact .phi hn hk ha hm he
      next => cases hif
  · obtain ⟨r, hr⟩ := hat hk
    obtain ⟨memo', hs', hfound⟩ := hr.found hacyclic memo hs
    refine ⟨r.toList, memo', stateT_bind_ok.mpr ⟨n, memo, hnode, ?_⟩, hs', fun use hu => ?_⟩
    · have hplain : (do return (← (ofGraph g).position? (ofGraph g).bound user).toList : Search (List NodeId)) memo =
          .ok (r.toList, memo') := stateT_bind_ok.mpr ⟨r, memo', hfound, rfl⟩
      rw [← hplain]
      refine congrFun ?_ memo
      split
      next hphi' => exact absurd hphi' hk
      next => rfl
    · have hposition := hr.position hacyclic
      rw [Option.mem_toList.mp hu] at hposition
      exact .plain hn hk hd hposition

theorem dom_of_checkPlacement (h : g.checkPlacement = .ok ()) (hn : g.get? v = some n)
    (hk : n.kind.isControl = false) (hat : (ofGraph g).At v (some q)) {user use : NodeId}
    (hu : UsedAt g user v use) (hreach : g.Reach use) : g.Dom q use :=
  (value_of_checkPlacement h hn hk).2 q hat user use hu hreach

end Placement

namespace Graph

open Placement

/-- Placement is as early as it can be. A computed node whose guard, memory state and inputs have positions that
control reaches fails to have one itself only if two of these are not on one chain; else it dominates what all of
them dominate. In a graph that the check accepts, each guard position and memory state that a computed node needs,
itself or through its inputs, dominates all its uses that control reaches. -/
theorem placed_earliest_above_uses (g : Graph) :
    ((∀ x, ¬Relation.TransGen g.Computes x x) → ∀ v n, g.get? v = some n → n.kind.standing = .computed →
      (∀ q, n.guard = some q → ∃ a, g.guardPosition? q = some a) →
      (∀ i ∈ n.inputs, ∃ a, (ofGraph g).position i = .ok (some a)) → (∀ a, Awaits g n a → g.Reach a) →
      ((∃ e, (ofGraph g).position v = .error e) ↔
        ∃ a b, Awaits g n a ∧ Awaits g n b ∧ ¬g.Dom a b ∧ ¬g.Dom b a) ∧
      ∀ r, (ofGraph g).position v = .ok r →
        ∃ q, r = some q ∧ ∀ c, g.Reach c → (g.Dom q c ↔ ∀ a, Awaits g n a → g.Dom a c)) ∧
    (g.checkPlacement = .ok () → ∀ v n q, g.get? v = some n → n.kind.standing = .computed →
      (ofGraph g).position v = .ok (some q) → ∀ a, Needs g v a →
      ∀ user use, UsedAt g user v use → g.Reach use → g.Dom a use) := by
  refine ⟨fun hacyclic v n hn hk hguard hinput hreach => ?_, fun h v n q hn hk hq a ha user use hu hreach => ?_⟩
  · obtain ⟨qs, hposition, hqs⟩ := position_eq_deepest? hacyclic hn hk hguard hinput
    rw [hposition]
    rcases deepest?_cases v fun a ha => hreach a ((hqs a).mp ha) with
      ⟨⟨e, he⟩, a, ha, b, hb, hab, hba⟩ | ⟨q, hq, hdom, hmem⟩
    · refine ⟨⟨fun _ => ⟨a, b, (hqs a).mp ha, (hqs b).mp hb, hab, hba⟩, fun _ => ⟨e, he⟩⟩, fun r hr => ?_⟩
      cases he.symm.trans hr
    · refine ⟨⟨?_, ?_⟩, fun r hr => ?_⟩
      · rintro ⟨e, he⟩
        cases he.symm.trans hq
      · rintro ⟨a, b, ha, hb, hab, hba⟩
        exact ((hdom a ((hqs a).mpr ha)).total (hdom b ((hqs b).mpr hb))).elim hab.elim hba.elim
      · refine ⟨q, Except.ok.inj (hr.symm.trans hq), fun c hc => ⟨fun hqc a ha => ?_, fun hall => ?_⟩⟩
        · exact (hdom a ((hqs a).mpr ha)).trans hqc
        · rcases hmem with hmem | ⟨_, rfl⟩
          · exact hall q ((hqs q).mp hmem)
          · exact .entry_left hc
  · exact (ha.dom (position_ok hq)).trans
      (dom_of_checkPlacement h hn (Kind.isControl_of_standing hk) (position_ok hq) hu hreach)

/-- A read guarded in one arm stands at the head of the arm, above the return that uses it. -/
theorem placed_earliest_above_uses_arm :
    let g : Graph :=
      ⟨#[{ kind := .start, successors := [3] }, { kind := .parameter 0, stamp := .object {} },
        { kind := .isNull, inputs := [1], stamp := .logic },
        { kind := .branch, inputs := [2], predecessors := [0], successors := [4, 5] },
        { kind := .begin, predecessors := [3], successors := [7] },
        { kind := .begin, predecessors := [3], successors := [8] },
        { kind := .read 0, inputs := [1], guard := some 5, memory := some 0, stamp := .int .full },
        { kind := .ret, predecessors := [4] }, { kind := .ret, inputs := [6], predecessors := [5] }], .root⟩
    ∃ n, g.get? 6 = some n ∧ (ofGraph g).position 6 = .ok (some 5) ∧
      (∀ c, g.Reach c → (g.Dom 5 c ↔ ∀ a, Awaits g n a → g.Dom a c)) ∧
      g.checkPlacement = .ok () ∧ Needs g 6 5 ∧ UsedAt g 8 6 8 ∧ g.Dom 5 8 := by
  intro g
  have hdown : ∀ x y, g.Computes x y → y < x := by
    rintro x y ⟨n, hn, _, _, hy⟩
    have hall : ∀ x < 9, (g.get? x).all (fun n => n.inputs.all (· < x)) = true := by decide +kernel
    have hx := hall x (lt_capacity hn)
    rw [hn] at hx
    exact of_decide_eq_true (List.all_eq_true.mp hx y hy)
  have hlt : Relation.TransGen g.Computes ≤ (· > ·) := Relation.transGen_minimal hdown
  have hacyclic : ∀ x, ¬Relation.TransGen g.Computes x x := fun x h => (hlt x x h).false
  have hposition : (ofGraph g).position 6 = .ok (some 5) := by decide +kernel
  have hparameter : (ofGraph g).position 1 = .ok (some 0) := by decide +kernel
  have haccepted : g.checkPlacement = .ok () := by decide +kernel
  have hneeds : Needs g 6 5 := .guard rfl rfl rfl rfl
  have hused : UsedAt g 8 6 8 := .plain rfl (by decide) (by decide) (by decide +kernel)
  have hreached : ∀ a, a = 0 ∨ a = 5 ∨ a = 8 → g.Reach a := by
    rintro a (rfl | rfl | rfl) <;> exact isReachable_iff.mp (by decide +kernel)
  have hearliest := (placed_earliest_above_uses g).1 hacyclic 6 _ rfl rfl
    (fun q hq => ⟨5, by cases hq; rfl⟩) (fun i hi => ⟨0, List.mem_singleton.mp hi ▸ hparameter⟩) (by
      rintro a (⟨q, hq, ha⟩ | hm | ⟨i, hi, ha⟩)
      · cases hq
        cases ha
        exact hreached 5 (by decide)
      · cases hm
        exact hreached 0 (by decide)
      · obtain rfl := List.mem_singleton.mp hi
        cases hparameter.symm.trans ha
        exact hreached 0 (by decide))
  obtain ⟨q, hq, hdom⟩ := hearliest.2 _ hposition
  cases hq
  exact ⟨_, rfl, hposition, hdom, haccepted, hneeds, hused,
    (placed_earliest_above_uses g).2 haccepted 6 _ 5 rfl rfl hposition 5 hneeds 8 8 hused (hreached 8 (by decide))⟩

/-- A constant that is protected in one arm and returned from the other is accepted: its guard does not dominate
its use. -/
theorem constant_used_above_its_guard :
    let g : Graph :=
      ⟨#[{ kind := .start, successors := [4] }, { kind := .parameter 0, stamp := .int .full },
        { kind := .constant (.int 10), stamp := .int (.constant 10) },
        { kind := .compare .lt, inputs := [1, 2], stamp := .logic },
        { kind := .branch, inputs := [3], predecessors := [0], successors := [5, 6] },
        { kind := .begin, predecessors := [4], successors := [7] },
        { kind := .begin, predecessors := [4], successors := [9] },
        { kind := .ret, predecessors := [5] },
        { kind := .constant (.int 9), guard := some 5, stamp := .int (.constant 9) },
        { kind := .ret, inputs := [8], predecessors := [6] }], .root⟩
    g.checkStructure = .ok () ∧ g.checkPlacement = .ok () ∧ g.guardPosition? 5 = some 5 ∧
      UsedAt g 9 8 9 ∧ g.Reach 9 ∧ ¬g.Dom 5 9 := by
  intro g
  refine ⟨by decide +kernel, by decide +kernel, by decide +kernel, ?_, ?_, ?_⟩
  · exact .plain (n := { kind := .ret, inputs := [8], predecessors := [6] }) rfl (by decide) (by decide)
      (by decide +kernel)
  · exact isReachable_iff.mp (by decide +kernel)
  · rw [← dominates_iff]
    decide +kernel

end Graph

end GuardElision
