import GuardElision.Graph.Structure
import GuardElision.Proofs.Attempt
import GuardElision.Proofs.Graph.Reach

namespace GuardElision

theorem except_forM_ok {α : Type} {as : List α} {f : α → Except Fault PUnit} {u : PUnit} (h : as.forM f = .ok u) :
    ∀ a ∈ as, f a = .ok () := by
  induction as with
  | nil => simp
  | cons a as ih =>
    obtain ⟨_, ha, h⟩ := except_bind_ok.mp h
    exact List.forall_mem_cons.mpr ⟨ha, ih h⟩

theorem except_forM_of_forall {α : Type} {as : List α} {f : α → Except Fault PUnit} (h : ∀ a ∈ as, f a = .ok ()) :
    as.forM f = .ok () := by
  induction as with
  | nil => rfl
  | cons a as ih =>
    obtain ⟨ha, has⟩ := List.forall_mem_cons.mp h
    exact except_bind_ok.mpr ⟨(), ha, ih has⟩

namespace Graph

variable {g h : Graph} {c s u : NodeId} {m n : Node}

theorem Reach.start_lt (hc : g.Reach c) : Graph.start < g.capacity :=
  let ⟨_, hp⟩ := hc
  hp.source_lt

/-- Every control edge to a live node is recorded there as often. -/
structure Linked (g : Graph) : Prop where
  start : ∀ n, g.get? Graph.start = some n → n.kind = .start
  inside : ∀ u n, g.get? u = some n → ∀ s ∈ n.successors, s < g.capacity
  control : ∀ u n, g.get? u = some n → n.kind.isControl = true → ∀ s ∈ n.successors, ∀ m, g.get? s = some m →
    m.kind.isControl = true
  recorded : ∀ u n, g.get? u = some n → n.kind.isControl = true → ∀ s m, g.get? s = some m →
    n.successors.count s ≤ m.predecessors.count u
  branch : ∀ u n, g.get? u = some n → n.kind = .branch → n.predecessors.length ≤ 1

/-- Control edges are recorded at both ends. -/
theorem Shaped.linked (H : g.Shaped)
    (hloose : ∀ x n, g.get? x = some n → n.kind.isControl = false → n.successors = []) : g.Linked := by
  refine ⟨fun n hn => ?_, fun c n hn s hs => ?_, fun c n hn hk s hs m hm => ?_, fun c n hn hk s m hm => ?_,
    fun c n hn hk => ?_⟩
  · obtain ⟨m, hm, hk, _⟩ := H.start
    cases hn.symm.trans hm
    exact hk
  · by_cases hk : n.kind.isControl = true
    · exact H.successor_lt hn hk hs
    · simp [hloose c n hn (by simpa using hk)] at hs
  · rcases H.succ c n hn hk s hs with ⟨l, hl, hlc, _⟩ | ⟨_, _, hnone⟩
    · cases hm.symm.trans hl
      exact hlc
    · cases hnone.symm.trans hm
  · by_cases hs : s ∈ n.successors
    · rcases H.succ c n hn hk s hs with ⟨l, hl, _, hmem⟩ | ⟨_, _, hnone⟩
      · cases hm.symm.trans hl
        have hone := List.nodup_iff_count_le_one.mp (H.nodup_successors hn hk) s
        have hpos := List.count_pos_iff.mpr hmem
        omega
      · cases hnone.symm.trans hm
    · rw [List.count_eq_zero_of_not_mem hs]
      exact Nat.zero_le _
  · exact H.join c n hn (by simp [hk, Kind.isControl]) (by simp [hk, Kind.isMerge])

section Checked

variable (haccepted : g.checkStructure = .ok ()) (hn : g.get? u = some n)

include haccepted hn

theorem node_checked : g.checkDependencies u n = .ok () ∧
    (n.kind.isControl = true →
      g.checkEdges u n = .ok () ∧ g.checkSuccessors u n = .ok () ∧ g.checkPredecessors u n = .ok ()) ∧
    (n.kind.isControl = false → g.checkFloating u n = .ok ()) := by
  obtain ⟨_, hnodes, _⟩ := except_bind_ok.mp haccepted
  obtain ⟨n', hn', hcheck⟩ := except_bind_ok.mp (except_forM_ok hnodes u (mem_select.mpr ⟨n, hn, rfl⟩))
  cases hn.symm.trans (node_eq_ok_iff.mp hn')
  obtain ⟨_, hdeps, hcheck⟩ := except_bind_ok.mp hcheck
  refine ⟨hdeps, fun hk => ?_, fun hk => ?_⟩
  · rw [if_pos hk] at hcheck
    obtain ⟨_, hedges, hcheck⟩ := except_bind_ok.mp hcheck
    obtain ⟨_, hsuccessors, hpredecessors⟩ := except_bind_ok.mp hcheck
    exact ⟨hedges, hsuccessors, hpredecessors⟩
  · rwa [if_neg (by simp [hk])] at hcheck

theorem edges_checked (hk : n.kind.isControl = true) : g.checkEdges u n = .ok () :=
  ((node_checked haccepted hn).2.1 hk).1

theorem successors_checked (hk : n.kind.isControl = true) : g.checkSuccessors u n = .ok () :=
  ((node_checked haccepted hn).2.1 hk).2.1

theorem predecessors_checked (hk : n.kind.isControl = true) : g.checkPredecessors u n = .ok () :=
  ((node_checked haccepted hn).2.1 hk).2.2

theorem successor_live (hs : s ∈ n.successors) : ∃ m, g.get? s = some m := by
  obtain ⟨_, _, hlive⟩ := except_bind_ok.mp (node_checked haccepted hn).1
  exact isLive_iff.mp (ensure_ok.mp (except_forM_ok hlive s hs))

theorem successor_recorded (hk : n.kind.isControl = true) (hs : s ∈ n.successors) (hm : g.get? s = some m) :
    m.kind.isControl = true ∧ n.successors.count s = m.predecessors.count u := by
  obtain ⟨_, hsucc, _⟩ := except_bind_ok.mp (edges_checked haccepted hn hk)
  obtain ⟨m', hm', hs⟩ := except_bind_ok.mp (except_forM_ok hsucc s hs)
  cases hm.symm.trans (node_eq_ok_iff.mp hm')
  obtain ⟨_, hcontrol, hcount⟩ := except_bind_ok.mp hs
  exact ⟨ensure_ok.mp hcontrol, of_decide_eq_true (ensure_ok.mp hcount)⟩

theorem guard_isAnchor (hk : n.kind.isGuard = true) :
    ∃ a m, n.anchor = some a ∧ g.get? a = some m ∧ m.kind.isAnchor = true := by
  have hcheck := (node_checked haccepted hn).2.2 (Kind.isControl_of_isGuard hk)
  unfold checkFloating at hcheck
  cases hkind : n.kind with
  | guard negated reason =>
    simp only [hkind] at hcheck
    obtain ⟨_, _, hcheck⟩ := except_bind_ok.mp hcheck
    obtain ⟨_, _, hcheck⟩ := except_bind_ok.mp hcheck
    obtain ⟨a, ha, hcheck⟩ := except_bind_ok.mp hcheck
    have hanchor : (g.kind? a).any (·.isAnchor) = true := ensure_ok.mp hcheck
    cases hm : g.get? a with
    | none => simp [kind?, hm] at hanchor
    | some m =>
      exact ⟨a, m, expect_ok.mp ha, hm, by simpa [kind?, hm] using hanchor⟩
  | _ => simp [hkind, Kind.isGuard] at hk

theorem guard_anchor (hk : n.kind.isGuard = true) :
    ∃ a m, n.anchor = some a ∧ g.get? a = some m ∧ m.kind.isControl = true := by
  obtain ⟨a, m, ha, hm, hisAnchor⟩ := guard_isAnchor haccepted hn hk
  exact ⟨a, m, ha, hm, Kind.isControl_of_isAnchor hisAnchor⟩

theorem successor_of_predecessor (hk : n.kind.isControl = true) {p : NodeId} (hp : p ∈ n.predecessors) :
    ∃ m, g.get? p = some m ∧ u ∈ m.successors := by
  obtain ⟨_, _, hpred⟩ := except_bind_ok.mp (edges_checked haccepted hn hk)
  obtain ⟨m, hm, hs⟩ := except_bind_ok.mp (except_forM_ok hpred p hp)
  exact ⟨m, node_eq_ok_iff.mp hm, List.contains_iff_mem.mp (ensure_ok.mp hs)⟩

theorem phi_merge (hk : n.kind = .phi) :
    ∃ a m, n.anchor = some a ∧ g.get? a = some m ∧ m.kind.isMerge = true ∧ n.inputs.length = m.predecessors.length := by
  have hcheck := (node_checked haccepted hn).2.2 (by rw [hk]; rfl)
  simp only [checkFloating, hk] at hcheck
  obtain ⟨a, ha, hcheck⟩ := except_bind_ok.mp hcheck
  obtain ⟨m, hm, hcheck⟩ := except_bind_ok.mp hcheck
  have hboth := ensure_ok.mp hcheck
  rw [Bool.and_eq_true, decide_eq_true_iff] at hboth
  exact ⟨a, m, expect_ok.mp ha, node_eq_ok_iff.mp hm, hboth⟩

theorem predecessors_of_start (hk : n.kind = .start) : n.predecessors = [] := by
  have hcheck := successors_checked haccepted hn (by rw [hk]; rfl)
  simp only [checkSuccessors, hk] at hcheck
  obtain ⟨_, hempty, _⟩ := except_bind_ok.mp hcheck
  exact List.isEmpty_iff.mp (ensure_ok.mp hempty)

theorem predecessors_of_straight (hk : n.kind.isControl = true) (hm : n.kind.isMerge = false) :
    n.predecessors.length ≤ 1 := by
  by_cases hstart : n.kind = .start
  · simp [predecessors_of_start haccepted hn hstart]
  · have hcheck := predecessors_checked haccepted hn hk
    unfold checkPredecessors at hcheck
    cases hkind : n.kind with
    | begin | branch | invoke | loopEnd | ret | deoptimize =>
      simp only [hkind] at hcheck
      exact Nat.le_of_eq (of_decide_eq_true (ensure_ok.mp hcheck))
    | start => exact absurd hkind hstart
    | merge | loopBegin => simp [hkind, Kind.isMerge] at hm
    | _ => simp [hkind, Kind.isControl] at hk

end Checked

theorem linked_of_checkStructure (hstart : ∀ n, g.get? Graph.start = some n → n.kind = .start)
    (haccepted : g.checkStructure = .ok ()) : g.Linked := by
  refine ⟨hstart, fun u n hn s hs => ?_, fun u n hn hk s hs m hm => ?_, fun u n hn hk s m hm => ?_, fun u n hn hk => ?_⟩
  · obtain ⟨m, hm⟩ := successor_live haccepted hn hs
    exact lt_capacity hm
  · exact (successor_recorded haccepted hn hk hs hm).1
  · by_cases hs : s ∈ n.successors
    · exact Nat.le_of_eq (successor_recorded haccepted hn hk hs hm).2
    · simp [List.count_eq_zero_of_not_mem hs]
  · exact predecessors_of_straight haccepted hn (by simp [hk, Kind.isControl]) (by simp [hk, Kind.isMerge])

namespace Linked

variable (H : g.Linked)

include H

theorem mem_predecessors (hs : g.Step u c) (hn : g.get? c = some n) : u ∈ n.predecessors := by
  obtain ⟨m, hm, hk, _, hmem, _⟩ := hs
  have hcount := H.recorded u m hm hk c n hn
  exact List.count_pos_iff.mp (Nat.lt_of_lt_of_le (List.count_pos_iff.mpr hmem) hcount)

theorem isControl (hr : g.Reach c) (hn : g.get? c = some n) : n.kind.isControl = true := by
  by_cases hc : c = Graph.start
  · rw [H.start n (hc ▸ hn)]
    rfl
  · obtain ⟨p, _, m, hm, hk, _, hmem, _⟩ := hr.exists_step hc
    exact H.control p m hm hk c hmem n hn

theorem not_reach (hn : g.get? c = some n) (hk : n.kind ≠ .start) (hpred : ∀ p, g.Step p c → p ∉ n.predecessors) :
    ¬g.Reach c := by
  intro hr
  have hc : c ≠ Graph.start := fun hc => hk (H.start n (hc ▸ hn))
  obtain ⟨p, _, hs⟩ := hr.exists_step hc
  exact hpred p hs (H.mem_predecessors hs hn)

theorem predecessors_eq (hu : g.get? u = some m) (hk : m.kind.isControl = true) (hs : s ∈ m.successors)
    (hn : g.get? s = some n) (hb : n.kind = .branch) : n.predecessors = [u] := by
  have hmem : u ∈ n.predecessors := by
    have hcount := H.recorded u m hu hk s n hn
    exact List.count_pos_iff.mp (Nat.lt_of_lt_of_le (List.count_pos_iff.mpr hs) hcount)
  exact eq_singleton_of_mem (H.branch s n hn hb) hmem

end Linked

theorem forwardSuccessors_of_not_control (hc : ∀ n, g.get? c = some n → n.kind.isControl = false) :
    g.forwardSuccessors c = [] := by
  unfold forwardSuccessors
  cases hn : g.get? c with
  | none => rfl
  | some n => simp [hc n hn]

/-- The same control nodes give the same flow, if control leads to control nodes only. -/
theorem SameControl.forwardFlow_eq (C : SameControl g h) (H : g.Linked) : h.forwardFlow = g.forwardFlow := by
  have hsucc : h.forwardSuccessors = g.forwardSuccessors := by
    funext c
    by_cases hc : ∃ m, g.get? c = some m ∧ m.kind.isControl = true
    · obtain ⟨m, hm, hk⟩ := hc
      obtain ⟨n, hn, hkind, -, hsucc, -⟩ := C.forth c m hm hk
      have hlive : ∀ s ∈ m.successors, h.isLive s = g.isLive s := by
        intro s hs
        rw [Bool.eq_iff_iff, isLive_iff, isLive_iff]
        constructor
        · rintro ⟨l, hl⟩
          exact C.live s l hl
        · rintro ⟨l, hl⟩
          obtain ⟨l', hl', -⟩ := C.forth s l hl (H.control c m hm hk s hs l hl)
          exact ⟨l', hl'⟩
      simp only [forwardSuccessors, hm, hn, hkind, hsucc, List.filter_congr hlive]
    · have hg : ∀ n, g.get? c = some n → n.kind.isControl = false := fun n hn =>
        Bool.eq_false_iff.mpr fun hk => hc ⟨n, hn, hk⟩
      rw [forwardSuccessors_of_not_control hg]
      refine forwardSuccessors_of_not_control fun n hn => Bool.eq_false_iff.mpr fun hk => ?_
      obtain ⟨m, hm, hkind, -⟩ := C.back c n hn hk
      exact hc ⟨m, hm, hkind ▸ hk⟩
  unfold forwardFlow
  rw [C.capacity, hsucc]

/-- A kind may give way to another that plays the same part in control flow. -/
structure SameSort (k l : Kind) : Prop where
  control : l.isControl = k.isControl
  loopEnd : l = .loopEnd ↔ k = .loopEnd
  branch : l = .branch → k = .branch
  start : l = .start ↔ k = .start
  guard : l.isGuard = k.isGuard

theorem SameSort.refl (k : Kind) : SameSort k k :=
  ⟨rfl, Iff.rfl, id, Iff.rfl, rfl⟩

theorem SameSort.trans {k l j : Kind} (h : SameSort k l) (h' : SameSort l j) : SameSort k j :=
  ⟨h'.control.trans h.control, h'.loopEnd.trans h.loopEnd, h.branch ∘ h'.branch, h'.start.trans h.start,
    h'.guard.trans h.guard⟩

/-- Nodes may be gone, but those left have their edges. -/
structure Lighter (g h : Graph) : Prop where
  capacity : h.capacity = g.capacity
  node : ∀ j n, h.get? j = some n → ∃ m, g.get? j = some m ∧ SameSort m.kind n.kind ∧ n.anchor = m.anchor ∧
    n.successors = m.successors ∧ n.predecessors = m.predecessors

/-- Like that, and no control node is gone. -/
structure Aside (g h : Graph) : Prop extends Lighter g h where
  alive : ∀ c m, g.get? c = some m → m.kind.isControl = true → ∃ n, h.get? c = some n

theorem Linked.lighter (H : g.Linked) (L : Lighter g h) : h.Linked := by
  refine ⟨fun n hn => ?_, fun u n hn s hs => ?_, fun u n hn hk s hs m hm => ?_, fun u n hn hk s m hm => ?_,
    fun u n hn hk => ?_⟩
  · obtain ⟨m, hm, hsort, _⟩ := L.node _ n hn
    exact hsort.start.mpr (H.start m hm)
  · obtain ⟨m, hm, _, _, hsucc, _⟩ := L.node u n hn
    exact L.capacity ▸ H.inside u m hm s (hsucc ▸ hs)
  · obtain ⟨n', hn', hsort, _, hsucc, _⟩ := L.node u n hn
    obtain ⟨m', hm', hsort', _⟩ := L.node s m hm
    exact hsort'.control.trans (H.control u n' hn' (hsort.control ▸ hk) s (hsucc ▸ hs) m' hm')
  · obtain ⟨n', hn', hsort, _, hsucc, _⟩ := L.node u n hn
    obtain ⟨m', hm', _, _, _, hpred⟩ := L.node s m hm
    rw [hsucc, hpred]
    exact H.recorded u n' hn' (hsort.control ▸ hk) s m' hm'
  · obtain ⟨m, hm, hsort, _, _, hpred⟩ := L.node u n hn
    exact hpred ▸ H.branch u m hm (hsort.branch hk)

theorem Lighter.trans {k : Graph} (L : Lighter g h) (L' : Lighter h k) : Lighter g k := by
  refine ⟨L'.capacity.trans L.capacity, fun j n hn => ?_⟩
  obtain ⟨m, hm, hsort, hanchor, hsucc, hpred⟩ := L'.node j n hn
  obtain ⟨l, hl, hsort', hanchor', hsucc', hpred'⟩ := L.node j m hm
  exact ⟨l, hl, hsort'.trans hsort, hanchor.trans hanchor', hsucc.trans hsucc', hpred.trans hpred'⟩

theorem Lighter.step (L : Lighter g h) (hs : h.Step c s) : g.Step c s := by
  obtain ⟨n, hn, hk, hl, hmem, k, hk'⟩ := hs
  obtain ⟨m, hm, hsort, _, hsucc, _⟩ := L.node c n hn
  obtain ⟨k', hk', _⟩ := L.node s k hk'
  exact ⟨m, hm, hsort.control ▸ hk, fun he => hl (hsort.loopEnd.mpr he), hsucc ▸ hmem, k', hk'⟩

theorem Aside.refl (g : Graph) : Aside g g :=
  ⟨⟨rfl, fun _ n hn => ⟨n, hn, .refl _, rfl, rfl, rfl⟩⟩, fun _ m hm _ => ⟨m, hm⟩⟩

theorem Aside.trans {k : Graph} (A : Aside g h) (A' : Aside h k) : Aside g k := by
  refine ⟨A.toLighter.trans A'.toLighter, fun c m hm hk => ?_⟩
  obtain ⟨n, hn⟩ := A.alive c m hm hk
  obtain ⟨m', hm', hsort, _⟩ := A.node c n hn
  cases hm.symm.trans hm'
  exact A'.alive c n hn (hsort.control.trans hk)

/-- Nodes that change in place and keep their part in control flow. -/
theorem Aside.of_map {f : NodeId → Node → Node} (hcap : h.capacity = g.capacity)
    (hview : ∀ j, h.get? j = (g.get? j).map (f j))
    (hf : ∀ j m, g.get? j = some m → SameSort m.kind (f j m).kind ∧ (f j m).anchor = m.anchor ∧
      (f j m).successors = m.successors ∧ (f j m).predecessors = m.predecessors) : Aside g h := by
  refine ⟨⟨hcap, fun j n hn => ?_⟩, fun c m hm _ => ⟨f c m, by rw [hview, hm]; rfl⟩⟩
  rw [hview] at hn
  obtain ⟨m, hm, rfl⟩ := Option.map_eq_some_iff.mp hn
  exact ⟨m, hm, hf j m hm⟩

theorem Lighter.foldl_delete (ids : List NodeId) (g : Graph) : Lighter g (ids.foldl delete g) := by
  refine ⟨capacity_foldl_delete ids g, fun j n hn => ?_⟩
  rw [get?_foldl_delete] at hn
  split at hn
  · cases hn
  · exact ⟨n, hn, .refl _, rfl, rfl, rfl⟩

theorem Aside.foldl_delete {ids : List NodeId} (hids : ∀ id ∈ ids, ∀ n, g.get? id = some n → n.kind.isControl = false) :
    Aside g (ids.foldl delete g) := by
  refine ⟨.foldl_delete ids g, fun c m hm hk => ⟨m, ?_⟩⟩
  rw [get?_foldl_delete, if_neg, hm]
  intro hc
  rw [hids c hc m hm] at hk
  cases hk

theorem Aside.delete {id : NodeId} (hid : ∀ n, g.get? id = some n → n.kind.isControl = false) :
    Aside g (g.delete id) := by
  change Aside g ([id].foldl Graph.delete g)
  exact .foldl_delete (by simpa using hid)

theorem Aside.replaceGuard (g : Graph) (old : NodeId) (new : Option NodeId) : Aside g (g.replaceGuard old new) :=
  .of_map (capacity_mapLive ..) (get?_replaceGuard g old new) fun _ _ _ => ⟨.refl _, rfl, rfl, rfl⟩

theorem Aside.replaceInput (g : Graph) (old new : NodeId) : Aside g (g.replaceInput old new) :=
  .of_map (capacity_mapLive ..) (get?_replaceInput g old new) fun _ _ _ => ⟨.refl _, rfl, rfl, rfl⟩

theorem Aside.replaceMemory (g : Graph) (old new : NodeId) : Aside g (g.replaceMemory old new) :=
  .of_map (capacity_mapLive ..) (get?_replaceMemory g old new) fun _ _ _ => ⟨.refl _, rfl, rfl, rfl⟩

theorem Aside.setKind {id : NodeId} {kind : Kind} {inputs : List NodeId}
    (hsort : ∀ n, g.get? id = some n → SameSort n.kind kind) : Aside g (g.setKind id kind inputs) := by
  refine .of_map (capacity_modify ..) (get?_setKind g id · kind inputs) fun j m hm => ?_
  split
  next hj => exact ⟨hsort m (hj ▸ hm), rfl, rfl, rfl⟩
  next => exact ⟨.refl _, rfl, rfl, rfl⟩

/-- Every guard of `h` was one in `g`. -/
def NoNewGuard (g h : Graph) : Prop :=
  ∀ q n, h.get? q = some n → n.kind.isGuard = true → ∃ m, g.get? q = some m ∧ m.kind.isGuard = true

theorem NoNewGuard.refl (g : Graph) : NoNewGuard g g :=
  fun _ n hn hg => ⟨n, hn, hg⟩

theorem NoNewGuard.trans {k : Graph} (N : NoNewGuard g h) (N' : NoNewGuard h k) : NoNewGuard g k := by
  intro q n hn hg
  obtain ⟨m, hm, hg⟩ := N' q n hn hg
  exact N q m hm hg

/-- From every node that is reached, control goes on as before. -/
structure SameFlow (g h : Graph) : Prop where
  capacity : h.capacity = g.capacity
  start : ∀ n, g.get? Graph.start = some n → ∃ m, h.get? Graph.start = some m
  step : ∀ c, g.Reach c → ∀ s, h.Step c s ↔ g.Step c s
  guard : NoNewGuard g h

namespace SameFlow

theorem refl (g : Graph) : SameFlow g g :=
  ⟨rfl, fun n hn => ⟨n, hn⟩, fun _ _ _ => Iff.rfl, .refl g⟩

variable (S : SameFlow g h)

include S

theorem reach (hc : g.Reach c) : h.Reach c :=
  hc.induct (P := h.Reach) (.start (S.capacity ▸ hc.start_lt)) fun a b ha hr hs =>
    hr.step ((S.step a ha b).mpr hs)

theorem reach_iff : h.Reach c ↔ g.Reach c := by
  refine ⟨fun hc => ?_, S.reach⟩
  refine hc.induct (P := g.Reach) (.start (S.capacity ▸ hc.start_lt)) fun a b _ hr hs => ?_
  exact hr.step ((S.step a hr b).mp hs)

theorem dom {a b : NodeId} (hd : g.Dom a b) : h.Dom a b := by
  refine hd.of_sub (hd.reach.start_lt) (fun c s hc hs _ => ?_) (S.reach hd.reach)
  have hc' := S.reach_iff.mp hc
  exact ⟨hc'.lt, (S.step c hc' s).mp hs⟩

theorem trans {k : Graph} (S' : SameFlow h k) : SameFlow g k := by
  refine ⟨S'.capacity.trans S.capacity, fun n hn => ?_, fun c hc s => ?_, S.guard.trans S'.guard⟩
  · obtain ⟨m, hm⟩ := S.start n hn
    exact S'.start m hm
  · exact (S'.step c (S.reach hc) s).trans (S.step c hc s)

end SameFlow

/-- Nodes that are not reached may go. -/
theorem Lighter.sameFlow (L : Lighter g h) (H : g.Linked)
    (hkeep : ∀ c n, g.get? c = some n → n.kind.isControl = true → g.Reach c → ∃ m, h.get? c = some m) :
    SameFlow g h := by
  have halive : ∀ c n, g.get? c = some n → g.Reach c → ∃ m, h.get? c = some m := fun c n hn hr =>
    hkeep c n hn (H.isControl hr hn) hr
  refine ⟨L.capacity, fun n hn => ?_, fun c hc s => ⟨L.step, fun hs => ?_⟩, fun q n hn hg => ?_⟩
  · exact halive _ n hn (.start (lt_capacity hn))
  · obtain ⟨n, hn, hk, hl, hmem, m, hm⟩ := id hs
    obtain ⟨n', hn'⟩ := halive c n hn hc
    obtain ⟨n'', hn'', hsort, _, hsucc, _⟩ := L.node c n' hn'
    cases hn.symm.trans hn''
    exact ⟨n', hn', hsort.control.trans hk, fun he => hl (hsort.loopEnd.mp he), hsucc ▸ hmem,
      halive s m hm (hc.step hs)⟩
  · obtain ⟨m, hm, hsort, _⟩ := L.node q n hn
    exact ⟨m, hm, hsort.guard ▸ hg⟩

theorem Aside.sameFlow (A : Aside g h) (H : g.Linked) : SameFlow g h :=
  A.toLighter.sameFlow H fun c n hn hk _ => A.alive c n hn hk

theorem Aside.step_iff (A : Aside g h) (H : g.Linked) : h.Step c s ↔ g.Step c s := by
  refine ⟨A.step, ?_⟩
  rintro ⟨n, hn, hk, hl, hmem, m, hm⟩
  obtain ⟨n', hn'⟩ := A.alive c n hn hk
  obtain ⟨n'', hn'', hsort, _, hsucc, _⟩ := A.node c n' hn'
  cases hn.symm.trans hn''
  exact ⟨n', hn', hsort.control.trans hk, fun he => hl (hsort.loopEnd.mp he), hsucc ▸ hmem,
    A.alive s m hm (H.control c n hn hk s hmem m hm)⟩

section WithoutEdge

variable {source target : NodeId} {index? : Option Nat} (hcap : h.capacity = g.capacity)
  (hview : ∀ j, h.get? j = (g.get? j).map (withoutEdge source target index? j))

include hview in
theorem exists_of_withoutEdge {j : NodeId} (hn : h.get? j = some n) :
    ∃ m, g.get? j = some m ∧ n = withoutEdge source target index? j m := by
  rw [hview] at hn
  obtain ⟨m, hm, rfl⟩ := Option.map_eq_some_iff.mp hn
  exact ⟨m, hm, rfl⟩

include hview in
theorem step_withoutEdge_iff (hc : c ≠ source) : h.Step c s ↔ g.Step c s := by
  have hlive : (∃ m, h.get? s = some m) ↔ ∃ m, g.get? s = some m := by simp [hview]
  constructor
  · rintro ⟨n, hn, hk, hl, hmem, hm⟩
    obtain ⟨n₀, hn₀, rfl⟩ := exists_of_withoutEdge hview hn
    exact ⟨n₀, hn₀, hk, hl, by simpa [withoutEdge, hc] using hmem, hlive.mp hm⟩
  · rintro ⟨n, hn, hk, hl, hmem, hm⟩
    have hn' : h.get? c = some (withoutEdge source target index? c n) := by rw [hview, hn]; rfl
    exact ⟨_, hn', hk, hl, by simpa [withoutEdge, hc] using hmem, hlive.mpr hm⟩

include hcap hview

theorem Linked.withoutEdge (H : g.Linked) : h.Linked := by
  refine ⟨fun n hn => ?_, fun u n hn s hs => ?_, fun u n hn hk s hs m hm => ?_, fun u n hn hk s m hm => ?_,
    fun u n hn hk => ?_⟩
  · obtain ⟨m, hm, rfl⟩ := exists_of_withoutEdge hview hn
    exact H.start m hm
  · obtain ⟨n₀, hn₀, rfl⟩ := exists_of_withoutEdge hview hn
    refine hcap ▸ H.inside u n₀ hn₀ s ?_
    simp only [Graph.withoutEdge] at hs
    split at hs
    · exact List.mem_of_mem_erase hs
    · exact hs
  · obtain ⟨n₀, hn₀, rfl⟩ := exists_of_withoutEdge hview hn
    obtain ⟨m₀, hm₀, rfl⟩ := exists_of_withoutEdge hview hm
    refine H.control u n₀ hn₀ hk s ?_ m₀ hm₀
    simp only [Graph.withoutEdge] at hs
    split at hs
    · exact List.mem_of_mem_erase hs
    · exact hs
  · obtain ⟨n₀, hn₀, rfl⟩ := exists_of_withoutEdge hview hn
    obtain ⟨m₀, hm₀, rfl⟩ := exists_of_withoutEdge hview hm
    have hcount := H.recorded u n₀ hn₀ hk s m₀ hm₀
    simp only [Graph.withoutEdge]
    split_ifs with hu hs hs
    · subst hu hs
      simp only [List.count_erase_self]
      omega
    · rwa [List.count_erase_of_ne hs]
    · rwa [List.count_erase_of_ne hu]
    · exact hcount
  · obtain ⟨n₀, hn₀, rfl⟩ := exists_of_withoutEdge hview hn
    refine Nat.le_trans ?_ (H.branch u n₀ hn₀ hk)
    simp only [Graph.withoutEdge]
    split
    · exact List.length_erase_le
    · exact Nat.le_refl _

theorem SameFlow.withoutEdge (hno : ¬g.Reach source) : SameFlow g h := by
  refine ⟨hcap, fun n hn => ⟨_, by rw [hview, hn]; rfl⟩, fun c hc s => ?_, fun q n hn hg => ?_⟩
  · exact step_withoutEdge_iff hview fun he => hno (he ▸ hc)
  · obtain ⟨m, hm, rfl⟩ := exists_of_withoutEdge hview hn
    exact ⟨m, hm, hg⟩

end WithoutEdge

end Graph

end GuardElision
