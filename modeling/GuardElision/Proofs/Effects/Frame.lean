import GuardElision.Proofs.Effects.Reports
import GuardElision.Proofs.Graph.Links

namespace GuardElision

namespace Graph

variable {g h : Graph}

/-- What a run on a graph may touch: control leads to no floating node, and traps have the reasons of
guards. -/
def extent (g : Graph) : Extent where
  base := g.capacity
  passes id := ∀ n, g.get? id = some n → n.kind.isControl = true
  reasons reason := ∃ id n negated, g.get? id = some n ∧ n.kind = .guard negated reason
  passes_new _ hid _ hn := absurd (lt_capacity hn) (Nat.not_lt.mpr hid)

theorem within_extent (haccepted : g.checkStructure = .ok ()) : g.Within g.extent := by
  refine ⟨Nat.le_refl _, fun id n hn hk m hm => ?_, fun id n hn hid s hs m hm => ?_, fun id n negated reason hn hk => ?_⟩
  · cases hn.symm.trans hm
    exact hk
  · exact (successor_recorded haccepted hn (hid n hn) hs hm).1
  · exact ⟨id, n, negated, hn, hk⟩

/-- What a graph has in common with what an elimination makes of it. -/
structure Frames (g h : Graph) : Prop where
  capacity : g.capacity ≤ h.capacity
  /-- A removed slot stays removed, and the others keep their stamps. -/
  slot : ∀ (id : NodeId) (n : Node), g.nodes[id]? = some n → ∃ m, h.nodes[id]? = some m ∧
    (n.removed = true → m.removed = true) ∧ m.stamp = n.stamp ∧ n.kind.MayBecome m.kind
  /-- What is added is a trap, for the reason of a guard. -/
  fresh : ∀ (id : NodeId) (m : Node), h.nodes[id]? = some m → g.capacity ≤ id → m.synthetic = true ∧
    ∃ guard n negated reason, g.get? guard = some n ∧ n.kind = .guard negated reason ∧ m.kind = .deoptimize reason
  parameter : ∀ id n index, g.get? id = some n → n.kind = .parameter index → n.dependencies = [] → h.isLive id = true

theorem MayBecome.frames (A : g.MayBecome g.extent h) : g.Frames h := by
  refine ⟨A.capacity_le, fun id n hn => ?_, fun id m hm hid => ?_, fun id n index hn hk hbare => ?_⟩
  · obtain ⟨m, hm, hnm⟩ := A.slot id n hn
    exact ⟨m, hm, hnm.removed, hnm.stamp, hnm.kind⟩
  · obtain ⟨hsynthetic, ⟨reason, ⟨guard, n, negated, hn, hk⟩, hreason⟩, _⟩ := A.fresh id m hm hid
    exact ⟨hsynthetic, guard, n, negated, reason, hn, hk, hreason⟩
  · obtain ⟨hslot, hlive⟩ := get?_eq_some_iff.mp hn
    obtain ⟨m, hm, hnm⟩ := A.slot id n hslot
    have hno : ¬g.extent.passes id := by
      intro hpasses
      have hcontrol := hpasses n hn
      rw [hk] at hcontrol
      cases hcontrol
    exact isLive_iff.mpr ⟨m, get?_eq_some_iff.mpr ⟨hm, (hnm.bare hno ⟨⟨index, hk⟩, hbare⟩).1.trans hlive⟩⟩

/-- One guard less. -/
theorem guardCount_of_removed {q : NodeId} {n : Node} (hn : g.get? q = some n) (hk : n.kind.isGuard = true)
    (hgone : h.get? q = none) (hcapacity : h.capacity = g.capacity)
    (hothers : ∀ j, j ≠ q → (h.get? j).any (·.kind.isGuard) = (g.get? j).any (·.kind.isGuard)) :
    h.guardCount + 1 = g.guardCount := by
  have hmem : q ∈ g.select (·.kind.isGuard) := mem_select.mpr ⟨n, hn, hk⟩
  have hnodup : (g.select (·.kind.isGuard)).Nodup := (select_sorted g _).imp Nat.ne_of_lt
  have hselect : h.select (·.kind.isGuard) = (g.select (·.kind.isGuard)).erase q := by
    rw [hnodup.erase_eq_filter, select, select, hcapacity, List.filter_filter]
    refine List.filter_congr fun j _ => ?_
    by_cases hj : j = q
    · simp [hj, hgone]
    · simp [hj, hothers j hj]
  have hlength := List.length_erase_of_mem hmem
  have hpos := List.length_pos_of_mem hmem
  change (h.select (·.kind.isGuard)).length + 1 = (g.select (·.kind.isGuard)).length
  rw [hselect, hlength]
  omega

end Graph

namespace Draft

variable {d d' d'' : Draft} {a b : Nat}

/-- Guards are gone and logged, and other nodes may be protected by something else. -/
structure Trimmed (d d' : Draft) (eliminated : Nat) : Prop where
  capacity : d'.graph.capacity = d.graph.capacity
  slot : ∀ (id : NodeId) (n : Node), d.graph.nodes[id]? = some n → n.kind.isGuard = false →
    ∃ guard, d'.graph.nodes[id]? = some { n with guard }
  count : d'.graph.guardCount + eliminated = d.graph.guardCount
  logged : ∃ events, d'.log.toList = d.log.toList ++ events ∧ events.length = eliminated ∧
    ∀ e ∈ events, e.kind = .guardEliminated

namespace Trimmed

theorem refl (d : Draft) : d.Trimmed d 0 :=
  ⟨rfl, fun _ n hn _ => ⟨n.guard, hn⟩, rfl, [], by simp, rfl, by simp⟩

theorem trans (h : d.Trimmed d' a) (h' : d'.Trimmed d'' b) : d.Trimmed d'' (a + b) := by
  refine ⟨h'.capacity.trans h.capacity, fun id n hn hk => ?_, ?_, ?_⟩
  · obtain ⟨guard, hn'⟩ := h.slot id n hn hk
    obtain ⟨guard', hn''⟩ := h'.slot id _ hn' hk
    exact ⟨guard', hn''⟩
  · have hcount := h.count
    have hcount' := h'.count
    omega
  · obtain ⟨events, hlog, hlength, hkind⟩ := h.logged
    obtain ⟨events', hlog', hlength', hkind'⟩ := h'.logged
    refine ⟨events ++ events', by rw [hlog', hlog, List.append_assoc], by rw [List.length_append, hlength, hlength'],
      fun e he => ?_⟩
    rcases List.mem_append.mp he with he | he
    · exact hkind e he
    · exact hkind' e he

/-- One guard goes. -/
theorem dropGuard {guard : NodeId} {n : Node} {e : Event} (hn : d.graph.get? guard = some n)
    (hk : n.kind.isGuard = true) (new : NodeId) (he : e.kind = .guardEliminated) :
    d.Trimmed ⟨(d.graph.replaceGuard guard (some new)).delete guard, d.log.record e⟩ 1 := by
  have hcapacity : ((d.graph.replaceGuard guard (some new)).delete guard).capacity = d.graph.capacity :=
    (Graph.capacity_delete ..).trans (Graph.capacity_mapLive ..)
  refine ⟨hcapacity, fun id m hm hother => ?_, ?_, [e], by simp, rfl, by simpa using he⟩
  · have hne : id ≠ guard := by
      rintro rfl
      cases hm.symm.trans (Graph.slot_of_get? hn)
      rw [hk] at hother
      cases hother
    rw [Graph.delete, Graph.slot_modify, if_neg hne, Graph.replaceGuard, Graph.slot_mapLive, hm, Option.map_some]
    split
    · exact ⟨m.guard, rfl⟩
    · split
      · exact ⟨some new, rfl⟩
      · exact ⟨m.guard, rfl⟩
  · refine Graph.guardCount_of_removed hn hk ?_ hcapacity fun j hj => ?_
    · rw [Graph.get?_dropGuard, if_pos rfl]
    · rw [Graph.get?_dropGuard, if_neg hj]
      cases d.graph.get? j <;> rfl

theorem setTest {guard : NodeId} {n : Node} {kind : Kind} {inputs : List NodeId} (hn : d.graph.get? guard = some n)
    (hk : n.kind.isGuard = true) (hkind : kind.isGuard = true) :
    d.Trimmed ⟨d.graph.setKind guard kind inputs, d.log⟩ 0 := by
  have hcapacity : (d.graph.setKind guard kind inputs).capacity = d.graph.capacity := Graph.capacity_modify ..
  refine ⟨hcapacity, fun id m hm hother => ⟨m.guard, ?_⟩, ?_, [], by simp, rfl, by simp⟩
  · rw [Graph.setKind, Graph.slot_modify, if_neg, hm]
    rintro rfl
    cases hm.symm.trans (Graph.slot_of_get? hn)
    rw [hk] at hother
    cases hother
  · have hselect : (d.graph.setKind guard kind inputs).select (·.kind.isGuard) = d.graph.select (·.kind.isGuard) := by
      rw [Graph.select, Graph.select, hcapacity]
      refine List.filter_congr fun j _ => ?_
      rw [Graph.get?_setKind]
      by_cases hj : j = guard
      · simp [hj, hn, hk, hkind]
      · simp [hj]
    exact congrArg List.length hselect

end Trimmed

end Draft

namespace Walk

variable {config : EliminationConfig} {E : Extent} {p q : Draft × Tally}

theorem Effect.trimmed (hconfig : config.changesControlFlow = false) (h : Effect config E p q) :
    ∃ a, p.1.Trimmed q.1 a ∧ q.2.guardsEliminated = p.2.guardsEliminated + a := by
  obtain ⟨hfolds, hstrengthens⟩ := Bool.or_eq_false_iff.mp hconfig
  cases h with
  | count => exact ⟨0, .refl _, rfl⟩
  | rebuild _ hyes => cases hconfig.symm.trans hyes
  | drop new hn hk he => exact ⟨1, .dropGuard hn hk new he, rfl⟩
  | @move d t carrier weaker n m negated negated' reason e h hn hk hm hk' hne hmove he =>
    refine ⟨1, ?_, rfl⟩
    obtain ⟨n', hn', hmove⟩ := except_bind_ok.mp hmove
    cases hn.symm.trans (Graph.node_eq_ok_iff.mp hn')
    obtain rfl := Except.ok.inj hmove
    have hcarrier : (d.graph.setKind weaker n.kind n.inputs).get? carrier = some n := by
      rw [Graph.get?_setKind, hn, Option.map_some, if_neg hne]
    have hguard : n.kind.isGuard = true := by rw [hk]; rfl
    exact (Draft.Trimmed.setTest hm (by rw [hk']; rfl) hguard).trans
      (.dropGuard (d := ⟨d.graph.setKind weaker n.kind n.inputs, d.log⟩) hcarrier hguard weaker he)
  | trap hyes => cases hstrengthens.symm.trans hyes
  | fold hyes => cases hfolds.symm.trans hyes

theorem Effects.trimmed (hconfig : config.changesControlFlow = false) (h : Effects config E p q) :
    ∃ a, p.1.Trimmed q.1 a ∧ q.2.guardsEliminated = p.2.guardsEliminated + a := by
  induction h with
  | refl => exact ⟨0, .refl _, rfl⟩
  | tail _ heffect ih =>
    obtain ⟨a, ht, hcount⟩ := ih
    obtain ⟨b, ht', hcount'⟩ := heffect.trimmed hconfig
    exact ⟨a + b, ht.trans ht', by omega⟩

end Walk

namespace Draft

/-- The frame of an elimination, and of one that only removes guards. -/
theorem eliminate_frame (config : EliminationConfig) (method : Option MethodId) {d d' : Draft} {tally : Tally}
    (haccepted : d.graph.checkStructure = .ok ()) (h : eliminate config method d = .ok tally d') :
    d.graph.Frames d'.graph ∧
      (config.foldBranches = false → config.strengthenGuards = false → config.finalCleanup = false →
        d.Trimmed d' tally.guardsEliminated) := by
  have W := Graph.within_extent haccepted
  refine ⟨(eliminate_mayBecome W h).1.frames, fun hfolds hstrengthens hcleanup => ?_⟩
  obtain ⟨t, d₁, hwalks, h⟩ := Attempt.bind_ok.mp h
  rw [hcleanup, if_neg (by simp)] at h
  obtain ⟨rfl, rfl⟩ := Attempt.pure_ok.mp h
  obtain ⟨a, ht, hcount⟩ := (walks_effects W hwalks).trimmed (Bool.or_eq_false_iff.mpr ⟨hfolds, hstrengthens⟩)
  have hcount : t.guardsEliminated = a := hcount.trans (Nat.zero_add a)
  exact hcount ▸ ht

/-- The first of three guards decides the others: the second goes, and the third, which always fails, becomes
a trap unless control flow must not change. -/
theorem eliminate_frame_trap :
    let g : Graph :=
      ⟨#[{ kind := .start, successors := [8] }, { kind := .parameter 0, stamp := .int .full },
        { kind := .constant (.int 10), stamp := .int (.constant 10) },
        { kind := .compare .lt, inputs := [1, 2], stamp := .logic },
        { kind := .guard false .boundsCheck, inputs := [3], anchor := some 0 },
        { kind := .guard false .unreached, inputs := [3], anchor := some 0 },
        { kind := .guard true .classCast, inputs := [3], anchor := some 8 },
        { kind := .pi, inputs := [1], guard := some 5, stamp := .int .full },
        { kind := .begin, predecessors := [0], successors := [9] },
        { kind := .ret, inputs := [7], predecessors := [8] }], .root⟩
    (∃ tally d', eliminate {} none ⟨g, {}⟩ = .ok tally d' ∧ tally.guardsStrengthened = 1 ∧ g.Frames d'.graph) ∧
    ∃ tally d', eliminate .guardsOnly none ⟨g, {}⟩ = .ok tally d' ∧ tally.guardsEliminated = 1 ∧
      (⟨g, {}⟩ : Draft).Trimmed d' 1 := by
  intro g
  have haccepted : g.checkStructure = .ok () := by decide +kernel
  constructor
  · have hcount : (eliminate {} none).result ⟨g, {}⟩ =
        .ok { guardsEliminated := 1, guardsStrengthened := 1, rebuilds := 1, walks := 2, nodesCanonicalized := 1 } := by
      decide +kernel
    obtain ⟨d', hrun⟩ := Attempt.result_eq_ok.mp hcount
    exact ⟨_, d', hrun, rfl, (eliminate_frame (d := ⟨g, {}⟩) {} none haccepted hrun).1⟩
  · have hcount : (eliminate .guardsOnly none).result ⟨g, {}⟩ = .ok { guardsEliminated := 1, walks := 1 } := by
      decide +kernel
    obtain ⟨d', hrun⟩ := Attempt.result_eq_ok.mp hcount
    exact ⟨_, d', hrun, rfl, (eliminate_frame (d := ⟨g, {}⟩) .guardsOnly none haccepted hrun).2 rfl rfl rfl⟩

end Draft

end GuardElision
