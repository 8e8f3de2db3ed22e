import GuardElision.Proofs.Graph.Links

namespace GuardElision

namespace Graph

/-- The nodes that control passes on a way from the start, the last first. -/
inductive ControlPath (g : Graph) : NodeId → List NodeId → Prop where
  | start : ControlPath g Graph.start [Graph.start]
  | next {c s : NodeId} {n : Node} {p : List NodeId} : ControlPath g c p → g.get? c = some n →
      n.kind.isControl = true → s ∈ n.successors → ControlPath g s (s :: p)

/-- Every loop end that is reached is dominated by its header. -/
def HeadersDominate (g : Graph) : Prop :=
  ∀ e n, g.get? e = some n → n.kind = .loopEnd → g.dominators.isReachable e = true →
    ∀ s ∈ n.successors, g.dominators.dominates s e = true

variable {g : Graph} {a b : NodeId} {p : List NodeId}

/-- A forward path is a control path. -/
theorem controlPath_of_path (hp : g.forwardFlow.Path start b p) : g.ControlPath b p := by
  induction hp with
  | nil _ => exact .start
  | snoc _ hs _ ih =>
    obtain ⟨n, hn, hk, _, hmem, _⟩ := mem_forwardSuccessors.mp hs
    exact ih.next hn hk hmem

/-- What a control path does not pass can be avoided on a forward path with the same end. -/
theorem ControlPath.avoids (haccepted : g.checkStructure = .ok ()) (hheaders : g.HeadersDominate)
    (hsize : Graph.start < g.capacity) (h : g.ControlPath b p) (ha : a ∉ p) :
    g.forwardFlow.Avoids Graph.start a b := by
  induction h with
  | start => exact ⟨[Graph.start], .nil hsize, ha⟩
  | @next c s n p h hn hk hs ih =>
    obtain ⟨hne, hp⟩ := not_or.mp (mt List.mem_cons.mpr ha)
    have hbefore := ih hp
    by_cases hl : n.kind = .loopEnd
    · have hreached := (g.forwardFlow.dominators_isReachable Graph.start c).mpr hbefore.reaches
      have hd := hheaders c n hn hl hreached s hs
      exact hbefore.dominator ((g.forwardFlow.dominators_dominates Graph.start s c).mp hd)
    · obtain ⟨m, hm⟩ := successor_live haccepted hn hs
      have hstep : g.Step c s := ⟨n, hn, hk, hl, hs, m, hm⟩
      exact hbefore.snoc (mem_forwardSuccessors.mpr hstep) hstep.lt (Ne.symm hne)

/-- In a graph that the check accepts, where headers dominate their loop ends, the dominators of a
reachable node are what every control path to it passes. -/
theorem dominates_iff_on_every_path (haccepted : g.checkStructure = .ok ()) (hheaders : g.HeadersDominate)
    (hb : g.dominators.isReachable b = true) :
    g.dominators.dominates a b = true ↔ ∀ p, g.ControlPath b p → a ∈ p := by
  have hreach := (g.forwardFlow.dominators_isReachable Graph.start b).mp hb
  refine (g.forwardFlow.dominators_dominates Graph.start a b).trans ⟨fun hd p hp => ?_, fun h => ?_⟩
  · by_contra hap
    exact hd.not_avoids (hp.avoids haccepted hheaders (Reach.start_lt hreach) hap)
  · exact ⟨hreach, fun p hp => h p (controlPath_of_path hp)⟩

/-- A loop that is left from its header: the header dominates what comes behind it. -/
theorem dominates_iff_on_every_path_loop :
    let g : Graph :=
      ⟨#[{ kind := .start, successors := [2] }, { kind := .parameter 0, stamp := .logic },
        { kind := .loopBegin, predecessors := [0, 6], successors := [3] },
        { kind := .branch, inputs := [1], predecessors := [2], successors := [4, 5] },
        { kind := .begin, predecessors := [3], successors := [6] },
        { kind := .begin, predecessors := [3], successors := [7] },
        { kind := .loopEnd, predecessors := [4], successors := [2] }, { kind := .ret, predecessors := [5] }], .root⟩
    g.checkStructure = .ok () ∧ g.HeadersDominate ∧ g.dominators.isReachable 7 = true ∧
      (g.dominators.dominates 2 7 = true ↔ ∀ p, g.ControlPath 7 p → 2 ∈ p) := by
  intro g
  have haccepted : g.checkStructure = .ok () := by decide +kernel
  have hheaders : g.HeadersDominate := by
    intro e n hn hl _ s hs
    have honly : ∀ e < 8, g.kind? e = some .loopEnd → e = 6 := by decide +kernel
    obtain rfl := honly e (lt_capacity hn) (kind?_eq_some_iff.mpr ⟨n, hn, hl⟩)
    obtain rfl := Option.some.inj hn
    obtain rfl := List.mem_singleton.mp hs
    decide +kernel
  have hreached : g.dominators.isReachable 7 = true := by decide +kernel
  exact ⟨haccepted, hheaders, hreached, dominates_iff_on_every_path haccepted hheaders hreached⟩

end Graph

end GuardElision
