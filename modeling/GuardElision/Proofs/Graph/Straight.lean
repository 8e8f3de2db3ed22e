import GuardElision.Proofs.Execution.Fresh
import GuardElision.Proofs.Flow.Cycle
import GuardElision.Proofs.Graph.Links

namespace GuardElision

namespace Graph

/-- Control comes to `c`, which is not a merge, from `d`. -/
def Before (g : Graph) (d c : NodeId) : Prop :=
  ∃ n m, g.get? c = some n ∧ n.kind.isControl = true ∧ n.kind.isMerge = false ∧ d ∈ n.predecessors ∧
    g.get? d = some m ∧ m.kind.isControl = true

/-- Control leaves `d` only once `e` has been evaluated there. -/
def Asks (g : Graph) (d e : NodeId) : Prop :=
  (∃ n, g.get? d = some n ∧ n.kind = .branch ∧ n.inputs.head? = some e) ∨
    ∃ n q k, g.get? d = some n ∧ n.kind.isAnchor = true ∧ q ∈ g.guardsAt d ∧ g.get? q = some k ∧
      k.inputs.head? = some e

/-- When control comes to `c`, it has evaluated `e` since the last merge. -/
def AskedAbove (g : Graph) (c e : NodeId) : Prop :=
  ∃ d, Relation.TransGen g.Before d c ∧ g.Asks d e

/-- When control leaves `c`, it has evaluated `x` since the last merge, or may have on the way to what it
evaluated. -/
def AskedBy (g : Graph) (c x : NodeId) : Prop :=
  ∃ e, (g.AskedAbove c e ∨ g.Asks c e) ∧ Relation.ReflTransGen g.Takes e x

variable {g : Graph} {c d e s : NodeId} {n : Node}

theorem AskedBy.of_asks (h : g.Asks c e) : g.AskedBy c e :=
  ⟨e, Or.inr h, .refl⟩

theorem askedBy_closed (g : Graph) (c : NodeId) : ClosedUnderTakes g (g.AskedBy c) := by
  rintro x y ⟨e, he, hx⟩ hxy
  exact ⟨e, he, hx.tail hxy⟩

theorem inputsLive_of_checkStructure (haccepted : g.checkStructure = .ok ()) : g.InputsLive := by
  intro x n y hn hy
  obtain ⟨_, hdeps, _⟩ := except_bind_ok.mp (node_checked haccepted hn).1
  exact isLive_iff.mp (ensure_ok.mp (except_forM_ok hdeps y (Node.mem_dependencies.mpr (Or.inl hy))))

/-- Control goes on to control nodes, along edges that are recorded there. -/
theorem before_of_mem_successors (haccepted : g.checkStructure = .ok ()) (hn : g.get? c = some n)
    (hk : n.kind.isControl = true) (hs : s ∈ n.successors) :
    ∃ m, g.get? s = some m ∧ m.kind.isControl = true ∧ (m.kind.isMerge = false → g.Before c s) := by
  obtain ⟨m, hm⟩ := successor_live haccepted hn hs
  obtain ⟨hcontrol, hcount⟩ := successor_recorded haccepted hn hk hs hm
  have hpos : 0 < m.predecessors.count c := hcount ▸ List.count_pos_iff.mpr hs
  exact ⟨m, hm, hcontrol, fun hmerge => ⟨m, n, hm, hcontrol, hmerge, List.count_pos_iff.mp hpos, hn, hk⟩⟩

theorem Before.unique (haccepted : g.checkStructure = .ok ()) (h : g.Before c s) (h' : g.Before d s) : c = d := by
  obtain ⟨n, _, hn, hk, hmerge, hc, _⟩ := h
  obtain ⟨n', _, hn', _, _, hd, _⟩ := h'
  cases hn.symm.trans hn'
  rw [eq_singleton_of_mem (predecessors_of_straight haccepted hn hk hmerge) hc] at hd
  exact (List.mem_singleton.mp hd).symm

theorem AskedAbove.cases (haccepted : g.checkStructure = .ok ()) (hb : g.Before c s) (h : g.AskedAbove s e) :
    g.AskedAbove c e ∨ g.Asks c e := by
  obtain ⟨d, hd, he⟩ := h
  rcases Relation.TransGen.tail'_iff.mp hd with ⟨b, hdb, hbs⟩
  obtain rfl := hbs.unique haccepted hb
  rcases Relation.reflTransGen_iff_eq_or_transGen.mp hdb with rfl | hdb
  · exact Or.inr he
  · exact Or.inl ⟨d, hdb, he⟩

theorem not_askedAbove_of_merge (hn : g.get? c = some n) (hm : n.kind.isMerge = true) : ¬g.AskedAbove c e := by
  rintro ⟨d, hd, _⟩
  obtain ⟨b, _, n', _, hn', _, hmerge, _⟩ := Relation.TransGen.tail'_iff.mp hd
  cases hn.symm.trans hn'
  simp [hm] at hmerge

theorem loopEnd_successor (haccepted : g.checkStructure = .ok ()) (hn : g.get? c = some n) (hk : n.kind = .loopEnd)
    (hs : s ∈ n.successors) : g.kind? s = some .loopBegin := by
  have hcheck := successors_checked haccepted hn (by rw [hk]; rfl)
  simp only [checkSuccessors, hk] at hcheck
  have hboth := ensure_ok.mp hcheck
  rw [Bool.and_eq_true, decide_eq_true_iff, decide_eq_true_iff] at hboth
  obtain ⟨hone, hhead⟩ := hboth
  rw [eq_singleton_of_mem (Nat.le_of_eq hone) hs] at hhead
  exact hhead

theorem not_before_start (haccepted : g.checkStructure = .ok ())
    (hreach : ∀ c n, g.get? c = some n → n.kind.isControl = true → g.Reach c) : ¬g.Before d Graph.start := by
  rintro ⟨n, m, hn, hk, hmerge, hd, hm, hcontrol⟩
  obtain ⟨m', hm', hs⟩ := successor_of_predecessor haccepted hn hk hd
  cases hm.symm.trans hm'
  by_cases hend : m.kind = .loopEnd
  · obtain ⟨n', hn', hloop⟩ := kind?_eq_some_iff.mp (loopEnd_successor haccepted hm hend hs)
    cases hn.symm.trans hn'
    simp [hloop, Kind.isMerge] at hmerge
  · obtain ⟨_, _, hcycle⟩ := except_bind_ok.mp haccepted
    have hnone : g.forwardFlow.findCycle? start = none := by
      cases hfind : g.forwardFlow.findCycle? start with
      | none => rfl
      | some cycle => simp [hfind] at hcycle
    obtain ⟨rank, hrank⟩ := Digraph.exists_rank_of_findCycle? hnone
    have hback : rank d < rank Graph.start :=
      hrank d Graph.start (hreach d m hm hcontrol) (mem_forwardSuccessors.mpr ⟨m, hm, hcontrol, hend, hs, n, hn⟩)
        (lt_capacity hn)
    have hforth : rank Graph.start ≤ rank d := by
      refine (hreach d m hm hcontrol).induct (P := fun c => rank Graph.start ≤ rank c) (Nat.le_refl _) ?_
      intro a b ha hle hab
      exact hle.trans (Nat.le_of_lt (hrank a b ha (mem_forwardSuccessors.mpr hab) hab.lt))
    omega

theorem no_control_of_start (hreach : ∀ c n, g.get? c = some n → n.kind.isControl = true → g.Reach c)
    (hn : g.get? Graph.start = some n) (hk : n.kind.isControl = false) :
    ∀ c m, g.get? c = some m → m.kind.isControl = false := by
  intro c m hm
  by_contra hc
  have hstart : c = Graph.start := by
    refine (hreach c m hm (by simpa using hc)).induct (P := fun c => c = Graph.start) rfl ?_
    rintro a b _ rfl ⟨n', hn', hk', _⟩
    cases hn.symm.trans hn'
    simp [hk] at hk'
  subst hstart
  cases hn.symm.trans hm
  exact hc hk

end Graph

end GuardElision
