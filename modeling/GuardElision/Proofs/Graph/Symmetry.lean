import GuardElision.Proofs.Graph.Straight

namespace GuardElision

namespace Graph

/-- Edges to control nodes stand equally often in the lists of both ends. -/
def ArrivalsAgree (g : Graph) : Prop :=
  ∀ u v n m, g.get? u = some n → g.get? v = some m → m.kind.isControl = true →
    n.successors.count v = m.predecessors.count u

/-- Control comes from control nodes. -/
def ComesFromControl (g : Graph) : Prop :=
  ∀ v m, g.get? v = some m → m.kind.isControl = true → ∀ p ∈ m.predecessors, g.isControl p = true

/-- Forward flow to control nodes is the same in both directions. -/
def FlowAgrees (g : Graph) : Prop :=
  ∀ u v, g.isControl v = true → (g.forwardSuccessors u).count v = (g.liveForwardPredecessors v).count u

/-- No floating node leads to a control node. -/
def FloatsApart (g : Graph) : Prop :=
  ∀ x n, g.get? x = some n → n.kind.isControl = false → ∀ s ∈ n.successors, g.isControl s = false

variable {g : Graph} {u v : NodeId} {n m : Node}

theorem exists_of_isControl (h : g.isControl v = true) : ∃ m, g.get? v = some m ∧ m.kind.isControl = true := by
  cases hm : g.get? v with
  | none => simp [isControl, kind?, hm] at h
  | some m => exact ⟨m, rfl, isControl_of_get? hm ▸ h⟩

theorem count_forwardSuccessors (hn : g.get? u = some n) (hm : g.get? v = some m) :
    (g.forwardSuccessors u).count v =
      if n.kind.isControl = true ∧ n.kind ≠ .loopEnd then n.successors.count v else 0 := by
  have hlive : g.isLive v = true := isLive_iff.mpr ⟨m, hm⟩
  simp only [forwardSuccessors, hn, Bool.and_eq_true, decide_eq_true_eq]
  split
  · exact List.count_filter hlive
  · rfl

theorem count_liveForwardPredecessors (hn : g.get? u = some n) (hm : g.get? v = some m) :
    (g.liveForwardPredecessors v).count u =
      if m.kind = .loopBegin ∧ n.kind = .loopEnd then 0 else m.predecessors.count u := by
  have hlive : g.isLive u = true := isLive_iff.mpr ⟨n, hn⟩
  simp only [liveForwardPredecessors, forwardPredecessors, hm]
  rw [List.count_filter hlive]
  split
  next hback =>
    refine List.count_eq_zero_of_not_mem fun hu => ?_
    have hforward := (List.mem_filter.mp hu).2
    simp [kind?, hn, hback] at hforward
  next hforward =>
    refine List.count_filter ?_
    simpa [kind?, hn, imp_iff_not_or] using hforward

section Accepted

variable (haccepted : g.checkStructure = .ok ())

include haccepted

/-- Successors are checked with their number, and of predecessors only that they list the edge at all. -/
theorem count_successors_eq (hn : g.get? u = some n) (hu : n.kind.isControl = true) (hm : g.get? v = some m)
    (hv : m.kind.isControl = true) : n.successors.count v = m.predecessors.count u := by
  by_cases hs : v ∈ n.successors
  · exact (successor_recorded haccepted hn hu hs hm).2
  · have hp : u ∉ m.predecessors := by
      intro hp
      obtain ⟨n', hn', hs'⟩ := successor_of_predecessor haccepted hm hv hp
      cases hn.symm.trans hn'
      exact hs hs'
    rw [List.count_eq_zero_of_not_mem hs, List.count_eq_zero_of_not_mem hp]

/-- Back edges are left out in both directions: those of loop ends, which lead to loop headers only. -/
theorem count_forward_eq (hn : g.get? u = some n) (hu : n.kind.isControl = true) (hm : g.get? v = some m)
    (hv : m.kind.isControl = true) : (g.forwardSuccessors u).count v = (g.liveForwardPredecessors v).count u := by
  rw [count_forwardSuccessors hn hm, count_liveForwardPredecessors hn hm]
  have hcount := count_successors_eq haccepted hn hu hm hv
  by_cases hend : n.kind = .loopEnd
  · by_cases hheader : m.kind = .loopBegin
    · simp [hend, hheader]
    · have hs : v ∉ n.successors := by
        intro hs
        obtain ⟨m', hm', hk⟩ := kind?_eq_some_iff.mp (loopEnd_successor haccepted hn hend hs)
        cases hm.symm.trans hm'
        exact hheader hk
      rw [List.count_eq_zero_of_not_mem hs] at hcount
      simp [hend, hheader, ← hcount]
  · simp [hu, hend, hcount]

theorem flowAgrees_iff : g.FlowAgrees ↔ g.ComesFromControl := by
  constructor
  · intro h v m hm hv p hp
    obtain ⟨n, hn, -⟩ := successor_of_predecessor haccepted hm hv hp
    by_contra hfloat
    rw [isControl_of_get? hn] at hfloat
    -- A floating predecessor is listed, since it is no loop end, but nothing is listed as its successor.
    have hend : n.kind ≠ .loopEnd := fun he => hfloat (by rw [he]; rfl)
    have hcount := h p v (isControl_of_get? hm ▸ hv)
    rw [count_forwardSuccessors hn hm, count_liveForwardPredecessors hn hm, if_neg (fun hk => hfloat hk.1),
      if_neg (fun hk => hend hk.2)] at hcount
    exact absurd (List.count_pos_iff.mpr hp) (by omega)
  · intro h u v hv
    obtain ⟨m, hm, hv⟩ := exists_of_isControl hv
    by_cases hu : g.isControl u = true
    · obtain ⟨n, hn, hu⟩ := exists_of_isControl hu
      exact count_forward_eq haccepted hn hu hm hv
    · have hnone : g.forwardSuccessors u = [] := forwardSuccessors_of_not_control fun n hn => by
        rw [← isControl_of_get? hn]
        simpa using hu
      rw [hnone, List.count_nil, eq_comm, List.count_eq_zero]
      intro hmem
      have hmem := (List.mem_filter.mp hmem).1
      simp only [forwardPredecessors, hm] at hmem
      exact hu (h v m hm hv u (List.mem_filter.mp hmem).1)

theorem floatsApart_iff : g.FloatsApart ↔ g.ArrivalsAgree ∧ g.ComesFromControl := by
  constructor
  · intro h
    have hcontrol : ∀ u v n, g.get? u = some n → g.isControl v = true → v ∈ n.successors → n.kind.isControl = true := by
      intro u v n hn hv hs
      by_contra hfloat
      rw [h u n hn (by simpa using hfloat) v hs] at hv
      cases hv
    have hcomes : g.ComesFromControl := by
      intro v m hm hv p hp
      obtain ⟨n, hn, hs⟩ := successor_of_predecessor haccepted hm hv hp
      rw [isControl_of_get? hn]
      exact hcontrol p v n hn (isControl_of_get? hm ▸ hv) hs
    refine ⟨fun u v n m hn hm hv => ?_, hcomes⟩
    by_cases hu : n.kind.isControl = true
    · exact count_successors_eq haccepted hn hu hm hv
    · have hs : v ∉ n.successors := fun hs => hu (hcontrol u v n hn (isControl_of_get? hm ▸ hv) hs)
      have hp : u ∉ m.predecessors := fun hp => hu (isControl_of_get? hn ▸ hcomes v m hm hv u hp)
      rw [List.count_eq_zero_of_not_mem hs, List.count_eq_zero_of_not_mem hp]
  · rintro ⟨harrivals, hcomes⟩ x n hn hfloat s hs
    by_contra hs'
    obtain ⟨m, hm, hk⟩ := exists_of_isControl (by simpa using hs')
    have hp : x ∈ m.predecessors := by
      rw [← List.count_pos_iff, ← harrivals x s n m hn hm hk]
      exact List.count_pos_iff.mpr hs
    have hx := hcomes s m hm hk x hp
    rw [isControl_of_get? hn, hfloat] at hx
    cases hx

end Accepted

/-- In an accepted graph, control nodes list the edges between them equally often, in the lists of nodes and in
forward flow. Edges to control nodes agree for all nodes, and come from control nodes, just if no floating node leads
to a control node. Forward flow agrees just if control comes from control nodes. -/
theorem control_edges_agree (haccepted : g.checkStructure = .ok ()) :
    (∀ u v n m, g.get? u = some n → n.kind.isControl = true → g.get? v = some m → m.kind.isControl = true →
      n.successors.count v = m.predecessors.count u ∧
      (g.forwardSuccessors u).count v = (g.liveForwardPredecessors v).count u) ∧
    (g.ArrivalsAgree ∧ g.ComesFromControl ↔ g.FloatsApart) ∧ (g.FlowAgrees ↔ g.ComesFromControl) :=
  ⟨fun _ _ _ _ hn hu hm hv =>
    ⟨count_successors_eq haccepted hn hu hm hv, count_forward_eq haccepted hn hu hm hv⟩,
    (floatsApart_iff haccepted).symm, flowAgrees_iff haccepted⟩

/-- The parameter of this loop leads nowhere. -/
theorem control_edges_agree_loop :
    let g : Graph :=
      ⟨#[{ kind := .start, successors := [2] }, { kind := .parameter 0, stamp := .logic },
        { kind := .loopBegin, predecessors := [0, 6], successors := [3] },
        { kind := .branch, inputs := [1], predecessors := [2], successors := [4, 5] },
        { kind := .begin, predecessors := [3], successors := [6] },
        { kind := .begin, predecessors := [3], successors := [7] },
        { kind := .loopEnd, predecessors := [4], successors := [2] }, { kind := .ret, predecessors := [5] }], .root⟩
    g.checkStructure = .ok () ∧ g.FloatsApart ∧ g.ArrivalsAgree ∧ g.FlowAgrees := by
  intro g
  have haccepted : g.checkStructure = .ok () := by decide +kernel
  have hleads : ∀ x < 8, ∀ n ∈ g.get? x, n.kind.isControl = false → ∀ s ∈ n.successors, g.isControl s = false := by
    decide +kernel
  have hapart : g.FloatsApart := fun x n hn => hleads x (lt_capacity hn) n hn
  obtain ⟨-, harrivals, hflow⟩ := control_edges_agree haccepted
  obtain ⟨harrivals, hcomes⟩ := harrivals.mpr hapart
  exact ⟨haccepted, hapart, harrivals, hflow.mpr hcomes⟩

/-- A parameter may be a predecessor of a merge. It is listed where control comes from, and control does not leave
it. -/
theorem parameter_precedes_merge :
    let g : Graph := ⟨#[{ kind := .start, successors := [2] },
      { kind := .parameter 0, stamp := .int .full, successors := [2] },
      { kind := .merge, successors := [3], predecessors := [0, 1] }, { kind := .ret, predecessors := [2] }], .root⟩
    g.checkStructure = .ok () ∧ ¬ g.ComesFromControl ∧ ¬ g.FlowAgrees := by
  intro g
  have haccepted : g.checkStructure = .ok () := by decide +kernel
  have hmerge : g.get? 2 = some { kind := .merge, successors := [3], predecessors := [0, 1] } := by decide
  have hcomes : ¬ g.ComesFromControl := by
    intro h
    have hparameter : g.isControl 1 = true := h 2 _ hmerge rfl 1 (by decide)
    cases hparameter
  exact ⟨haccepted, hcomes, fun h => hcomes ((flowAgrees_iff haccepted).mp h)⟩

/-- A parameter may have a merge as successor that does not list it. -/
theorem parameter_unlisted_at_merge :
    let g : Graph := ⟨#[{ kind := .start, successors := [1] },
      { kind := .merge, successors := [2], predecessors := [0] }, { kind := .ret, predecessors := [1] },
      { kind := .parameter 0, stamp := .int .full, successors := [1] }], .root⟩
    g.checkStructure = .ok () ∧ ¬ g.ArrivalsAgree := by
  intro g
  have hparameter : g.get? 3 = some { kind := .parameter 0, stamp := .int .full, successors := [1] } := by decide
  have hmerge : g.get? 1 = some { kind := .merge, successors := [2], predecessors := [0] } := by decide
  refine ⟨by decide +kernel, fun h => ?_⟩
  have hcount := h 3 1 _ _ hparameter hmerge rfl
  simp at hcount

end Graph

end GuardElision
