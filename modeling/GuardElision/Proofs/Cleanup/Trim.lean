import GuardElision.Proofs.Cleanup.Reached

namespace GuardElision

def entriesAt (xs : List NodeId) (ks : List Nat) : List NodeId :=
  ks.map fun k => xs.getD k 0

theorem entriesAt_range (xs : List NodeId) : entriesAt xs (List.range xs.length) = xs := by
  apply List.ext_getElem
  · simp [entriesAt]
  · intro i h₁ h₂
    simp [entriesAt, h₂]

theorem eraseIdx_entriesAt (xs : List NodeId) (ks : List Nat) (i : Nat) :
    (entriesAt xs ks).eraseIdx i = entriesAt xs (ks.eraseIdx i) := by
  exact List.eraseIdx_map ..

theorem getElem?_of_not_mem_eraseIdx {ks : List Nat} {i k : Nat} (hk : k ∈ ks) (hno : k ∉ ks.eraseIdx i) :
    ks[i]? = some k := by
  obtain ⟨j, hj⟩ := List.mem_iff_getElem?.mp hk
  by_cases hij : j = i
  · exact hij ▸ hj
  · exact absurd (List.mem_eraseIdx_iff_getElem?.mpr ⟨j, hij, hj⟩) hno

/-- Positions picked by what stands there. -/
theorem entriesAt_filter {xs ys : List NodeId} (hlen : ys.length = xs.length) (P : NodeId → Bool) :
    entriesAt ys ((List.range xs.length).filter fun k => P (xs.getD k 0)) =
      ((xs.zip ys).filter fun e => P e.1).map (·.2) := by
  have hzip : xs.zip ys = (List.range xs.length).map fun k => (xs.getD k 0, ys.getD k 0) := by
    apply List.ext_getElem
    · simp [hlen]
    · intro i h₁ h₂
      have hx : i < xs.length := by simpa using h₂
      have hy : i < ys.length := by omega
      simp [hx, hy]
  rw [hzip, List.filter_map, List.map_map]
  rfl

/-- A part of the positions, in their order, is known by its members. -/
theorem eq_filter_range {n : Nat} {ks : List Nat} (hks : ks.Sublist (List.range n)) {P : Nat → Bool}
    (hmem : ∀ k < n, k ∈ ks ↔ P k = true) : ks = (List.range n).filter P := by
  have hsorted : ks.Pairwise (· < ·) := List.pairwise_lt_range.sublist hks
  have hsorted' : ((List.range n).filter P).Pairwise (· < ·) := List.pairwise_lt_range.filter P
  have hperm : ks.Perm ((List.range n).filter P) := by
    refine (List.perm_ext_iff_of_nodup (hsorted.imp Nat.ne_of_lt) (hsorted'.imp Nat.ne_of_lt)).mpr fun k => ?_
    rw [List.mem_filter, List.mem_range]
    constructor
    · intro hk
      have hlt := List.mem_range.mp (hks.subset hk)
      exact ⟨hlt, (hmem k hlt).mp hk⟩
    · rintro ⟨hlt, hk⟩
      exact (hmem k hlt).mpr hk
  exact hperm.eq_of_pairwise (fun a b _ _ hab hba => absurd hab (Nat.lt_asymm hba)) hsorted hsorted'

namespace Graph

/-- An edge from a control node of `g` that a control node of `h` lists as one to come by is one that its
source still has. -/
def Tied (g h : Graph) : Prop :=
  ∀ x n, h.get? x = some n → n.kind.isControl = true → ∀ p ∈ n.predecessors, g.isControl p = true →
    ∃ m, h.get? p = some m ∧ n.predecessors.count p ≤ m.successors.count x

/-- What is left of `g` while control nodes go with the edges that leave them. The nodes that lost edges
are the gone ones. -/
structure Trimmed (g : Graph) (gone : NodeId → Prop) (h : Graph) : Prop where
  node : ∀ x n, h.get? x = some n → ∃ m, g.get? x = some m ∧ n.kind = m.kind ∧ n.anchor = m.anchor ∧
    n.guard = m.guard ∧ n.memory = m.memory ∧ (n.kind ≠ .phi → n.inputs = m.inputs) ∧
    ∀ s ∈ n.successors, s ∈ m.successors
  /-- The same positions are left of the predecessors and of the inputs of every phi that had as many. -/
  kept : ∀ x n m, h.get? x = some n → g.get? x = some m → ∃ ks : List Nat,
    ks.Sublist (List.range m.predecessors.length) ∧ n.predecessors = entriesAt m.predecessors ks ∧
    (∀ k < m.predecessors.length, k ∉ ks →
      g.isControl (m.predecessors.getD k 0) = true ∧ gone (m.predecessors.getD k 0)) ∧
    ∀ p q q', h.get? p = some q' → g.get? p = some q → q.kind = .phi → q.anchor = some x →
      q.inputs.length = m.predecessors.length → q'.inputs = entriesAt q.inputs ks
  tied : Tied g h

variable {g h k : Graph} {gone gone' : NodeId → Prop} {u t x : NodeId} {n m : Node}

theorem tied_of_checkStructure (haccepted : g.checkStructure = .ok ()) : Tied g g := by
  intro x n hn hk p hp hcontrol
  obtain ⟨m, hm, hs⟩ := successor_of_predecessor haccepted hn hk hp
  rw [isControl_of_get? hm] at hcontrol
  exact ⟨m, hm, Nat.le_of_eq (successor_recorded haccepted hm hcontrol hs hn).2.symm⟩

/-- An edge goes at both ends. -/
theorem Tied.withoutEdge (T : Tied g h) {index? : Option Nat}
    (hview : ∀ j, k.get? j = (h.get? j).map (Graph.withoutEdge u t index? j)) : Tied g k := by
  intro x n hn hk p hp hcontrol
  obtain ⟨n₀, hn₀, rfl⟩ := exists_of_withoutEdge hview hn
  have hp₀ : p ∈ n₀.predecessors := by
    simp only [Graph.withoutEdge] at hp
    split at hp
    · exact List.mem_of_mem_erase hp
    · exact hp
  obtain ⟨m, hm, hcount⟩ := T x n₀ hn₀ hk p hp₀ hcontrol
  refine ⟨_, by rw [hview, hm]; rfl, ?_⟩
  simp only [Graph.withoutEdge]
  split_ifs with hx hpu hpu
  · subst hx hpu
    simp only [List.count_erase_self]
    omega
  · rwa [List.count_erase_of_ne hpu]
  · rwa [List.count_erase_of_ne hx]
  · exact hcount

namespace Trimmed

theorem refl (htied : Tied g g) : Trimmed g gone g := by
  refine ⟨fun x n hn => ⟨n, hn, rfl, rfl, rfl, rfl, fun _ => rfl, fun _ hs => hs⟩, fun x n m hn hm => ?_, htied⟩
  cases hn.symm.trans hm
  refine ⟨List.range n.predecessors.length, .refl _, (entriesAt_range _).symm, fun k hk hno => ?_, ?_⟩
  · exact absurd (List.mem_range.mpr hk) hno
  · intro p q q' hq' hq _ _ hlen
    cases hq.symm.trans hq'
    rw [← hlen, entriesAt_range]

theorem mono (T : Trimmed g gone h) (hgone : ∀ p, gone p → gone' p) : Trimmed g gone' h := by
  refine { T with kept := fun x n m hn hm => ?_ }
  obtain ⟨ks, hsub, hpred, hlost, hphi⟩ := T.kept x n m hn hm
  refine ⟨ks, hsub, hpred, fun k hk hno => ?_, hphi⟩
  obtain ⟨hcontrol, hp⟩ := hlost k hk hno
  exact ⟨hcontrol, hgone _ hp⟩

theorem withoutEdge (T : Trimmed g gone h) (hu : g.isControl u = true) (hgone : gone u)
    (hview : ∀ j, k.get? j = (h.get? j).map (Graph.withoutEdge u t (h.predecessorIndex? u t) j)) :
    Trimmed g gone k := by
  refine ⟨fun x n hn => ?_, fun x n m hn hm => ?_, T.tied.withoutEdge hview⟩
  · obtain ⟨n₀, hn₀, rfl⟩ := exists_of_withoutEdge hview hn
    obtain ⟨m, hm, hkind, hanchor, hguard, hmemory, hinputs, hsucc⟩ := T.node x n₀ hn₀
    refine ⟨m, hm, hkind, hanchor, hguard, hmemory, fun hphi => ?_, fun s hs => hsucc s ?_⟩
    · have hphi' : n₀.kind ≠ .phi := hphi
      rw [inputs_withoutEdge (Or.inl hphi')]
      exact hinputs hphi'
    · simp only [Graph.withoutEdge] at hs
      split at hs
      · exact List.mem_of_mem_erase hs
      · exact hs
  · obtain ⟨n₀, hn₀, rfl⟩ := exists_of_withoutEdge hview hn
    obtain ⟨ks, hsub, hpred, hlost, hphi⟩ := T.kept x n₀ m hn₀ hm
    by_cases hcut : x = t ∧ u ∈ n₀.predecessors
    · obtain ⟨rfl, hmem⟩ := hcut
      have hindex := predecessorIndex?_of_mem hn₀ hmem
      have herase : n₀.predecessors.erase u = n₀.predecessors.eraseIdx (n₀.predecessors.idxOf u) :=
        List.erase_eq_eraseIdx_of_idxOf rfl
      refine ⟨ks.eraseIdx (n₀.predecessors.idxOf u), (List.eraseIdx_sublist ..).trans hsub, ?_, fun i hi hno => ?_, ?_⟩
      · simp only [Graph.withoutEdge, ↓reduceIte]
        rw [herase, ← eraseIdx_entriesAt, ← hpred]
      · by_cases hin : i ∈ ks
        · have hat := getElem?_of_not_mem_eraseIdx hin hno
          have hentry : n₀.predecessors[n₀.predecessors.idxOf u]? = some (m.predecessors.getD i 0) := by
            rw [hpred, entriesAt, List.getElem?_map, ← entriesAt, ← hpred, hat]
            rfl
          rw [List.getElem?_idxOf hmem, Option.some.injEq] at hentry
          rw [← hentry]
          exact ⟨hu, hgone⟩
        · exact hlost i hi hin
      · intro p q q' hq' hq hk ha hlen
        obtain ⟨q₀, hq₀, rfl⟩ := exists_of_withoutEdge hview hq'
        obtain ⟨_, hq₁, hkind, hanchor, -⟩ := T.node p q₀ hq₀
        cases hq.symm.trans hq₁
        rw [hindex, inputs_withoutEdge_phi (hkind.trans hk) (hanchor.trans ha), hphi p q q₀ hq₀ hq hk ha hlen]
        exact eraseIdx_entriesAt ..
    · refine ⟨ks, hsub, ?_, hlost, ?_⟩
      · rw [← hpred]
        simp only [Graph.withoutEdge]
        split
        next hx => exact List.erase_of_not_mem fun hmem => hcut ⟨hx, hmem⟩
        next => rfl
      · intro p q q' hq' hq hk ha hlen
        obtain ⟨q₀, hq₀, rfl⟩ := exists_of_withoutEdge hview hq'
        obtain ⟨_, hq₁, hkind, hanchor, -⟩ := T.node p q₀ hq₀
        cases hq.symm.trans hq₁
        rw [inputs_withoutEdge, hphi p q q₀ hq₀ hq hk ha hlen]
        rw [hanchor, ha]
        by_cases hx : x = t
        · refine Or.inr (Or.inr ?_)
          rw [← hx, predecessorIndex?_of_get? hn₀, List.idxOf?_eq_none_iff]
          exact fun hmem => hcut ⟨hx, hmem⟩
        · exact Or.inr (Or.inl fun he => hx (Option.some.inj he))

theorem delete (T : Trimmed g gone h) {ids : List NodeId}
    (hview : ∀ j, k.get? j = if j ∈ ids then none else h.get? j)
    (hfree : ∀ p ∈ ids, g.isControl p = true → ∀ x n, h.get? x = some n → n.kind.isControl = true → p ∉ n.predecessors) :
    Trimmed g gone k := by
  have hback : ∀ {j n}, k.get? j = some n → h.get? j = some n := by
    intro j n hn
    rw [hview] at hn
    split at hn
    · cases hn
    · exact hn
  refine ⟨fun x n hn => T.node x n (hback hn), fun x n m hn hm => ?_, fun x n hn hk p hp hcontrol => ?_⟩
  · obtain ⟨ks, hsub, hpred, hlost, hphi⟩ := T.kept x n m (hback hn) hm
    exact ⟨ks, hsub, hpred, hlost, fun p q q' hq' => hphi p q q' (hback hq')⟩
  · obtain ⟨m, hm, hcount⟩ := T.tied x n (hback hn) hk p hp hcontrol
    refine ⟨m, ?_, hcount⟩
    rw [hview, if_neg, hm]
    exact fun hin => hfree p hin hcontrol x n (hback hn) hk hp

end Trimmed

/-- The edge from `p` is still there: its source lives, or is no control node and so never goes with its
edges. -/
def edgeLeft (g h : Graph) (p : NodeId) : Bool :=
  h.isLive p || !g.isControl p

theorem edgeLeft_iff {p : NodeId} : g.edgeLeft h p = true ↔ (∃ n, h.get? p = some n) ∨ g.isControl p = false := by
  rw [edgeLeft, Bool.or_eq_true, isLive_iff, Bool.not_eq_true']

/-- Of a node that stays, the predecessors that stay are left, and of its phis the inputs that belong to
them. -/
theorem Trimmed.merge (T : Trimmed g (h.get? · = none) h) (hn : h.get? x = some n) (hm : g.get? x = some m)
    (hk : m.kind.isControl = true) :
    n.predecessors = m.predecessors.filter (g.edgeLeft h) ∧
    ∀ p q q', h.get? p = some q' → g.get? p = some q → q.kind = .phi → q.anchor = some x →
      q.inputs.length = m.predecessors.length →
      q'.inputs = ((m.predecessors.zip q.inputs).filter fun e => g.edgeLeft h e.1).map (·.2) := by
  obtain ⟨ks, hsub, hpred, hlost, hphi⟩ := T.kept x n m hn hm
  obtain ⟨_, hm', hkind, -⟩ := T.node x n hn
  cases hm.symm.trans hm'
  have hks : ks = (List.range m.predecessors.length).filter fun k => g.edgeLeft h (m.predecessors.getD k 0) := by
    apply eq_filter_range hsub
    intro i hi
    constructor
    · intro hin
      have hp : m.predecessors.getD i 0 ∈ n.predecessors := by
        rw [hpred]
        exact List.mem_map.mpr ⟨i, hin, rfl⟩
      apply edgeLeft_iff.mpr
      cases hcontrol : g.isControl (m.predecessors.getD i 0) with
      | false => exact Or.inr rfl
      | true =>
        obtain ⟨l, hl, -⟩ := T.tied x n hn (hkind ▸ hk) _ hp hcontrol
        exact Or.inl ⟨l, hl⟩
    · intro hleft
      by_contra hno
      obtain ⟨hcontrol, hgone⟩ := hlost i hi hno
      rcases edgeLeft_iff.mp hleft with ⟨l, hl⟩ | hfloating
      · cases hgone.symm.trans hl
      · rw [hcontrol] at hfloating
        cases hfloating
  constructor
  · rw [hpred, hks, entriesAt_filter rfl]
    have hzip : m.predecessors.zip m.predecessors = m.predecessors.map fun p => (p, p) := by
      simp [List.zip_eq_zipWith]
    rw [hzip, List.filter_map, List.map_map]
    exact List.map_id _
  · intro p q q' hq' hq hphi' ha hlen
    rw [hphi p q q' hq' hq hphi' ha hlen, hks, entriesAt_filter hlen]

/-- A phi goes only with its merge. -/
def PhisStay (g h : Graph) : Prop :=
  ∀ p q m k, g.get? p = some q → q.kind = .phi → q.anchor = some m → h.get? m = some k → ∃ q', h.get? p = some q'

end Graph

namespace Sweep

variable {g : Graph} {gone : NodeId → Prop} {s s' : Sweep} {u : NodeId} {n : Node}

/-- A node gives up its edges one after the other. -/
theorem detach_trims {ss : List NodeId} {a : PUnit} (T : g.Trimmed gone s.graph) (hu : g.isControl u = true)
    (hgone : gone u) (hn : s.graph.get? u = some n) (hsucc : n.successors = ss)
    (h : (ss.forM fun next => do
      onGraph (·.detachEdge u next)
      modify fun s => { s with changes := s.changes.noteEdge } : Attempt Sweep PUnit) s = .ok a s') :
    g.Trimmed gone s'.graph ∧ (∀ x, (∃ m, s'.graph.get? x = some m) ↔ ∃ m, s.graph.get? x = some m) ∧
      ∃ n', s'.graph.get? u = some n' ∧ n'.successors = [] := by
  induction ss generalizing s n with
  | nil =>
    obtain ⟨_, rfl⟩ := Attempt.pure_ok.mp h
    exact ⟨T, fun _ => Iff.rfl, n, hn, hsucc⟩
  | cons t ss ih =>
    obtain ⟨_, _, hstep, h⟩ := Attempt.bind_ok.mp h
    obtain ⟨_, _, hdetach, hm⟩ := Attempt.bind_ok.mp hstep
    obtain ⟨k, hd, rfl⟩ := onGraph_ok.mp hdetach
    obtain rfl := Attempt.modify_ok.mp hm
    obtain ⟨n', hn', -, -, ⟨-, hview⟩ | ⟨hno, -⟩⟩ := Graph.detachEdge_ok hd
    · cases hn.symm.trans hn'
      have hat : k.get? u = some (Graph.withoutEdge u t (s.graph.predecessorIndex? u t) u n) := by rw [hview, hn]; rfl
      have hrest : (Graph.withoutEdge u t (s.graph.predecessorIndex? u t) u n).successors = ss := by
        simp [Graph.withoutEdge, hsucc]
      obtain ⟨T', hlive, hend⟩ := ih (T.withoutEdge hu hgone hview) hat hrest h
      refine ⟨T', fun x => (hlive x).trans ?_, hend⟩
      simp [hview]
    · cases hn.symm.trans hn'
      simp [hsucc] at hno

theorem removeControl_trims {a : Unit} (T : g.Trimmed (s.graph.get? · = none) s.graph) (P : g.PhisStay s.graph)
    (hu : g.isControl u = true) (hn : s.graph.get? u = some n) (h : removeControl u n.successors s = .ok a s') :
    g.Trimmed (s'.graph.get? · = none) s'.graph ∧ g.PhisStay s'.graph := by
  obtain ⟨_, s₁, hdetach, h⟩ := Attempt.bind_ok.mp h
  obtain rfl := Attempt.modify_ok.mp h
  have hstart : g.Trimmed (fun p => s.graph.get? p = none ∨ p = u) s.graph := T.mono fun p hp => Or.inl hp
  obtain ⟨T₁, hlive, n₁, hn₁, hnone⟩ := detach_trims hstart hu (Or.inr rfl) hn rfl hdetach
  have hview : ∀ j, ((s₁.graph.guardsAt u ++ s₁.graph.phisOf u ++ [u]).foldl drop s₁).graph.get? j =
      if j ∈ s₁.graph.guardsAt u ++ s₁.graph.phisOf u ++ [u] then none else s₁.graph.get? j := by
    intro j
    rw [(foldl_drop _ s₁).1, Graph.get?_foldl_delete]
  have hmem : ∀ p, p ∈ s₁.graph.guardsAt u ++ s₁.graph.phisOf u ++ [u] ↔
      (∃ m, s₁.graph.get? p = some m ∧ m.kind.isGuard = true ∧ m.anchor = some u) ∨
      (∃ m, s₁.graph.get? p = some m ∧ m.kind = .phi ∧ m.anchor = some u) ∨ p = u := by
    intro p
    rw [List.mem_append, List.mem_append, Graph.mem_guardsAt, Graph.mem_phisOf, List.mem_singleton, or_assoc]
  refine ⟨(T₁.delete hview fun p hp hcontrol x m hm hk hin => ?_).mono fun p hp => ?_, fun p q m k hq hk ha hm => ?_⟩
  · rcases (hmem p).mp hp with ⟨l, hl, hg, -⟩ | ⟨l, hl, hphi, -⟩ | rfl
    · obtain ⟨l', hl', hkind, -⟩ := T₁.node p l hl
      rw [Graph.isControl_of_get? hl', ← hkind, Kind.isControl_of_isGuard hg] at hcontrol
      cases hcontrol
    · obtain ⟨l', hl', hkind, -⟩ := T₁.node p l hl
      rw [Graph.isControl_of_get? hl', ← hkind, hphi] at hcontrol
      cases hcontrol
    · obtain ⟨l, hl, hcount⟩ := T₁.tied x m hm hk p hin hcontrol
      cases hn₁.symm.trans hl
      rw [hnone, List.count_nil] at hcount
      exact absurd (List.count_pos_iff.mpr hin) (Nat.not_lt.mpr hcount)
  · rw [hview]
    rcases hp with hp | rfl
    · have hp₁ : s₁.graph.get? p = none := by
        by_contra hsome
        obtain ⟨l, hl⟩ := (hlive p).mp (Option.ne_none_iff_exists'.mp hsome)
        cases hp.symm.trans hl
      rw [hp₁, ite_self]
    · exact if_pos ((hmem p).mpr (Or.inr (Or.inr rfl)))
  · rw [hview] at hm
    split at hm
    · cases hm
    next hstays =>
      obtain ⟨k', hk'⟩ := (hlive m).mp ⟨k, hm⟩
      obtain ⟨q', hq'⟩ := (hlive p).mpr (P p q m k' hq hk ha hk')
      refine ⟨q', ?_⟩
      rw [hview, if_neg, hq']
      obtain ⟨_, hq₁, hkind, hanchor, -⟩ := T₁.node p q' hq'
      cases hq.symm.trans hq₁
      intro hin
      rcases (hmem p).mp hin with ⟨l, hl, hg, -⟩ | ⟨l, hl, -, hau⟩ | rfl
      · cases hq'.symm.trans hl
        simp [hkind, hk, Kind.isGuard] at hg
      · cases hq'.symm.trans hl
        rw [hanchor, ha] at hau
        exact hstays ((hmem m).mpr (Or.inr (Or.inr (Option.some.inj hau))))
      · rw [Graph.isControl_of_get? hq, hk] at hu
        cases hu

/-- Pruning takes predecessors and phi inputs out together. -/
theorem prune_trims (hsucc : ∀ c m, g.get? c = some m → m.kind.isControl = true → ∀ t ∈ m.successors, g.isControl t = true)
    {bound : Nat} {stack : List NodeId} {a : Unit} (T : g.Trimmed (s.graph.get? · = none) s.graph)
    (P : g.PhisStay s.graph) (hstack : ∀ c ∈ stack, g.isControl c = true) (h : prune bound stack s = .ok a s') :
    g.Trimmed (s'.graph.get? · = none) s'.graph ∧ g.PhisStay s'.graph := by
  induction bound generalizing s stack with
  | zero =>
    cases stack with
    | nil =>
      obtain ⟨_, rfl⟩ := Attempt.pure_ok.mp h
      exact ⟨T, P⟩
    | cons c stack =>
      obtain ⟨_, rfl⟩ := Attempt.pure_ok.mp h
      exact ⟨T, P⟩
  | succ bound ih =>
    cases stack with
    | nil =>
      obtain ⟨_, rfl⟩ := Attempt.pure_ok.mp h
      exact ⟨T, P⟩
    | cons c stack =>
      obtain ⟨next, s₁, hnode, h⟩ := Attempt.bind_ok.mp h
      obtain ⟨hc, hrest⟩ := List.forall_mem_cons.mp hstack
      rcases pruneNode_cases hnode with ⟨hgraph, -, rfl, -⟩ | ⟨n, s₂, hn, -, -, hgraph, -, hremove, rfl⟩
      · rw [← hgraph] at T P
        exact ih T P hrest h
      · rw [← hgraph] at T P hn
        obtain ⟨T₁, P₁⟩ := removeControl_trims T P hc hn hremove
        refine ih T₁ P₁ (fun t ht => ?_) h
        rcases List.mem_append.mp ht with ht | ht
        · obtain ⟨m, hm, hkind, -, -, -, -, hsub⟩ := T.node c n hn
          exact hsucc c m hm (Graph.isControl_of_get? hm ▸ hc) t (hsub t (List.mem_reverse.mp ht))
        · exact hrest t ht

end Sweep

end GuardElision
