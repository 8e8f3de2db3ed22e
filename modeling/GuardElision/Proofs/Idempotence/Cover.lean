import GuardElision.Proofs.Idempotence.Twin

namespace GuardElision

namespace Graph

/-- The guards at an anchor are posts whose tests stamps do not decide. -/
def SettledAt (g : Graph) (classes : ClassTable) (a : NodeId) : Prop :=
  ∃ ps, g.Manned a ps [] ∧ ∀ p ∈ ps, Known.lookup? classes {} p.claim.condition = none

end Graph

namespace Walk

open GuardElision.Graph (SameControl)

variable {config : EliminationConfig} {method : Option MethodId} {V : Valuation} {stamp : NodeId → Stamp} {g G : Graph}
  {w w' w₀ : Walk} {stage next : Stage} {a : NodeId} {past states : List (Stage × Walk)} {bound : Nat} {log : EventLog}
  {tally : Tally}

/-- What lies behind the walk: nodes that were left have all their children entered, and the guards of
nodes that were processed are settled. -/
structure Covers (g : Graph) (stage : Stage) (w : Walk) : Prop where
  start : stage = .descend Graph.start ∨ Graph.start ∈ w.visited
  closed : ∀ a ∈ w.visited, (∀ v ∈ w.visits, v.node ≠ a) → ∀ c ∈ w.dominators.children a, c ∈ w.visited
  settled : ∀ a ∈ w.visited, stage ≠ .process a → w.graph.SettledAt g.classes a

/-- A node with no child to enter has all its children entered. -/
theorem Calm.mem_visited (E : Calm V stamp g w) (hg : g.Straight) {v : Visit} (hnone : w.childrenToEnter v = [])
    (hv : v.deferred = none) : ∀ c ∈ w.dominators.children v.node, c ∈ w.visited := by
  intro c hc
  by_contra hnew
  have hreach : g.Reach c := Graph.Dom.reach (g.current_dominators.dominated v.node c (E.dominators ▸ hc)).2
  obtain ⟨n, hn, -⟩ := hg.exists_node E.control hreach
  have hmem : c ∈ w.childrenToEnter v := by
    refine mem_childrenToEnter.mpr ⟨?_, hc, hnew, by simp [E.excluded], Graph.isLive_iff.mpr ⟨n, hn⟩⟩
    simp [Trapped, hv]
  simp [hnone] at hmem

theorem Moves.covers (M : Moves V stamp stage w next w') (hg : g.Straight) (hV : ∀ x, V.Admits ⟨x, stamp x⟩)
    (hclasses : V.classes = g.classes) (E : Calm V stamp g w) (K : Covers g stage w) : Covers g next w' := by
  cases M with
  | @descend node _ hnew =>
    refine ⟨.inr ?_, fun a ha hopen c hc => ?_, fun a ha hstage => ?_⟩
    · rcases K.start with hs | hs
      · rw [Stage.descend.inj hs]
        exact List.mem_cons_self
      · exact List.mem_cons_of_mem node hs
    · obtain ⟨hnode, hopen⟩ := List.forall_mem_cons.mp hopen
      have ha' := (List.mem_cons.mp ha).resolve_left (Ne.symm hnode)
      exact List.mem_cons_of_mem node (K.closed a ha' hopen c hc)
    · have hne : a ≠ node := fun he => hstage (he ▸ rfl)
      exact K.settled a ((List.mem_cons.mp ha).resolve_left hne) (by simp)
  | @process node outer _ w₁ _ _ ps all hv hcourse hedits S hnext =>
    obtain ⟨visits, rfl, hcore⟩ := nextStage_ok hnext
    refine ⟨.inr ?_, fun a ha hopen c hc => ?_, fun a ha _ => ?_⟩
    · exact hcourse.visited ▸ K.start.resolve_left (by simp)
    · have hcore' : w.visits.map Visit.core = visits.map Visit.core := by
        rw [hv]
        exact hcore.symm
      have hopen' := Visit.forall_of_core (P := fun node _ => node ≠ a) hcore' hopen
      have hchild := K.closed a (hcourse.visited ▸ ha) hopen' c (hcourse.dominators ▸ hc)
      exact hcourse.visited ▸ hchild
    · by_cases he : a = node
      · subst he
        have hopen := S.undecided hV (E.fits _ List.mem_cons_self)
        rw [E.classes, hclasses] at hopen
        exact ⟨ps, S.manned, hopen⟩
      · obtain ⟨qs, hm, hopen⟩ := K.settled a (hcourse.visited ▸ ha) fun hs => he (Stage.process.inj hs).symm
        exact ⟨qs, hedits.manned E.overValues he hm, hopen⟩
  | @ascend node v outer _ _ _ hv hnone hlast hnext =>
    obtain ⟨visits, rfl, hcore⟩ := nextStage_ok hnext
    refine ⟨.inr (K.start.resolve_left (by simp)), fun a ha hopen c hc => ?_, fun a ha _ => K.settled a ha (by simp)⟩
    by_cases he : a = v.node
    · subst he
      exact E.mem_visited hg hlast hnone c hc
    · refine K.closed a ha ?_ c hc
      rw [hv]
      exact List.forall_mem_cons.mpr ⟨Ne.symm he, Visit.forall_of_core (P := fun node _ => node ≠ a) hcore.symm hopen⟩

theorem Passes.covers (h : Passes config method w₀ states) (hg : g.Straight) (hV : ∀ x, V.Admits ⟨x, stamp x⟩)
    (hclasses : V.classes = g.classes) (I : Steady bound [] (.descend Graph.start) w₀) (E : Calm V stamp g w₀)
    (K : Covers g (.descend Graph.start) w₀) :
    ∀ stage w past, states = (stage, w) :: past → Calm V stamp g w ∧ Covers g stage w := by
  induction h with
  | start =>
    intro stage w past he
    cases he
    exact ⟨E, K⟩
  | step hpasses hstage hadvance ih =>
    intro stage w past he
    cases he
    obtain ⟨E', K'⟩ := ih _ _ _ rfl
    have M := E'.moves hg hV (hpasses.steady I _ _ _ rfl) hstage hadvance
    exact ⟨M.calm hV E', M.covers hg hV hclasses E' K'⟩

/-- Once the walk is done, the guards of every reachable node are settled. -/
theorem Covers.settledAt (K : Covers g .done w) (E : Calm V stamp g w) (hvisits : w.visits = []) (ha : g.Reach a) :
    w.graph.SettledAt g.classes a := by
  have hstart : Graph.start ∈ w.visited := K.start.resolve_left (by simp)
  refine K.settled a (Digraph.children_cover (P := (· ∈ w.visited)) hstart (fun d hd c hc => ?_) ha) (by simp)
  refine K.closed d hd (by simp [hvisits]) c ?_
  rw [E.dominators]
  exact hc

theorem run_settles (hg : g.Straight) (hV : ∀ x, V.Admits ⟨x, stamp x⟩) (hclasses : V.classes = g.classes)
    (O : g.OverValues) (P : g.GuardsPass V stamp) {u : Unit}
    (h : run config method (.ofGraph g log tally) = .ok u w') :
    Calm V stamp g w' ∧ ∀ a, g.Reach a → w'.graph.SettledAt g.classes a := by
  obtain ⟨n, hn, -⟩ := hg.start
  have I : Steady (g.capacity + g.guardCount) [] (.descend Graph.start) (.ofGraph g log tally) :=
    steady_ofGraph hg.linked ⟨n, hn⟩ log tally
  have E : Calm V stamp g (.ofGraph g log tally) := .ofGraph hclasses O P log tally
  have K : Covers g (.descend Graph.start) (.ofGraph g log tally) := ⟨.inl rfl, by simp [ofGraph], by simp [ofGraph]⟩
  have hends : Ends config method (.ofGraph g log tally) (run config method (.ofGraph g log tally)) :=
    stages_ends (fun stage w past hp => (hp.steady I stage w past rfl).length_lt) .start (Nat.le_add_left _ _)
  rw [h] at hends
  obtain ⟨past, hpasses⟩ := hends
  obtain ⟨E', K'⟩ := hpasses.covers hg hV hclasses I E K _ _ _ rfl
  exact ⟨E', fun a ha => K'.settledAt E' (hpasses.steady I _ _ _ rfl).visits_of_done ha⟩

/-- A second walk, over a graph in which the posts that the first one leaves still stand, rewrites nothing. -/
theorem run_again (hg : g.Straight) (hV : ∀ x, V.Admits ⟨x, stamp x⟩) (hclasses : V.classes = g.classes)
    (O : g.OverValues) (P : g.GuardsPass V stamp) {u : Unit} (h : run config method (.ofGraph g log tally) = .ok u w')
    (C : SameControl g G) (hGclasses : G.classes = g.classes) (N : g.NoNewGuard G)
    (hstand : ∀ a ps, w'.graph.Manned a ps [] → (∀ p ∈ ps, Known.lookup? g.classes {} p.claim.condition = none) →
      G.Manned a ps []) (log' : EventLog) (tally' : Tally) :
    ∃ w₂, run config method (.ofGraph G log' tally') = .ok () w₂ ∧ w₂.graph = G ∧ w₂.log = log' ∧ w₂.tally = tally' ∧
      w₂.edited = false := by
  obtain ⟨n, hn, -⟩ := hg.start
  have hbound : stageBound G ≤ stageBound g := by
    have hguards := Graph.guardCount_le N
    have hcap := C.capacity
    unfold stageBound
    omega
  have hdominators : G.dominators = g.dominators := by
    unfold Graph.dominators
    rw [C.forwardFlow_eq hg.linked]
  have T : Twin V stamp (.ofGraph G log' tally') (.ofGraph g log tally) (.ofGraph G log' tally') := by
    refine ⟨rfl, rfl, rfl, ⟨hdominators, rfl, rfl, rfl, rfl⟩, hGclasses, ?_⟩
    exact .cons (.empty ⟨by simp [ofGraph, Facts.ofClasses], by simp [ofGraph, Facts.ofClasses]⟩) .nil
  exact stages_again hbound hg hV hclasses C hGclasses (steady_ofGraph hg.linked ⟨n, hn⟩ log tally)
    (.ofGraph hclasses O P log tally) T h hstand

end Walk

end GuardElision
