import GuardElision.Proofs.Elimination.Nesting
import GuardElision.Proofs.Layers.Cleaning

namespace GuardElision

/-- What is learnt at `d` comes from something that stands there and can protect. -/
def Layering.Teaches (L : Layering) (d : NodeId) (o : Origin) : Prop :=
  L.protects o.guard ∧ L.pos o.guard = d

namespace Walk

variable {L : Layering} {config : EliminationConfig} {method : Option MethodId} {w w' w₀ : Walk} {g h : Graph} {f : Facts}
  {a q : NodeId} {nodes outer : List NodeId} {n : Node} {stage next : Stage} {past states : List (Stage × Walk)}
  {bound : Nat}

/-- The graph keeps to its layers, and so does what is known: it was learnt at the open nodes, which stand
at themselves, each below those around it. -/
structure Heeds (L : Layering) (nodes : List NodeId) (g : Graph) (f : Facts) : Prop where
  layered : g.Layered L
  led : g.Led []
  scopes : Scoped L.Teaches nodes f.known f.outer
  standing : ∀ v ∈ nodes, L.pos v = v ∧ L.protects v
  chain : nodes.Pairwise fun inner outer => L.rank outer < L.rank inner

namespace Heeds

/-- What decides a guard stands no lower than the guard. -/
theorem above (K : Heeds L (a :: outer) g f) (hq : L.pos q = a) {o : Origin} (ho : ∃ d ∈ a :: outer, L.Teaches d o) :
    L.Above o.guard q := by
  obtain ⟨d, hd, _, hpos⟩ := ho
  rw [Layering.Above, hpos, hq]
  rcases List.mem_cons.mp hd with rfl | hd
  · exact Or.inl rfl
  · exact Or.inr ((List.pairwise_cons.mp K.chain).1 d hd)

theorem recast (K : Heeds L nodes g f) (R : Graph.Recast g h) (Y : h.Layered L) : Heeds L nodes h f :=
  ⟨Y, K.led.ways K.layered.shaped R.ways, K.scopes, K.standing, K.chain⟩

theorem dropGuard (K : Heeds L (a :: outer) g f) (hn : g.get? q = some n) (hk : n.kind.isGuard = true)
    (hq : L.pos q = a) {source : Source} (hsource : ∀ o, source = .guard o → ∃ d ∈ a :: outer, L.Teaches d o) :
    Heeds L (a :: outer) ((g.replaceGuard q (some (source.guard?.getD a))).delete q) f := by
  refine K.recast (.dropGuard fun m hm => ?_) ?_
  · cases hn.symm.trans hm
    exact Kind.isControl_of_isGuard hk
  · cases source with
    | stamp =>
      obtain ⟨hself, hprotects⟩ := K.standing a List.mem_cons_self
      exact K.layered.dropGuard hn hk (Or.inl (hself.trans hq.symm)) hprotects
    | guard o =>
      have ho := hsource o rfl
      obtain ⟨_, _, hprotects, _⟩ := id ho
      exact K.layered.dropGuard hn hk (K.above hq ho) hprotects

theorem learn (K : Heeds L (a :: outer) g f) {guard : NodeId} (hprotects : L.protects guard) (hpos : L.pos guard = a)
    (c : Condition) (truth : Bool) : Heeds L (a :: outer) g (f.push c truth guard).2 := by
  obtain ⟨hcredits, known, rest, ho, hrest⟩ := K.scopes.cons_inv
  refine ⟨K.layered, K.led, ?_, K.standing, K.chain⟩
  rw [Facts.push_outer, ho]
  exact .cons (Facts.push_credits hcredits (fun _ => ⟨a, List.mem_cons_self, hprotects, hpos⟩) c truth) hrest

/-- The guard that carries a test in the end stands where the first one stood. -/
theorem foldIntoEarlier {reason : Reason} {c : Condition} {truth : Bool} {carrier last : NodeId}
    (K : Heeds L (a :: outer) w.graph w.facts) (hn : w.graph.get? carrier = some n) (hk : n.kind.isGuard = true)
    (hpos : L.pos carrier = a) (h : Walk.foldIntoEarlier method a reason c truth bound carrier w = .ok last w') :
    Heeds L (a :: outer) w'.graph w'.facts ∧ L.protects last ∧ L.pos last = a := by
  have hprotects : L.protects carrier := (K.layered.protects carrier n hn).mp (Or.inr hk)
  induction bound generalizing w carrier n with
  | zero =>
    obtain ⟨rfl, rfl⟩ := Attempt.pure_ok.mp h
    exact ⟨K, hprotects, hpos⟩
  | succ bound ih =>
    rcases foldIntoEarlier_cases h with ⟨_, rfl, rfl⟩ | ⟨weaker, k, tally, log, hneighbour, hmove, _, h⟩
    · exact ⟨K, hprotects, hpos⟩
    · obtain ⟨m, _, _, _, hmem, hlt, _, hm, hkm, _⟩ := redundantNeighbour?_ok hneighbour
      have hguard : m.kind.isGuard = true := by simp [hkm, Kind.isGuard]
      obtain ⟨m', hm', _, ha⟩ := Graph.mem_guardsAt.mp hmem
      cases hm.symm.trans hm'
      have hat : L.pos weaker = a :=
        Option.some.inj ((K.layered.anchor weaker m hm (Or.inl hguard)).1.symm.trans ha)
      have K' : Heeds L (a :: outer) k w.facts := by
        refine K.recast (.moveTest hn hk hm hguard hmove) ?_
        exact Graph.Layered.moveTest hn hk hm hguard hmove K.layered (Nat.ne_of_gt hlt) (hpos.trans hat.symm)
      obtain ⟨n', hn', _, _, hget⟩ := Graph.moveTest_ok hmove
      cases hn.symm.trans hn'
      have hl := hget weaker
      rw [if_neg (Nat.ne_of_lt hlt), hm, Option.map_some, if_pos rfl, if_pos rfl] at hl
      exact ih (w := { w with graph := k, tally, log }) K' hl hk hat h ((K.layered.protects weaker m hm).mp (Or.inr hguard))

theorem processGuard {r : Option DeferredEdit} (K : Heeds L (a :: outer) w.graph w.facts) (hpos : L.pos q = a)
    (h : Walk.processGuard config method a q w = .ok r w') : Heeds L (a :: outer) w'.graph w'.facts := by
  obtain ⟨n, negated, reason, x, hn, hkind, _, hcases⟩ := processGuard_cases h
  have hk : n.kind.isGuard = true := by simp [hkind, Kind.isGuard]
  have hsettle : ∀ holds source, (∀ o, source = .guard o → ∃ d ∈ a :: outer, L.Teaches d o) →
      settleGuard config method a q reason holds source w = .ok r w' → Heeds L (a :: outer) w'.graph w'.facts := by
    intro holds source hsource h
    rcases settleGuard_cases h with ⟨_, _, rfl⟩ | ⟨_, rfl, _⟩
    · exact K.dropGuard hn hk hpos hsource
    · exact K
  rcases hcases with ⟨_, _, h⟩ | ⟨c, _, ⟨e, he, h⟩ | ⟨_, _, carrier, w₁, hfold, rfl⟩⟩
  · exact hsettle _ _ (fun o ho => by cases ho) h
  · exact hsettle _ _ (Known.lookup?_names w.facts.known_mirrored K.scopes.credits he) h
  · obtain ⟨K', hprotects, hat⟩ := K.foldIntoEarlier hn hk hpos hfold
    exact K'.learn hprotects hat _ _

theorem processGuards {r : Option DeferredEdit} {guards : List NodeId} (K : Heeds L (a :: outer) w.graph w.facts)
    (hpos : ∀ q ∈ guards, L.pos q = a) (h : Walk.processGuards config method a guards w = .ok r w') :
    Heeds L (a :: outer) w'.graph w'.facts := by
  rcases processGuards_cases (P := fun rest w => (∀ q ∈ rest, L.pos q = a) ∧ Heeds L (a :: outer) w.graph w.facts)
    (fun q rest w w' K hq => ⟨fun p hp => K.1 p (List.mem_cons_of_mem q hp),
      K.2.processGuard (K.1 q List.mem_cons_self) hq⟩) ⟨hpos, K⟩ h with
    ⟨_, _, K'⟩ | ⟨q, rest, w₁, _, _, ⟨hpos', K'⟩, _, hq⟩
  · exact K'
  · exact K'.processGuard (hpos' q List.mem_cons_self) hq

theorem descend {node : NodeId} (K : Heeds L (w.visits.map (·.node)) w.graph w.facts)
    (I : Steady bound past (.descend node) w) (h : Walk.descend node w = .ok next w') :
    Heeds L (w'.visits.map (·.node)) w'.graph w'.facts := by
  have h := Attempt.modify_bind_ok.mp h
  obtain ⟨_, w₂, hlearn, h⟩ := Attempt.bind_ok.mp h
  obtain ⟨_, rfl⟩ := Attempt.pure_ok.mp h
  obtain ⟨_, hreach, hopen⟩ := I.fresh
  obtain ⟨n, hn, hk⟩ := K.layered.shaped.exists_control hreach
  have hself : L.pos node = node := K.layered.control node n hn hk
  have hprotects : L.protects node := (K.layered.protects node n hn).mp (Or.inl hk)
  have hbelow : ∀ d ∈ w.visits.map (·.node), L.rank d < L.rank node := by
    refine List.forall_mem_map.mpr fun v hv => ?_
    obtain ⟨hne, hdom⟩ := (hopen v hv).1
    exact (Graph.Dom.rank K.layered.step hdom).resolve_left hne
  have K' : Heeds L (node :: w.visits.map (·.node)) w.graph w.facts.enterScope := by
    refine ⟨K.layered, K.led, ?_, List.forall_mem_cons.mpr ⟨⟨hself, hprotects⟩, K.standing⟩,
      List.pairwise_cons.mpr ⟨hbelow, K.chain⟩⟩
    rw [Facts.enterScope_outer]
    exact K.scopes.enter node
  rcases learnArm_cases hlearn with rfl | ⟨c, truth, _, rfl⟩
  · exact K'
  · exact K'.learn hprotects hself c truth

theorem process {node : NodeId} (K : Heeds L (w.visits.map (·.node)) w.graph w.facts)
    (I : Steady bound past (.process node) w) (h : Walk.process config method node w = .ok next w') :
    Heeds L (w'.visits.map (·.node)) w'.graph w'.facts := by
  obtain ⟨outer, hv, _⟩ := I.visits_of_process
  obtain ⟨deferred, w₁, hguards, hgraph, hfacts, hvisits⟩ := process_guards h
  obtain ⟨noted, pending, hnoted, _⟩ := hvisits _ outer hv
  rw [hv, List.map_cons] at K
  rw [hnoted, List.map_cons, hgraph, hfacts]
  refine K.processGuards (fun q hq => ?_) hguards
  obtain ⟨n, hn, hk, ha⟩ := Graph.mem_guardsAt.mp hq
  exact Option.some.inj ((K.layered.anchor q n hn (Or.inl hk)).1.symm.trans ha)

/-- Control is turned to a trap or a branch is folded, and what is cut off waits to be cleaned up. -/
theorem applyEdit {edit : DeferredEdit} {changed : List NodeId} {moved : Bool} (K : Heeds L nodes w.graph w.facts)
    (ha : w.graph.Reach a) (hat : ∀ q reason, edit = .strengthen q reason → q ∈ w.graph.guardsAt a)
    (h : Walk.applyEdit method a edit w = .ok (changed, moved) w') :
    w'.graph.Layered L ∧ w'.graph.Led changed := by
  have Y := K.layered
  have H := Y.shaped
  obtain ⟨k, _, _, rfl, hcases⟩ := applyEdit_cases h
  rcases hcases with ⟨q, reason, s, rfl, hs, rfl, _⟩ | ⟨truth, folded, _, hfold, rfl, _⟩
  · obtain ⟨m, hm, hguard, hanchor⟩ := Graph.mem_guardsAt.mp (hat q reason rfl)
    obtain ⟨n, hn, _⟩ := H.exists_control ha
    obtain rfl := Option.some.inj ((Y.anchor q m hm (Or.inl hguard)).1.symm.trans hanchor)
    have hk := (Y.post q m hm hguard).2.2 n hn
    refine ⟨Y.cut (.strengthen H hn hk hs), K.led.strengthen H hn hk hs (by simp) fun c hc => ?_⟩
    exact List.mem_append_right _ (by simp [hc])
  · exact ⟨Y.cut (.fold H hfold), K.led.fold H hfold (by simp)⟩

theorem ascend {node : NodeId} (K : Heeds L (w.visits.map (·.node)) w.graph w.facts)
    (I : Steady bound past (.ascend node) w) (h : Walk.ascend method w = .ok next w') :
    Heeds L (w'.visits.map (·.node)) w'.graph w'.facts := by
  obtain ⟨v, outer, hv, _⟩ := I.visits_of_ascend
  have hreach := I.nested.reached v.node (by simp [hv])
  rw [hv, List.map_cons] at K
  have K₁ : Heeds L (outer.map (·.node)) w.graph w.facts.exitScope :=
    ⟨K.layered, K.led, K.scopes.exitScope, (List.forall_mem_cons.mp K.standing).2, (List.pairwise_cons.mp K.chain).2⟩
  obtain ⟨w₂, hleave, hnext⟩ := ascend_cases hv h
  obtain ⟨visits, rfl, hcore⟩ := nextStage_ok hnext
  rw [Visit.nodes_eq hcore]
  rcases leave_cases hleave with ⟨_, rfl⟩ | ⟨edit, changed, moved, w₁, changes, k, hedit, happly, hclean, hw₂⟩
  · exact K₁
  · obtain ⟨Y, hled⟩ := applyEdit (w := { w with visits := outer, facts := w.facts.exitScope }) K₁ hreach
      (fun q reason hq => I.trap v (hv ▸ List.mem_cons_self) q reason (hq ▸ hedit)) happly
    obtain ⟨_, _, _, rfl, _⟩ := applyEdit_cases happly
    obtain ⟨Y', hled'⟩ := Graph.cleanUp_layers Y hled hclean
    obtain ⟨hgraph, hfacts, hnodes⟩ : w₂.graph = k ∧ w₂.facts = w.facts.exitScope ∧
        w₂.visits.map (·.node) = outer.map (·.node) := by
      rw [hw₂]
      split
      · exact ⟨rfl, rfl, Visit.nodes_eq (rebuild_core method _)⟩
      · exact ⟨rfl, rfl, rfl⟩
    rw [hnodes]
    show Heeds L _ w₂.graph w₂.facts
    rw [hgraph, hfacts]
    exact ⟨Y', hled', K₁.scopes, K₁.standing, K₁.chain⟩

theorem advance (K : Heeds L (w.visits.map (·.node)) w.graph w.facts) (I : Steady bound past stage w)
    (hstage : stage ≠ .done) (h : Walk.advance config method stage w = .ok next w') :
    Heeds L (w'.visits.map (·.node)) w'.graph w'.facts := by
  cases stage with
  | descend => exact K.descend I h
  | process => exact K.process I h
  | ascend => exact K.ascend I h
  | done => exact absurd rfl hstage

end Heeds

theorem Passes.heeds (h : Passes config method w₀ states) (I : Steady bound [] (.descend Graph.start) w₀)
    (K : Heeds L (w₀.visits.map (·.node)) w₀.graph w₀.facts) :
    ∀ stage w past, states = (stage, w) :: past → Heeds L (w.visits.map (·.node)) w.graph w.facts := by
  induction h with
  | start =>
    intro stage w past he
    cases he
    exact K
  | step hpasses hstage hadvance ih =>
    intro stage w past he
    cases he
    exact (ih _ _ _ rfl).advance (hpasses.steady I _ _ _ rfl) hstage hadvance

/-- A walk that comes to its end leaves a graph that keeps to the layers. -/
theorem run_layers {log : EventLog} {tally : Tally} {u : Unit} (Y : g.Layered L) (hled : g.Led [])
    (h : run config method (.ofGraph g log tally) = .ok u w) : w.graph.Layered L ∧ w.graph.Led [] := by
  obtain ⟨n, hn, _⟩ := Y.shaped.start
  have I := steady_ofGraph (Y.shaped.linked Y.loose) ⟨n, hn⟩ log tally
  have hends : Ends config method (.ofGraph g log tally) (run config method (.ofGraph g log tally)) :=
    stages_ends (fun stage w past h => (h.steady I stage w past rfl).length_lt) .start (Nat.le_add_left _ _)
  rw [h] at hends
  obtain ⟨past, hpasses⟩ := hends
  have hnothing : Known.Credits (fun _ => False) {} := ⟨by simp, by simp⟩
  have K : Heeds L [] g (.ofClasses g.classes) := ⟨Y, hled, .nil hnothing, by simp, .nil⟩
  have K' := hpasses.heeds I K .done w past rfl
  exact ⟨K'.layered, K'.led⟩

end Walk

end GuardElision
