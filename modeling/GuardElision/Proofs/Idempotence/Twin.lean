import GuardElision.Proofs.Idempotence.Straight

namespace GuardElision

namespace Walk

open GuardElision.Graph (EditsAt SameControl)

variable {config : EliminationConfig} {method : Option MethodId} {V : Valuation} {stamp : NodeId → Stamp} {g : Graph}
  {w₀ w w' w₁ w₂ : Walk} {stage next : Stage} {a node : NodeId} {ps : List Post} {past : List (Stage × Walk)} {bound : Nat}

namespace Moves

theorem visited (M : Moves V stamp stage w next w') (ha : a ∈ w.visited) : a ∈ w'.visited ∧ next ≠ .process a := by
  cases M with
  | descend hnew =>
    refine ⟨List.mem_cons_of_mem _ ha, fun hs => hnew ?_⟩
    rw [Stage.process.inj hs]
    exact ha
  | process _ hcourse _ _ hnext =>
    obtain ⟨_, rfl, _⟩ := nextStage_ok hnext
    rw [← hcourse.visited] at ha
    exact ⟨ha, nextStage_ne_process hnext a⟩
  | ascend _ _ _ hnext =>
    obtain ⟨_, rfl, _⟩ := nextStage_ok hnext
    exact ⟨ha, nextStage_ne_process hnext a⟩

theorem manned (M : Moves V stamp stage w next w') (O : w.graph.OverValues) (hstage : stage ≠ .process a)
    (hm : w.graph.Manned a ps []) : w'.graph.Manned a ps [] := by
  cases M with
  | descend => exact hm
  | process _ _ hedits _ hnext =>
    obtain ⟨_, rfl, _⟩ := nextStage_ok hnext
    exact hedits.manned O (fun he => hstage (he ▸ rfl)) hm
  | ascend _ _ _ hnext =>
    obtain ⟨_, rfl, _⟩ := nextStage_ok hnext
    exact hm

end Moves

theorem stages_manned (hg : g.Straight) (hV : ∀ x, V.Admits ⟨x, stamp x⟩) {limit : Nat} (I : Steady limit past stage w)
    (E : Calm V stamp g w) (ha : a ∈ w.visited) (hstage : stage ≠ .process a) (hm : w.graph.Manned a ps [])
    {u : Unit} (h : stages config method bound stage w = .ok u w') : w'.graph.Manned a ps [] := by
  induction bound generalizing past stage w with
  | zero =>
    obtain ⟨-, rfl⟩ := Attempt.pure_ok.mp h
    exact hm
  | succ bound ih =>
    by_cases hdone : stage = .done
    · subst hdone
      obtain ⟨-, rfl⟩ := Attempt.pure_ok.mp h
      exact hm
    · rw [stages_succ config method bound hdone] at h
      obtain ⟨next, w₁, hadvance, h⟩ := Attempt.bind_ok.mp h
      have M := E.moves hg hV I hdone hadvance
      obtain ⟨ha', hnext⟩ := M.visited ha
      exact ih (I.advance hdone hadvance) (M.calm hV E) ha' hnext (M.manned E.overValues hstage hm) h

/-- The second walk, begun as `w₀`, is where the first one was, and has not rewritten anything. -/
structure Twin (V : Valuation) (stamp : NodeId → Stamp) (w₀ w w₂ : Walk) : Prop where
  graph : w₂.graph = w₀.graph
  log : w₂.log = w₀.log
  tally : w₂.tally = w₀.tally
  course : SameCourse w w₂
  classes : w₂.facts.classes = w.facts.classes
  scopes : List.Forall₂ (Known.NoMore V stamp) w₂.facts.scopes w.facts.scopes

namespace Twin

theorem goOn (T : Twin V stamp w₀ w w₂) (h : w.nextStage = (next, w')) :
    ∃ w₂', w₂.nextStage = (next, w₂') ∧ Twin V stamp w₀ w' w₂' := by
  obtain ⟨htree, hvisits, hvisited, hexcluded, hedited⟩ := T.course
  unfold nextStage
  rw [hvisits]
  obtain ⟨hnil, rfl, rfl⟩ | ⟨v, outer, hv, ⟨hp, rfl, rfl⟩ | ⟨c, pending, hp, rfl, rfl⟩⟩ := nextStage_cases h
  · rw [hnil]
    exact ⟨w₂, rfl, T⟩
  · simp only [hv, hp]
    exact ⟨w₂, rfl, T⟩
  · simp only [hv, hp]
    exact ⟨_, rfl, T.graph, T.log, T.tally, ⟨htree, rfl, hvisited, hexcluded, hedited⟩, T.classes, T.scopes⟩

/-- Both walks find the same children to enter. -/
theorem list (T : Twin V stamp w₀ w w₂) (hg : g.Straight) (C : SameControl g w₀.graph) (C' : SameControl g w.graph)
    (htree : w.dominators = g.dominators) (node : NodeId) (outer : List Visit) :
    Twin V stamp w₀ (w.list node outer) (w₂.list node outer) := by
  have hchildren : w₂.childrenToEnter { node } = w.childrenToEnter { node } := by
    unfold childrenToEnter pendingChildren
    rw [T.course.dominators, T.course.visited, T.course.excluded, T.graph, htree]
    refine if_congr Iff.rfl rfl (List.filter_congr fun c hc => ?_)
    have hreach : g.Reach c := Graph.Dom.reach (g.current_dominators.dominated node c hc).2
    obtain ⟨m, hm, -⟩ := hg.exists_node C hreach
    obtain ⟨n, hn, -⟩ := hg.exists_node C' hreach
    rw [Graph.isLive_iff.mpr ⟨m, hm⟩, Graph.isLive_iff.mpr ⟨n, hn⟩]
  obtain ⟨htree, -, hvisited, hexcluded, hedited⟩ := T.course
  refine ⟨T.graph, T.log, T.tally, ⟨htree, ?_, hvisited, hexcluded, hedited⟩, T.classes, T.scopes⟩
  exact congrArg (fun pending => { node, pending } :: outer) hchildren

theorem enter (T : Twin V stamp w₀ w w₂) (node : NodeId) : Twin V stamp w₀ (w.enter node) (w₂.enter node) := by
  obtain ⟨htree, hvisits, hvisited, hexcluded, hedited⟩ := T.course
  refine ⟨T.graph, T.log, T.tally, ⟨htree, ?_, ?_, hexcluded, hedited⟩, T.classes, ?_⟩
  · show { node } :: w₂.visits = { node } :: w.visits
    rw [hvisits]
  · show node :: w₂.visited = node :: w.visited
    rw [hvisited]
  · show List.Forall₂ _ w₂.facts.enterScope.scopes w.facts.enterScope.scopes
    rw [Facts.scopes_enterScope, Facts.scopes_enterScope]
    exact .cons (List.forall₂_cons.mp T.scopes).1 T.scopes

theorem close (T : Twin V stamp w₀ w w₂) (outer : List Visit) : Twin V stamp w₀ (w.close outer) (w₂.close outer) := by
  obtain ⟨htree, -, hvisited, hexcluded, hedited⟩ := T.course
  have hclasses : w₂.facts.exitScope.classes = w.facts.exitScope.classes := by
    rw [Facts.exitScope_classes, Facts.exitScope_classes, T.classes]
  refine ⟨T.graph, T.log, T.tally, ⟨htree, rfl, hvisited, hexcluded, hedited⟩, hclasses, ?_⟩
  have houter := (List.forall₂_cons.mp T.scopes).2
  show List.Forall₂ _ w₂.facts.exitScope.scopes w.facts.exitScope.scopes
  rw [Facts.scopes_exitScope, Facts.scopes_exitScope]
  cases ho : w.facts.outer with
  | nil =>
    rw [ho, List.forall₂_nil_right_iff] at houter
    rw [if_pos rfl, if_pos houter]
    exact T.scopes
  | cons known rest =>
    rw [ho] at houter
    have hne : w₂.facts.outer ≠ [] := by
      intro hnil
      rw [hnil] at houter
      cases houter
    rw [if_neg (List.cons_ne_nil known rest), if_neg hne]
    exact houter

/-- Where the posts that the first walk leaves still stand, the second walk leaves them as they are. -/
theorem process {all : List (Assertion × NodeId)} {outer : List Visit} (T : Twin V stamp w₀ w w₂) (hg : g.Straight)
    (hV : ∀ x, V.Admits ⟨x, stamp x⟩) (C : SameControl g w₀.graph) (hclasses : w₀.graph.classes = g.classes)
    (hreach : g.Reach node) (E : Calm V stamp g w) (hv : w.visits = { node } :: outer) (hcourse : SameCourse w w₁)
    (hedits : EditsAt node w.graph w₁.graph) (S : Settling V stamp w.facts node ps all [] w₁)
    (hstays : w₀.graph.Manned node ps []) (hnext : (w₁.list node outer).nextStage = (next, w')) :
    ∃ w₂', Walk.process config method node w₂ = .ok next w₂' ∧ Twin V stamp w₀ w' w₂' := by
  have hpart : ((ps.map Post.pushed).map Prod.fst).Sublist (all.map Prod.fst) := by
    rw [List.map_map]
    exact S.part
  obtain ⟨hknown, houter⟩ := List.forall₂_cons.mp T.scopes
  have hfewer : Facts.NoMore V stamp w₂.facts w.facts := ⟨T.classes, hknown⟩
  obtain ⟨hreg, hfewer'⟩ := hfewer.pushAll hV S.asserted S.registers hpart
  have hspread : ([] ++ ps).IsChain fun p p' : Post => p.yieldsTo w₂.graph.classes p' = false := by
    rw [T.graph, hclasses, ← E.sameClasses, ← hedits.classes]
    exact S.spread
  have hmanned : w₂.graph.Manned node ([] ++ ps) [] := by
    rw [T.graph]
    exact hstays
  have hguards : w₂.graph.guardsAt node = ps.map Post.guard := by rw [T.graph, hstays.guards, List.append_nil]
  have hstay : processGuards config method node (w₂.graph.guardsAt node) w₂ = _ :=
    hguards ▸ processGuards_stays hmanned hspread hreg
  obtain ⟨n, hn, -, hb⟩ := hg.exists_node C hreach
  have T' : Twin V stamp w₀ w₁ { w₂ with facts := w₂.facts.pushAll (ps.map Post.pushed) } := by
    refine ⟨T.graph, T.log, T.tally, ⟨?_, ?_, ?_, ?_, ?_⟩, ?_, ?_⟩
    · exact T.course.dominators.trans hcourse.dominators.symm
    · exact T.course.visits.trans hcourse.visits.symm
    · exact T.course.visited.trans hcourse.visited.symm
    · exact T.course.excluded.trans hcourse.excluded.symm
    · exact T.course.edited.trans hcourse.edited.symm
    · rw [S.facts]
      exact hfewer'.classes
    · rw [S.facts]
      refine .cons hfewer'.known ?_
      rw [Facts.pushAll_outer, Facts.pushAll_outer]
      exact houter
  have T'' := T'.list hg C (E.control.trans hedits.sameControl) (hcourse.dominators.trans E.dominators) node outer
  obtain ⟨w₂', hnext', T₂⟩ := T''.goOn hnext
  exact ⟨w₂', process_eq (T.course.visits.trans hv) (T.graph ▸ hn) hb hstay rfl hnext', T₂⟩

end Twin

/-- The second walk comes to its end without a rewrite. -/
theorem stages_again {bound' : Nat} (hle : bound' ≤ bound) (hg : g.Straight) (hV : ∀ x, V.Admits ⟨x, stamp x⟩)
    (hVclasses : V.classes = g.classes) (C : SameControl g w₀.graph) (hclasses : w₀.graph.classes = g.classes)
    {limit : Nat} (I : Steady limit past stage w) (E : Calm V stamp g w) (T : Twin V stamp w₀ w w₂) {u : Unit}
    (h : stages config method bound stage w = .ok u w')
    (hstand : ∀ a ps, w'.graph.Manned a ps [] → (∀ p ∈ ps, Known.lookup? g.classes {} p.claim.condition = none) →
      w₀.graph.Manned a ps []) :
    ∃ w₂', stages config method bound' stage w₂ = .ok () w₂' ∧ w₂'.graph = w₀.graph ∧ w₂'.log = w₀.log ∧
      w₂'.tally = w₀.tally ∧ w₂'.edited = false := by
  induction bound' generalizing bound past stage w w₂ with
  | zero => exact ⟨w₂, rfl, T.graph, T.log, T.tally, T.course.edited.trans E.edited⟩
  | succ bound' ih =>
    by_cases hdone : stage = .done
    · subst hdone
      exact ⟨w₂, rfl, T.graph, T.log, T.tally, T.course.edited.trans E.edited⟩
    · obtain ⟨bound, rfl⟩ : ∃ n, bound = n + 1 := ⟨bound - 1, by omega⟩
      rw [stages_succ config method bound hdone] at h
      obtain ⟨next, w₁, hadvance, hrest⟩ := Attempt.bind_ok.mp h
      have I' := I.advance hdone hadvance
      have M := E.moves hg hV I hdone hadvance
      have E' := M.calm hV E
      -- one transition of the second walk for one of the first
      suffices hstep : ∃ w₂₁, advance config method stage w₂ = .ok next w₂₁ ∧ Twin V stamp w₀ w₁ w₂₁ by
        obtain ⟨w₂₁, hadvance₂, T'⟩ := hstep
        obtain ⟨w₂', hstages, hend⟩ := ih (Nat.le_of_succ_le_succ hle) I' E' T' hrest
        rw [stages_succ config method bound' hdone]
        exact ⟨w₂', Attempt.bind_ok.mpr ⟨next, w₂₁, hadvance₂, hstages⟩, hend⟩
      cases id M with
      | @descend node _ hnew =>
        have hreach : g.Reach node := (E.reach_iff hg).mp I.fresh.2.1
        exact ⟨_, descend_enters (T.graph ▸ hg.armCondition? C hreach), T.enter node⟩
      | @process node outer _ w₃ _ _ ps all hv hcourse hedits S hnext =>
        have hreach : g.Reach node := (E.reach_iff hg).mp (I.nested.reached node (by simp [hv]))
        obtain ⟨hvisited, hstage⟩ := M.visited (E.waiting { node } (by simp [hv])).1
        have hmanned : w₁.graph.Manned node ps [] := by
          obtain ⟨_, rfl, _⟩ := nextStage_ok hnext
          exact S.manned
        have hend := stages_manned hg hV I' E' hvisited hstage hmanned hrest
        have hopen := S.undecided hV (E.fits _ List.mem_cons_self)
        rw [E.classes, hVclasses] at hopen
        exact T.process hg hV C hclasses hreach E hv hcourse hedits S (hstand node ps hend hopen) hnext
      | @ascend node v outer _ _ _ hv hnone _ hnext =>
        obtain ⟨w₂', hnext', T'⟩ := (T.close outer).goOn hnext
        exact ⟨w₂', ascend_closes (T.course.visits.trans hv) hnone hnext', T'⟩

end Walk

end GuardElision
