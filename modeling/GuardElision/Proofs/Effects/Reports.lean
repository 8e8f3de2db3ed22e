import GuardElision.Proofs.Effects.Walking
import GuardElision.Proofs.Effects.Rounds

namespace GuardElision

namespace Walk

variable {config : EliminationConfig} {E : Extent} {p q : Draft × Tally}

/-- A effect that is counted cannot be undone. -/
theorem Effect.told (W : p.1.graph.Within E) (h : Effect config E p q) :
    q.2.changed = p.2.changed ∨ ¬q.1.graph.MayBecome E p.1.graph := by
  have A := h.mayBecome W
  cases h with
  | count => exact Or.inl rfl
  | rebuild => exact Or.inl rfl
  | drop new hn hk =>
    refine Or.inr (A.not_back_of_removed hn ?_)
    rw [Graph.get?_delete, if_pos rfl]
  | move hn _ _ _ _ hmove =>
    refine Or.inr (A.not_back_of_removed hn ?_)
    obtain ⟨_, _, _, _, hget⟩ := Graph.moveTest_ok hmove
    rw [hget, if_pos rfl]
  | trap _ hreason hs hclean =>
    have A' := Graph.MayBecome.strengthenGuard (W.passes_new (Nat.le_refl _)) hreason hs
    have B := Graph.cleanUp_mayBecome (A'.within W) hclean
    exact Or.inr fun hback => Graph.MayBecome.not_back_of_strengthenGuard hs (B.trans hback)
  | fold _ hfold hclean =>
    have A' := Graph.MayBecome.foldBranch (E := E) hfold
    have B := Graph.cleanUp_mayBecome (A'.within W) hclean
    exact Or.inr fun hback => Graph.MayBecome.not_back_of_foldBranch hfold (B.trans hback)

theorem Effects.told (W : p.1.graph.Within E) (h : Effects config E p q) :
    q.2.changed = p.2.changed ∨ ¬q.1.graph.MayBecome E p.1.graph := by
  induction h with
  | refl => exact Or.inl rfl
  | @tail q r heffects heffect ih =>
    have A : p.1.graph.MayBecome E q.1.graph := Effects.mayBecome W heffects
    have W' := A.within W
    -- what was gone for good before stays gone, and what goes now was there
    rcases ih with hsame | hback
    · rcases heffect.told W' with hsame' | hback
      · exact Or.inl (hsame'.trans hsame)
      · exact Or.inr fun B => hback (B.trans A)
    · exact Or.inr fun B => hback ((heffect.mayBecome W').trans B)

end Walk

namespace Draft

variable {config : EliminationConfig} {method : Option MethodId} {E : Extent} {d d' : Draft}

/-- An elimination mayBecome the graph, for good if it counts anything. -/
theorem eliminate_mayBecome {tally : Tally} (W : d.graph.Within E) (h : eliminate config method d = .ok tally d') :
    d.graph.MayBecome E d'.graph ∧ (tally.changed = false ∨ ¬d'.graph.MayBecome E d.graph) := by
  obtain ⟨t, d₁, hwalks, h⟩ := Attempt.bind_ok.mp h
  have heffects := walks_effects W hwalks
  have A : d.graph.MayBecome E d₁.graph := heffects.mayBecome W
  have htold : t.changed = false ∨ ¬d₁.graph.MayBecome E d.graph := heffects.told W
  split at h
  next =>
    obtain ⟨changes, d₂, hcanonicalize, h⟩ := Attempt.bind_ok.mp h
    obtain ⟨rfl, rfl⟩ := Attempt.pure_ok.mp h
    obtain ⟨A', hchanges⟩ := canonicalize_mayBecome (A.within W) hcanonicalize
    refine ⟨A.trans A', ?_⟩
    rcases htold with hsame | hback
    · rcases hchanges with rfl | hback
      · refine Or.inl ?_
        simp only [Tally.changed, decide_eq_false_iff_not, Nat.not_lt, Nat.le_zero] at hsame ⊢
        simp only [List.length_nil]
        omega
      · exact Or.inr fun B => hback (B.trans A)
    · exact Or.inr fun B => hback (A'.trans B)
  next =>
    obtain ⟨rfl, rfl⟩ := Attempt.pure_ok.mp h
    exact ⟨A, htold⟩

/-- Eliminations and canonicalizations report a change exactly if they made one. -/
theorem reports_no_change_iff (config : EliminationConfig) (method : Option MethodId) (d d' : Draft) :
    (∀ tally, eliminate config method d = .ok tally d' →
      d'.graph.classes = d.graph.classes ∧ (tally.changed = false ↔ d'.graph.nodes = d.graph.nodes)) ∧
    ∀ changes, canonicalize method d = .ok changes d' →
      d'.graph.classes = d.graph.classes ∧ (changes.isEmpty = true ↔ d'.graph.nodes = d.graph.nodes) := by
  have hback : d'.graph.classes = d.graph.classes → d'.graph.nodes = d.graph.nodes → d'.graph.MayBecome .all d.graph := by
    intro hclasses hnodes
    have hgraph : d'.graph = d.graph := by
      cases hd : d.graph
      cases hd' : d'.graph
      simp_all
    exact hgraph ▸ .refl .all d.graph
  constructor
  · intro tally h
    obtain ⟨A, htold⟩ := eliminate_mayBecome d.graph.within_all h
    refine ⟨A.classes, fun hsame => congrArg Graph.nodes (eliminate_unchanged h hsame), fun hnodes => ?_⟩
    exact htold.resolve_right fun hno => hno (hback A.classes hnodes)
  · intro changes h
    obtain ⟨A, htold⟩ := canonicalize_mayBecome d.graph.within_all h
    refine ⟨A.classes, fun hsame => congrArg Graph.nodes (canonicalize_unchanged h ?_), fun hnodes => ?_⟩
    · simp_all [Changes.isEmpty]
    · rw [htold.resolve_right fun hno => hno (hback A.classes hnodes)]
      rfl

/-- Of two guards on one condition the elimination removes the second, and canonicalizing alone finds nothing
to do. -/
theorem reports_no_change_iff_twice :
    let g : Graph :=
      ⟨#[{ kind := .start, successors := [7] }, { kind := .parameter 0, stamp := .int .full },
        { kind := .constant (.int 10), stamp := .int (.constant 10) },
        { kind := .compare .lt, inputs := [1, 2], stamp := .logic },
        { kind := .guard false .boundsCheck, inputs := [3], anchor := some 0 },
        { kind := .guard false .unreached, inputs := [3], anchor := some 0 },
        { kind := .pi, inputs := [1], guard := some 5, stamp := .int .full },
        { kind := .ret, inputs := [6], predecessors := [0] }], .root⟩
    (∃ tally d', eliminate {} none ⟨g, {}⟩ = .ok tally d' ∧ tally.changed = true ∧ d'.graph.nodes ≠ g.nodes) ∧
    ∃ changes d', canonicalize none ⟨g, {}⟩ = .ok changes d' ∧ changes.isEmpty = true ∧ d'.graph.nodes = g.nodes := by
  intro g
  constructor
  · have hcount : (eliminate {} none).result ⟨g, {}⟩ = .ok { guardsEliminated := 1, walks := 1 } := by decide +kernel
    obtain ⟨d', hrun⟩ := Attempt.result_eq_ok.mp hcount
    refine ⟨_, d', hrun, rfl, fun hnodes => ?_⟩
    have hsame := ((reports_no_change_iff {} none ⟨g, {}⟩ d').1 _ hrun).2.mpr hnodes
    cases hsame
  · have hcount : (canonicalize none).result ⟨g, {}⟩ = .ok {} := by decide +kernel
    obtain ⟨d', hrun⟩ := Attempt.result_eq_ok.mp hcount
    exact ⟨{}, d', hrun, rfl, ((reports_no_change_iff {} none ⟨g, {}⟩ d').2 {} hrun).2.mp rfl⟩

end Draft

end GuardElision
