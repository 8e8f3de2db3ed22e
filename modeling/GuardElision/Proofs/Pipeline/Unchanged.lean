import GuardElision.Pipeline.Pass
import GuardElision.Proofs.Effects.Walking

namespace GuardElision

namespace Graph

variable {g : Graph}

theorem mem_removed_of_strengthenGuard {anchor guard : NodeId} {reason : Reason} {s : Strengthened} {g' : Graph}
    (hguard : guard ∈ g.guardsAt anchor) (h : g.strengthenGuard anchor guard reason = .ok (s, g')) :
    guard ∈ s.removed := by
  obtain ⟨q, hq, hk, ha⟩ := mem_guardsAt.mp hguard
  have hne : guard ≠ g.capacity := Nat.ne_of_lt (lt_capacity hq)
  have hadd : (g.add { kind := .deoptimize reason, synthetic := true }).2.get? guard = some q := by
    rw [get?_add _ _ rfl, if_neg hne, hq]
  obtain ⟨g₁, hedge, hremoved, _⟩ := strengthenGuard_steps h
  rw [hremoved]
  refine List.mem_filter.mpr ⟨mem_guardsAt.mpr ?_, by simp⟩
  rcases hedge with ⟨old, hedge⟩ | hedge
  · obtain ⟨_, _, _, _, _, _, hview⟩ := redirectEdge_ok hedge
    rw [hview, hadd]
    exact ⟨_, rfl, hk, ha⟩
  · obtain ⟨_, _, hview⟩ := addEdge_ok hedge
    rw [hview, hadd]
    exact ⟨_, rfl, hk, ha⟩

end Graph

namespace Round

variable {r r' : Round} {method : Option MethodId} {u : PUnit}

theorem Edit.noted (h : Edit r r') : r'.changes.nodes ≠ [] := by
  cases h with
  | decide => simp [Changes.noteAll]
  | drop => simp [Changes.noteAll]
  | trap hn hk ha _ _ hs =>
    have hmem := Graph.mem_removed_of_strengthenGuard (Graph.mem_guardsAt.mpr ⟨_, hn, by rw [hk]; rfl, ha⟩) hs
    simp [Changes.noteAll, Changes.noteEdge, List.ne_nil_of_mem hmem]
  | fold => simp [Changes.noteAll, Changes.noteEdge]

theorem edits_noted (h : Relation.ReflTransGen Edit r r') : r' = r ∨ r'.changes.nodes ≠ [] :=
  h.cases_tail.imp_right fun ⟨_, _, hedit⟩ => hedit.noted

/-- What edits, cleaning up behind them and sweeping keep, a round keeps. -/
theorem run_induct {P : Round → Prop} (hedit : ∀ r r', P r → Edit r r' → P r')
    (hclean : ∀ r c k, P r → r.changes.nodes ≠ [] → Graph.cleanUp r.seeds r.graph = .ok c k →
      P ⟨⟨k, r.draft.log⟩, r.changes.append c, r.seeds⟩)
    (hdrop : ∀ r id n (e : Event), P r → r.graph.get? id = some n → n.kind.isPure = true → e.kind = .nodeRemoved →
      P ⟨⟨r.graph.delete id, r.draft.log.record e⟩, r.changes.noteAll [id], r.seeds⟩)
    (hseeds : r.seeds = []) (hr : P r) (h : run method r = .ok u r') : P r' := by
  obtain ⟨r₁, r₂, E, hcleaned, rfl⟩ := run_edits h
  have hr₁ : P r₁ := edits_keep hedit hr E
  refine sweepUnused_induct (fun r id n e hr hn hk _ he => hdrop r id n e hr hn hk he) _ ?_
  rcases cleanSeeds_cases hcleaned with ⟨-, rfl⟩ | ⟨hsome, c, k, hk, rfl⟩
  · exact hr₁
  · refine hclean r₁ c k hr₁ ((edits_noted E).resolve_left ?_) hk
    rintro rfl
    exact hsome hseeds

theorem run_idle (hseeds : r.seeds = []) (h : run method r = .ok u r') : r' = r ∨ r'.changes.nodes ≠ [] := by
  refine run_induct (P := fun r' => r' = r ∨ r'.changes.nodes ≠ []) (fun _ _ _ hedit => Or.inr hedit.noted)
    (fun _ _ _ _ hnoted _ => Or.inr ?_) (fun _ _ _ _ _ _ _ _ => Or.inr ?_) hseeds (Or.inl rfl) h
  · simp [Changes.append, hnoted]
  · simp [Changes.noteAll]

end Round

namespace Draft

variable {method : Option MethodId} {d d' : Draft}

theorem canonicalizeOnce_unchanged {changes : Changes} (h : canonicalizeOnce method d = .ok changes d')
    (hn : changes.nodes = []) : d'.graph = d.graph ∧ changes.isEmpty = true := by
  unfold canonicalizeOnce at h
  split at h
  next r hrun =>
    obtain ⟨rfl, rfl⟩ := EStateM.Result.ok.inj h
    obtain rfl := (Round.run_idle rfl hrun).resolve_right (not_not.mpr hn)
    exact ⟨rfl, rfl⟩
  next => cases h

theorem canonicalizeRounds_unchanged {bound : Nat} {total changes : Changes}
    (h : canonicalizeRounds method bound total d = .ok changes d') (hn : changes.nodes = []) :
    d'.graph = d.graph ∧ total.nodes = [] := by
  induction bound generalizing total d with
  | zero =>
    obtain ⟨rfl, rfl⟩ := Attempt.pure_ok.mp h
    exact ⟨rfl, hn⟩
  | succ bound ih =>
    obtain ⟨round, d₁, honce, h⟩ := Attempt.bind_ok.mp h
    split at h
    next hempty =>
      obtain ⟨rfl, rfl⟩ := Attempt.pure_ok.mp h
      have hround : round.nodes = [] := by simp_all [Changes.isEmpty]
      exact ⟨(canonicalizeOnce_unchanged honce hround).1, hn⟩
    next hsome =>
      have hround := List.append_eq_nil_iff.mp (ih h).2
      exact absurd (canonicalizeOnce_unchanged honce hround.2).2 hsome

theorem canonicalize_unchanged {changes : Changes} (h : canonicalize method d = .ok changes d')
    (hn : changes.nodes = []) : d'.graph = d.graph := by
  have h := Attempt.get_bind_ok.mp h
  exact (canonicalizeRounds_unchanged h hn).1

end Draft

namespace Tally

/-- The rewrites a walk has counted. -/
def rewrites (t : Tally) : Nat :=
  t.guardsEliminated + t.guardsStrengthened + t.branchesFolded

end Tally

namespace Walk

variable {config : EliminationConfig} {E : Extent} {p q : Draft × Tally}

/-- A effect that changes the graph is counted. -/
theorem Effect.idle (h : Effect config E p q) (hq : q.2.rewrites = 0) : q.1.graph = p.1.graph ∧ p.2.rewrites = 0 := by
  cases h with
  | count => exact ⟨rfl, hq⟩
  | rebuild => exact ⟨rfl, hq⟩
  | _ =>
    simp only [Tally.rewrites] at hq
    omega

theorem Effects.idle (h : Effects config E p q) (hq : q.2.rewrites = 0) : q.1.graph = p.1.graph := by
  induction h with
  | refl => rfl
  | tail _ heffect ih =>
    obtain ⟨hgraph, hrewrites⟩ := heffect.idle hq
    exact hgraph.trans (ih hrewrites)

end Walk

namespace Draft

variable {config : EliminationConfig} {method : Option MethodId} {d d' : Draft}

/-- An elimination that counts nothing changes nothing. -/
theorem eliminate_unchanged {tally : Tally} (h : eliminate config method d = .ok tally d')
    (ht : tally.changed = false) : d'.graph = d.graph := by
  obtain ⟨t, d₁, hwalks, h⟩ := Attempt.bind_ok.mp h
  have hd₁ : t.rewrites = 0 → d₁.graph = d.graph := (walks_effects d.graph.within_all hwalks).idle
  split at h
  next =>
    obtain ⟨changes, d₂, hcanon, h⟩ := Attempt.bind_ok.mp h
    obtain ⟨rfl, rfl⟩ := Attempt.pure_ok.mp h
    simp only [Tally.changed, decide_eq_false_iff_not, Nat.not_lt, Nat.le_zero] at ht
    have hnodes : changes.nodes = [] := List.length_eq_zero_iff.mp (by omega)
    rw [canonicalize_unchanged hcanon hnodes]
    exact hd₁ (by simp only [Tally.rewrites]; omega)
  next =>
    obtain ⟨rfl, rfl⟩ := Attempt.pure_ok.mp h
    simp only [Tally.changed, decide_eq_false_iff_not, Nat.not_lt, Nat.le_zero] at ht
    exact hd₁ (by simp only [Tally.rewrites]; omega)

end Draft

end GuardElision
