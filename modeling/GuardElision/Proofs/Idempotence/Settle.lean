import GuardElision.Proofs.Idempotence.Posts
import Mathlib.Data.List.Chain

namespace GuardElision

/-- What is pushed for a post. -/
def Post.pushed (p : Post) : Assertion × NodeId :=
  (p.claim, p.guard)

namespace Graph

variable {V : Valuation} {stamp : NodeId → Stamp} {g h : Graph} {a x : NodeId}

/-- The values pass every guard, whether its test is a constant or not. -/
def GuardsPass (V : Valuation) (stamp : NodeId → Stamp) (g : Graph) : Prop :=
  ∀ q n negated reason x, g.get? q = some n → n.kind = .guard negated reason → n.inputs.head? = some x →
    (∀ value, g.condition x = .ok (.constant value) → value = !negated) ∧
      ∀ c, g.condition x = .ok (.predicate c) → Assertion.Passes V stamp ⟨c, c.testTruth !negated⟩

theorem EditsAt.condition_back (E : EditsAt a g h) (O : g.OverValues) {r : Canonical} (hr : h.condition x = .ok r) :
    g.condition x = .ok r := by
  obtain ⟨m, hm, hk⟩ := condition_isLogic hr
  obtain ⟨n, hn, hguard, -⟩ := E.back x m hm
  have hplain : ∀ n, g.get? x = some n → n.kind.isGuard = false := by
    intro n' hn'
    cases hn.symm.trans hn'
    exact hguard.symm.trans (Kind.isGuard_of_isLogic hk)
  obtain ⟨m', hm', hkind, -⟩ := (E.sameValue hplain).exists_node hn
  cases hm.symm.trans hm'
  rw [← E.condition_eq O hn (hkind ▸ hk), hr]

theorem EditsAt.guardsPass (E : EditsAt a g h) (O : g.OverValues) (P : g.GuardsPass V stamp) :
    h.GuardsPass V stamp := by
  intro q n negated reason x hn hk hx
  obtain ⟨i, m, hm, hkind, hinputs⟩ := E.test q n hn (by rw [hk]; rfl)
  obtain ⟨hconstant, hpredicate⟩ := P i m negated reason x hm (hkind.trans hk) (hinputs ▸ hx)
  exact ⟨fun value hv => hconstant value (E.condition_back O hv), fun c hc => hpredicate c (E.condition_back O hc)⟩

theorem Manned.length_lt {ps : List Post} {q : NodeId} {rest : List NodeId} (M : g.Manned a ps (q :: rest)) :
    ps.length < g.capacity := by
  have hinside : g.guardsAt a ⊆ List.range g.capacity := by
    intro id hid
    obtain ⟨n, hn, -⟩ := Graph.mem_guardsAt.mp hid
    exact List.mem_range.mpr (lt_capacity hn)
  have hsorted : (g.guardsAt a).Pairwise (· < ·) := Graph.select_sorted g _
  have hlength := (List.subperm_of_subset (hsorted.imp Nat.ne_of_lt) hinside).length_le
  rw [M.guards] at hlength
  simp only [List.length_append, List.length_map, List.length_cons, List.length_range] at hlength
  omega

end Graph

namespace Walk

open GuardElision.Graph (EditsAt)

variable {config : EliminationConfig} {method : Option MethodId} {V : Valuation} {stamp : NodeId → Stamp} {f : Facts}
  {a q : NodeId} {ps : List Post} {all : List (Assertion × NodeId)} {rest : List NodeId} {w w' : Walk}
  {r : Option DeferredEdit}

/-- The guards of an anchor are settled up to the rest. What was learnt from them was added to `f`, and
the posts left assert a part of it. -/
structure Settling (V : Valuation) (stamp : NodeId → Stamp) (f : Facts) (a : NodeId) (ps : List Post)
    (all : List (Assertion × NodeId)) (rest : List NodeId) (w : Walk) : Prop where
  overValues : w.graph.OverValues
  passes : w.graph.GuardsPass V stamp
  manned : w.graph.Manned a ps rest
  spread : ps.IsChain fun p p' => p.yieldsTo w.graph.classes p' = false
  facts : w.facts = f.pushAll all
  registers : f.Registers all
  asserted : ∀ p ∈ all, p.1.Passes V stamp
  part : (ps.map (·.claim)).Sublist (all.map Prod.fst)

namespace Settling

/-- A guard that is sure to pass goes. -/
theorem drop (S : Settling V stamp f a ps all (q :: rest) w) (method : Option MethodId) (source : Source) :
    EditsAt a w.graph (w.eliminateGuard method a q source).graph ∧
      Settling V stamp f a ps all rest (w.eliminateGuard method a q source) := by
  have E := EditsAt.drop (S.manned.mem_guardsAt List.mem_cons_self) (source.guard?.getD a)
  exact ⟨E, E.overValues S.overValues, E.guardsPass S.overValues S.passes, S.manned.drop S.overValues _, S.spread,
    S.facts, S.registers, S.asserted, S.part⟩

theorem learn (S : Settling V stamp f a ps all (q :: rest) w) {reason : Reason} {c : Condition} {truth : Bool}
    (hq : w.graph.HasPost a ⟨q, reason, ⟨c, truth⟩⟩) (hpass : Assertion.Passes V stamp ⟨c, truth⟩)
    (hnone : w.facts.lookup? c = none) {carrier : NodeId}
    (h : foldIntoEarlier method a reason c truth w.graph.capacity q w = .ok carrier w') :
    SameCourse w w' ∧ EditsAt a w.graph w'.graph ∧
      ∃ ps', Settling V stamp f a ps' (all ++ [(⟨c, truth⟩, carrier)]) rest
        { w' with facts := (w'.facts.push c truth carrier).2 } := by
  obtain ⟨hcourse, hfacts, E, hpost, kept, gone, rfl, M, hlast⟩ :=
    foldIntoEarlier_manned S.manned.length_lt S.overValues S.manned hq h
  refine ⟨hcourse, E, kept ++ [⟨carrier, reason, ⟨c, truth⟩⟩], E.overValues S.overValues,
    E.guardsPass S.overValues S.passes, ⟨?_, ?_⟩, ?_, ?_, ?_, ?_, ?_⟩
  · rw [M.guards]
    simp
  · intro p hp
    rcases List.mem_append.mp hp with hp | hp
    · exact M.posts p hp
    · obtain rfl := List.mem_singleton.mp hp
      exact hpost
  · show List.IsChain (fun p p' : Post => p.yieldsTo w'.graph.classes p' = false) _
    rw [E.classes]
    refine List.isChain_append.mpr ⟨S.spread.left_of_append, .singleton _, fun p hp p' hp' => ?_⟩
    obtain rfl : ⟨carrier, reason, ⟨c, truth⟩⟩ = p' := by simpa using hp'
    exact hlast p hp
  · show (w'.facts.push c truth carrier).2 = _
    rw [hfacts, S.facts, Facts.pushAll_append]
    rfl
  · refine Facts.registers_append.mpr ⟨S.registers, ?_, trivial⟩
    rw [← S.facts]
    exact hnone
  · intro p hp
    rcases List.mem_append.mp hp with hp | hp
    · exact S.asserted p hp
    · obtain rfl := List.mem_singleton.mp hp
      exact hpass
  · have hkept : (kept.map (·.claim)).Sublist (all.map Prod.fst) := by
      refine List.Sublist.trans ?_ S.part
      rw [List.map_append]
      exact List.sublist_append_left _ _
    rw [List.map_append, List.map_append]
    exact hkept.append (List.Sublist.refl _)

/-- What one guard does: it is decided and goes, or it is learnt. -/
theorem processGuard (S : Settling V stamp f a ps all (q :: rest) w) (hV : ∀ x, V.Admits ⟨x, stamp x⟩)
    (hclasses : f.classes = V.classes) (hfits : f.known.Fits V)
    (h : Walk.processGuard config method a q w = .ok r w') :
    r = none ∧ SameCourse w w' ∧ EditsAt a w.graph w'.graph ∧ ∃ ps' all', Settling V stamp f a ps' all' rest w' := by
  obtain ⟨n, negated, reason, x, hn, hkind, hx, hcases⟩ := processGuard_cases h
  obtain ⟨hconstant, hpredicate⟩ := S.passes q n negated reason x hn hkind hx
  have hgoes : ∀ holds source, holds = true → settleGuard config method a q reason holds source w = .ok r w' →
      r = none ∧ SameCourse w w' ∧ EditsAt a w.graph w'.graph ∧ ∃ ps' all', Settling V stamp f a ps' all' rest w' := by
    rintro _ source rfl h
    obtain ⟨_, rfl, rfl⟩ := (settleGuard_cases h).resolve_right (by simp)
    obtain ⟨E, S'⟩ := S.drop method source
    exact ⟨rfl, ⟨rfl, rfl, rfl, rfl, rfl⟩, E, ps, all, S'⟩
  rcases hcases with ⟨value, hvalue, h⟩ | ⟨c, hcanonical, hcases⟩
  · exact hgoes _ _ (decide_eq_true (hconstant value hvalue)) h
  · have hpass := hpredicate c hcanonical
    rcases hcases with ⟨e, hl, h⟩ | ⟨hl, rfl, carrier, w₁, hfold, rfl⟩
    · have hclasses' : w.facts.classes = V.classes := by rw [S.facts, Facts.pushAll_classes, hclasses]
      have hfits' : w.facts.known.Fits V := S.facts ▸ Facts.pushAll_fits hV hfits S.asserted S.registers
      exact hgoes _ _ (decide_eq_true (Facts.lookup?_holds hV hclasses' hfits' hpass hl)) h
    · obtain ⟨l, hl', -, ha⟩ := Graph.mem_guardsAt.mp (S.manned.mem_guardsAt List.mem_cons_self)
      cases hn.symm.trans hl'
      have hpost : w.graph.HasPost a ⟨q, reason, ⟨c, c.testTruth !negated⟩⟩ :=
        ⟨n, negated, x, c, hn, hkind, ha, hx, hcanonical, rfl⟩
      obtain ⟨⟨htree, hvisits, hvisited, hexcluded, hedited⟩, E, ps', S'⟩ := S.learn hpost hpass hl hfold
      exact ⟨rfl, ⟨htree, hvisits, hvisited, hexcluded, hedited⟩, E, ps', _, S'⟩

theorem processGuards (S : Settling V stamp f a ps all rest w) (hV : ∀ x, V.Admits ⟨x, stamp x⟩)
    (hclasses : f.classes = V.classes) (hfits : f.known.Fits V)
    (h : Walk.processGuards config method a rest w = .ok r w') :
    r = none ∧ SameCourse w w' ∧ EditsAt a w.graph w'.graph ∧ ∃ ps' all', Settling V stamp f a ps' all' [] w' := by
  induction rest generalizing w ps all with
  | nil =>
    obtain ⟨rfl, rfl⟩ := Attempt.pure_ok.mp h
    exact ⟨rfl, .refl w, .refl a _, ps, all, S⟩
  | cons q rest ih =>
    obtain ⟨edit?, w₁, hguard, h⟩ := Attempt.bind_ok.mp h
    obtain ⟨rfl, hcourse, E, ps₁, all₁, S₁⟩ := S.processGuard hV hclasses hfits hguard
    obtain ⟨hr, hcourse', E', ps', all', S'⟩ := ih S₁ h
    exact ⟨hr, hcourse.trans hcourse', E.trans E', ps', all', S'⟩

theorem undecided (S : Settling V stamp f a ps all rest w) (hV : ∀ x, V.Admits ⟨x, stamp x⟩) (hfits : f.known.Fits V) :
    ∀ p ∈ ps, Known.lookup? f.classes {} p.claim.condition = none := by
  intro p hp
  have hempty : Facts.NoMore V stamp (.ofClasses f.classes) f := ⟨rfl, .empty hfits⟩
  obtain ⟨pushed, hpushed, hclaim⟩ := List.mem_map.mp (S.part.subset (List.mem_map_of_mem hp))
  rw [← hclaim]
  exact hempty.undecided hV S.asserted S.registers pushed hpushed

end Settling

variable {p : Post} {front : List Post}

theorem foldIntoEarlier_stays {reason : Reason} {c : Condition} {truth : Bool}
    (h : redundantNeighbour? w.graph a q reason c truth = .ok none) (bound : Nat) :
    foldIntoEarlier method a reason c truth bound q w = .ok q w := by
  cases bound with
  | zero => rfl
  | succ bound => exact Attempt.bind_ok.mpr ⟨none, w, Attempt.ask_ok.mpr ⟨h, rfl⟩, rfl⟩

/-- A post that is undecided and to which the one before it does not yield stays, and is learnt. -/
theorem processGuard_stays (M : w.graph.Manned a front (p.guard :: rest)) (hp : w.graph.HasPost a p)
    (hlast : ∀ p' ∈ front.getLast?, p'.yieldsTo w.graph.classes p = false)
    (hnone : w.facts.lookup? p.claim.condition = none) :
    processGuard config method a p.guard w =
      .ok none { w with facts := (w.facts.push p.claim.condition p.claim.truth p.guard).2 } := by
  obtain ⟨n, negated, x, c, hn, hkind, ha, hx, hc, hclaim⟩ := hp
  obtain ⟨guard, reason, claim⟩ := p
  obtain rfl : claim = ⟨c, c.testTruth !negated⟩ := hclaim
  have hparts : guardParts w.graph guard = .ok (negated, reason, x) := by
    simp only [guardParts, Graph.node_eq_ok_iff.mpr hn, bind, Except.bind, hkind, expect_ok.mpr hx]
    rfl
  have hneighbour : redundantNeighbour? w.graph a guard reason c (c.testTruth !negated) = .ok none := by
    rw [M.redundantNeighbour?]
    cases hl : front.getLast? with
    | none => rfl
    | some p' => exact congrArg Except.ok (if_neg (Bool.not_eq_true _ ▸ hlast p' hl))
  refine Attempt.bind_ok.mpr ⟨_, w, Attempt.ask_ok.mpr ⟨hparts, rfl⟩, ?_⟩
  refine Attempt.bind_ok.mpr ⟨_, w, Attempt.ask_ok.mpr ⟨hc, rfl⟩, ?_⟩
  refine Attempt.bind_ok.mpr ⟨w, w, Attempt.get_ok.mpr ⟨rfl, rfl⟩, ?_⟩
  rw [hnone]
  refine Attempt.bind_ok.mpr ⟨w, w, Attempt.get_ok.mpr ⟨rfl, rfl⟩, ?_⟩
  refine Attempt.bind_ok.mpr ⟨guard, w, foldIntoEarlier_stays hneighbour _, ?_⟩
  exact Attempt.bind_ok.mpr ⟨(), _, Attempt.modify_ok.mpr rfl, Attempt.pure_ok.mpr ⟨rfl, rfl⟩⟩

/-- Posts of which none yields to the next stay where they are, if none of them is decided before it is
its turn. -/
theorem processGuards_stays (M : w.graph.Manned a (front ++ ps) [])
    (hspread : (front ++ ps).IsChain fun p p' => p.yieldsTo w.graph.classes p' = false)
    (hreg : w.facts.Registers (ps.map Post.pushed)) :
    processGuards config method a (ps.map Post.guard) w =
      .ok none { w with facts := w.facts.pushAll (ps.map Post.pushed) } := by
  induction ps generalizing front w with
  | nil => rfl
  | cons p ps ih =>
    obtain ⟨hnone, hreg⟩ := hreg
    have M' : w.graph.Manned a front (p.guard :: ps.map Post.guard) :=
      ⟨by rw [M.guards]; simp, fun s hs => M.posts s (List.mem_append_left _ hs)⟩
    have hlast : ∀ p' ∈ front.getLast?, p'.yieldsTo w.graph.classes p = false := fun p' hp' =>
      (List.isChain_append.mp hspread).2.2 p' hp' p rfl
    have hfirst : processGuard config method a p.guard w = _ :=
      processGuard_stays M' (M.posts p (by simp)) hlast hnone
    have hsplit : front ++ p :: ps = (front ++ [p]) ++ ps := by simp
    rw [hsplit] at M hspread
    exact Attempt.bind_ok.mpr ⟨none, _, hfirst, ih M hspread hreg⟩

end Walk

end GuardElision
