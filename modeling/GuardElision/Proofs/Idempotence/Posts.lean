import GuardElision.Proofs.Elimination.Transitions
import GuardElision.Proofs.Facts.Monotone
import GuardElision.Proofs.Idempotence.Reading

namespace GuardElision

/-- A guard with what it asserts. -/
structure Post where
  guard : NodeId
  reason : Reason
  claim : Assertion

/-- The test of `p` is redundant before that of `q`, and the two trap alike. -/
def Post.yieldsTo (classes : ClassTable) (p q : Post) : Bool :=
  p.reason = q.reason && Facts.implies classes q.claim.condition q.claim.truth p.claim.condition p.claim.truth

namespace Graph

variable {g h : Graph} {a b q : NodeId} {p : Post} {ps : List Post} {rest : List NodeId}

/-- The guard of the post stands at the anchor and asserts what the post says. -/
def HasPost (g : Graph) (a : NodeId) (p : Post) : Prop :=
  ∃ n negated x c, g.get? p.guard = some n ∧ n.kind = .guard negated p.reason ∧ n.anchor = some a ∧
    n.inputs.head? = some x ∧ g.condition x = .ok (.predicate c) ∧ p.claim = ⟨c, c.testTruth !negated⟩

theorem HasPost.mem_guardsAt (hp : g.HasPost a p) : p.guard ∈ g.guardsAt a := by
  obtain ⟨n, negated, x, c, hn, hk, ha, -⟩ := hp
  exact Graph.mem_guardsAt.mpr ⟨n, hn, by rw [hk]; rfl, ha⟩

/-- A post stays where its guard and the test of the guard do. -/
theorem HasPost.transfer (hp : g.HasPost a p)
    (hguard : ∀ n, g.get? p.guard = some n → ∃ guard, h.get? p.guard = some { n with guard })
    (hcondition : ∀ n x, g.get? p.guard = some n → n.inputs.head? = some x →
      g.condition x = .ok (.predicate p.claim.condition) → h.condition x = .ok (.predicate p.claim.condition)) :
    h.HasPost a p := by
  obtain ⟨n, negated, x, c, hn, hk, ha, hx, hc, hclaim⟩ := hp
  obtain ⟨guard, hm⟩ := hguard n hn
  rw [hclaim] at hcondition
  exact ⟨_, negated, x, c, hm, hk, ha, hx, hcondition n x hn hx hc, hclaim⟩

theorem guardsAt_eq {l : List NodeId} (hl : l.Pairwise (· < ·)) (hmem : ∀ id, id ∈ h.guardsAt a ↔ id ∈ l) :
    h.guardsAt a = l :=
  (Graph.select_sorted h _).eq_of_mem_iff hl hmem

theorem EditsAt.guardsAt_eq (E : EditsAt b g h) (hab : a ≠ b) : h.guardsAt a = g.guardsAt a := by
  refine Graph.guardsAt_eq (Graph.select_sorted g _) fun id => ?_
  rw [Graph.mem_guardsAt, Graph.mem_guardsAt]
  constructor
  · rintro ⟨n, hn, hg, ha⟩
    obtain ⟨m, hm, hguard, hanchor⟩ := E.back id n hn
    exact ⟨m, hm, hguard ▸ hg, hanchor ▸ ha⟩
  · rintro ⟨n, hn, hg, ha⟩
    obtain ⟨guard, hm⟩ := E.keep id n hn fun _ hb => hab (Option.some.inj (ha.symm.trans hb))
    exact ⟨_, hm, hg, ha⟩

theorem EditsAt.hasPost (E : EditsAt b g h) (O : g.OverValues) (hab : a ≠ b) (hp : g.HasPost a p) : h.HasPost a p := by
  refine hp.transfer (fun n hn => ?_) fun _ x _ _ hr => E.condition_ok O hr
  obtain ⟨m, negated, x, c, hm, hk, ha, -⟩ := hp
  cases hn.symm.trans hm
  exact E.keep p.guard n hn fun _ hb => hab (Option.some.inj (ha.symm.trans hb))

theorem EditsAt.guardsAt_without (E : EditsAt a g h) {l : List NodeId} (hq : h.get? q = none)
    (hkeep : ∀ j ∈ g.guardsAt a, j ≠ q → ∃ n, h.get? j = some n) (hg : g.guardsAt a = l ++ q :: rest) :
    h.guardsAt a = l ++ rest := by
  have hsorted : (g.guardsAt a).Pairwise (· < ·) := Graph.select_sorted g _
  rw [hg] at hsorted
  have hsub : (l ++ rest).Sublist (l ++ q :: rest) := (List.sublist_cons_self q rest).append_left l
  have hnotin : q ∉ l ++ rest := (List.nodup_cons.mp (List.nodup_middle.mp (hsorted.imp Nat.ne_of_lt))).1
  refine Graph.guardsAt_eq (hsorted.sublist hsub) fun id => ?_
  have hne : id ∈ l ++ rest ↔ id ∈ g.guardsAt a ∧ id ≠ q := by
    rw [hg]
    refine ⟨fun hid => ⟨hsub.subset hid, fun he => hnotin (he ▸ hid)⟩, fun ⟨hid, hid'⟩ => ?_⟩
    simpa [hid'] using hid
  rw [hne, Graph.mem_guardsAt]
  constructor
  · rintro ⟨n, hn, hguard, ha⟩
    obtain ⟨m, hm, hguard', ha'⟩ := E.back id n hn
    refine ⟨Graph.mem_guardsAt.mpr ⟨m, hm, hguard' ▸ hguard, ha' ▸ ha⟩, ?_⟩
    rintro rfl
    cases hn.symm.trans hq
  · rintro ⟨hmem, hid⟩
    obtain ⟨n, hn⟩ := hkeep id hmem hid
    obtain ⟨m, hm, hguard, ha⟩ := E.back id n hn
    obtain ⟨m', hm', hg', ha'⟩ := Graph.mem_guardsAt.mp hmem
    cases hm.symm.trans hm'
    exact ⟨n, hn, hguard.trans hg', ha.trans ha'⟩

theorem EditsAt.drop (hq : q ∈ g.guardsAt a) (o : NodeId) : EditsAt a g ((g.replaceGuard q (some o)).delete q) := by
  obtain ⟨l, hl, hlg, hla⟩ := Graph.mem_guardsAt.mp hq
  have hback : ∀ j n, ((g.replaceGuard q (some o)).delete q).get? j = some n → ∃ m guard, g.get? j = some m ∧
      n = { m with guard } := by
    intro j n hn
    rw [get?_dropGuard] at hn
    split at hn
    next => cases hn
    next =>
      obtain ⟨m, hm, rfl⟩ := Option.map_eq_some_iff.mp hn
      exact ⟨m, _, hm, rfl⟩
  refine ⟨rfl, ?_, fun j n hn hother => ?_, fun j n hn => ?_, fun j n hn _ => ?_⟩
  · rw [capacity_delete, replaceGuard, capacity_mapLive]
  · have hj : j ≠ q := by
      rintro rfl
      cases hn.symm.trans hl
      exact hother hlg hla
    exact ⟨_, by rw [get?_dropGuard, if_neg hj, hn]; rfl⟩
  · obtain ⟨m, guard, hm, rfl⟩ := hback j n hn
    exact ⟨m, hm, rfl, rfl⟩
  · obtain ⟨m, guard, hm, rfl⟩ := hback j n hn
    exact ⟨j, m, hm, rfl, rfl⟩

theorem EditsAt.move {r : NodeId} (hq : q ∈ g.guardsAt a) (hr : r ∈ g.guardsAt a)
    (hmove : Walk.moveTest g r q = .ok h) : EditsAt a g h := by
  obtain ⟨n, hn, hclasses, hcap, hget⟩ := moveTest_ok hmove
  obtain ⟨n', hn', hng, hna⟩ := Graph.mem_guardsAt.mp hr
  cases hn.symm.trans hn'
  obtain ⟨k, hk, hkg, hka⟩ := Graph.mem_guardsAt.mp hq
  have hback : ∀ j l, h.get? j = some l → ∃ m, g.get? j = some m ∧ l.anchor = m.anchor ∧
      l.kind = (if j = q then n.kind else m.kind) ∧ l.inputs = if j = q then n.inputs else m.inputs := by
    intro j l hl
    rw [hget] at hl
    split at hl
    next => cases hl
    next =>
      obtain ⟨m, hm, rfl⟩ := Option.map_eq_some_iff.mp hl
      exact ⟨m, hm, rfl, rfl, rfl⟩
  refine ⟨hclasses, hcap, fun j m hm hother => ?_, fun j l hl => ?_, fun j l hl _ => ?_⟩
  · have hjr : j ≠ r := by
      rintro rfl
      cases hm.symm.trans hn
      exact hother hng hna
    have hjq : j ≠ q := by
      rintro rfl
      cases hm.symm.trans hk
      exact hother hkg hka
    refine ⟨if m.guard = some r then some q else m.guard, ?_⟩
    rw [hget, if_neg hjr, hm]
    simp [hjq]
  · obtain ⟨m, hm, hanchor, hkind, -⟩ := hback j l hl
    refine ⟨m, hm, ?_, hanchor⟩
    rw [hkind]
    split
    next hj =>
      subst hj
      cases hm.symm.trans hk
      rw [hng, hkg]
    next => rfl
  · obtain ⟨m, hm, -, hkind, hinputs⟩ := hback j l hl
    by_cases hj : j = q
    · exact ⟨r, n, hn, by rw [hkind, if_pos hj], by rw [hinputs, if_pos hj]⟩
    · exact ⟨j, m, hm, by rw [hkind, if_neg hj], by rw [hinputs, if_neg hj]⟩

/-- Posts and then other guards stand at the anchor. -/
structure Manned (g : Graph) (a : NodeId) (ps : List Post) (rest : List NodeId) : Prop where
  guards : g.guardsAt a = ps.map Post.guard ++ rest
  posts : ∀ p ∈ ps, g.HasPost a p

/-- The neighbour of a guard behind posts is the last of them. -/
theorem Manned.redundantNeighbour? {later : NodeId} (M : g.Manned a ps (later :: rest)) (reason : Reason)
    (c : Condition) (truth : Bool) :
    Walk.redundantNeighbour? g a later reason c truth = .ok (match ps.getLast? with
      | none => none
      | some p => if p.yieldsTo g.classes ⟨later, reason, ⟨c, truth⟩⟩ then some p.guard else none) := by
  have hsorted : (g.guardsAt a).Pairwise (· < ·) := Graph.select_sorted g _
  rw [M.guards] at hsorted
  obtain ⟨-, hlater, hbefore⟩ := List.pairwise_append.mp hsorted
  have hfilter : (g.guardsAt a).filter (· < later) = ps.map Post.guard := by
    have hself : (ps.map Post.guard).filter (· < later) = ps.map Post.guard :=
      List.filter_eq_self.mpr fun q hq => decide_eq_true (hbefore q hq later List.mem_cons_self)
    have hnone : (later :: rest).filter (· < later) = [] := by
      refine List.filter_eq_nil_iff.mpr fun q hq => ?_
      rcases List.mem_cons.mp hq with rfl | hq
      · simp
      · simpa using Nat.le_of_lt ((List.pairwise_cons.mp hlater).1 q hq)
    rw [M.guards, List.filter_append, hself, hnone, List.append_nil]
  unfold Walk.redundantNeighbour?
  rw [hfilter, List.getLast?_map]
  cases hp : ps.getLast? with
  | none => rfl
  | some p =>
    obtain ⟨n, negated, x, d, hn, hk, -, hx, hd, hclaim⟩ := M.posts p (List.mem_of_getLast? hp)
    have hnode := node_eq_ok_iff.mpr hn
    by_cases hreason : p.reason = reason
    · simp only [Option.map_some, hnode, bind, Except.bind, hk, hx, expect, hd, hclaim, hreason, Post.yieldsTo,
        ↓reduceIte, decide_true, Bool.true_and]
      split <;> rfl
    · simp [hnode, bind, Except.bind, hk, hreason, Post.yieldsTo, pure, Except.pure]

theorem Manned.nodup {l : List NodeId} (M : g.Manned a ps l) : (ps.map Post.guard ++ l).Nodup := by
  have hsorted : (g.guardsAt a).Pairwise (· < ·) := Graph.select_sorted g _
  rw [M.guards] at hsorted
  exact hsorted.imp Nat.ne_of_lt

theorem Manned.mem_guardsAt {l : List NodeId} (M : g.Manned a ps l) (hq : q ∈ l) : q ∈ g.guardsAt a :=
  M.guards ▸ List.mem_append_right _ hq

theorem Manned.drop (M : g.Manned a ps (q :: rest)) (O : g.OverValues) (o : NodeId) :
    ((g.replaceGuard q (some o)).delete q).Manned a ps rest := by
  have hq := M.mem_guardsAt List.mem_cons_self
  have E := EditsAt.drop hq o
  have hget : ∀ j n, g.get? j = some n → j ≠ q → ∃ guard, ((g.replaceGuard q (some o)).delete q).get? j =
      some { n with guard } := by
    intro j n hn hj
    exact ⟨_, by rw [get?_dropGuard, if_neg hj, hn]; rfl⟩
  constructor
  · refine E.guardsAt_without (q := q) (by rw [get?_dropGuard, if_pos rfl]) (fun j hj hjq => ?_) M.guards
    obtain ⟨n, hn, -⟩ := Graph.mem_guardsAt.mp hj
    obtain ⟨guard, hm⟩ := hget j n hn hjq
    exact ⟨_, hm⟩
  · intro p hp
    refine (M.posts p hp).transfer (fun n hn => hget _ n hn ?_) fun _ x _ _ hr => E.condition_ok O hr
    have hdisjoint := (List.nodup_append.mp M.nodup).2.2
    exact hdisjoint p.guard (List.mem_map_of_mem hp) q List.mem_cons_self

theorem Manned.move {reason : Reason} {claim : Assertion} (M : g.Manned a (ps ++ [p]) (q :: rest)) (O : g.OverValues)
    (hq : g.HasPost a ⟨q, reason, claim⟩) (hmove : Walk.moveTest g q p.guard = .ok h) :
    h.Manned a ps (p.guard :: rest) ∧ h.HasPost a ⟨p.guard, reason, claim⟩ := by
  have hp : g.HasPost a p := M.posts p (by simp)
  have E := EditsAt.move hp.mem_guardsAt hq.mem_guardsAt hmove
  obtain ⟨n, hn, -, -, hget⟩ := moveTest_ok hmove
  have hnodup := M.nodup
  have hkeep : ∀ s ∈ ps, s.guard ≠ q ∧ s.guard ≠ p.guard := by
    intro s hs
    simp only [List.map_append, List.map_cons, List.map_nil, List.append_assoc] at hnodup
    have hdisjoint := (List.nodup_append.mp hnodup).2.2 s.guard (List.mem_map_of_mem hs)
    exact ⟨hdisjoint q (by simp), hdisjoint p.guard (by simp)⟩
  have hpq : p.guard ≠ q := (List.nodup_append.mp hnodup).2.2 p.guard (by simp) q List.mem_cons_self
  refine ⟨⟨?_, fun s hs => ?_⟩, ?_⟩
  · have hguards : g.guardsAt a = (ps ++ [p]).map Post.guard ++ q :: rest := M.guards
    have hwithout := E.guardsAt_without (q := q) (by rw [hget, if_pos rfl]) (fun j hj hjq => ?_) hguards
    · rw [hwithout]
      simp
    · obtain ⟨m, hm, -⟩ := Graph.mem_guardsAt.mp hj
      exact ⟨_, by rw [hget, if_neg hjq, hm]; rfl⟩
  · obtain ⟨hsq, hsp⟩ := hkeep s hs
    refine (M.posts s (by simp [hs])).transfer (fun m hm => ?_) fun _ x _ _ hr => E.condition_ok O hr
    refine ⟨if m.guard = some q then some p.guard else m.guard, ?_⟩
    rw [hget, if_neg hsq, hm]
    simp [hsp]
  · obtain ⟨m, negated, x, c, hm, hk, ha, hx, hc, hclaim⟩ := hq
    cases hn.symm.trans hm
    obtain ⟨l, -, -, -, hl, -, hla, -⟩ := hp
    have hnew := hget p.guard
    rw [if_neg hpq, hl, Option.map_some] at hnew
    exact ⟨_, negated, x, c, hnew, by simpa using hk, hla, by simpa using hx, E.condition_ok O hc, hclaim⟩

end Graph

namespace Walk

open GuardElision.Graph (EditsAt Manned)

variable {config : EliminationConfig} {method : Option MethodId} {w w' : Walk} {a : NodeId} {ps : List Post}
  {rest : List NodeId}

/-- Where the walk has been and where it goes next was not touched. -/
structure SameCourse (w w' : Walk) : Prop where
  dominators : w'.dominators = w.dominators
  visits : w'.visits = w.visits
  visited : w'.visited = w.visited
  excluded : w'.excluded = w.excluded
  edited : w'.edited = w.edited

theorem SameCourse.refl (w : Walk) : SameCourse w w :=
  ⟨rfl, rfl, rfl, rfl, rfl⟩

theorem SameCourse.trans {w'' : Walk} (h : SameCourse w w') (h' : SameCourse w' w'') : SameCourse w w'' :=
  ⟨h'.dominators.trans h.dominators, h'.visits.trans h.visits, h'.visited.trans h.visited,
    h'.excluded.trans h.excluded, h'.edited.trans h.edited⟩

/-- Folding a guard into the posts before it takes away the last of them, up to one that does not yield. -/
theorem foldIntoEarlier_manned {reason : Reason} {c : Condition} {truth : Bool} {bound : Nat} {carrier last : NodeId}
    (hbound : ps.length < bound) (O : w.graph.OverValues) (M : w.graph.Manned a ps (carrier :: rest))
    (hc : w.graph.HasPost a ⟨carrier, reason, ⟨c, truth⟩⟩)
    (h : foldIntoEarlier method a reason c truth bound carrier w = .ok last w') :
    SameCourse w w' ∧ w'.facts = w.facts ∧ EditsAt a w.graph w'.graph ∧ w'.graph.HasPost a ⟨last, reason, ⟨c, truth⟩⟩ ∧
      ∃ kept gone, ps = kept ++ gone ∧ w'.graph.Manned a kept (last :: rest) ∧
        ∀ p, kept.getLast? = some p → p.yieldsTo w.graph.classes ⟨last, reason, ⟨c, truth⟩⟩ = false := by
  induction bound generalizing w carrier ps with
  | zero => exact absurd hbound (Nat.not_lt_zero _)
  | succ bound ih =>
    have hneighbour := M.redundantNeighbour? reason c truth
    rcases foldIntoEarlier_cases h with ⟨hnone, rfl, rfl⟩ | ⟨weaker, k, tally, log, hsome, hmove, _, h⟩
    · refine ⟨.refl w', rfl, .refl a _, hc, ps, [], by simp, M, fun p hp => ?_⟩
      rw [hnone, hp] at hneighbour
      simpa using Except.ok.inj hneighbour
    · rw [hsome] at hneighbour
      rcases List.eq_nil_or_concat ps with rfl | ⟨front, p, rfl⟩
      · cases Except.ok.inj hneighbour
      · rw [List.concat_eq_append] at hbound M hneighbour ⊢
        rw [List.getLast?_concat] at hneighbour
        have hweaker := Except.ok.inj hneighbour
        obtain rfl : weaker = p.guard := by
          dsimp only at hweaker
          split at hweaker
          next => exact Option.some.inj hweaker
          next => cases hweaker
        have E := EditsAt.move (M.posts p (by simp)).mem_guardsAt hc.mem_guardsAt hmove
        obtain ⟨M', hc'⟩ := M.move O hc hmove
        have hfront : front.length < bound := by
          rw [List.length_append, List.length_singleton] at hbound
          omega
        obtain ⟨hcourse, hfacts, E', hpost, kept, gone, rfl, M'', hlast⟩ :=
          ih (w := { w with graph := k, tally, log }) hfront (E.overValues O) M' hc' h
        obtain ⟨htree, hvisits, hvisited, hexcluded, hedited⟩ := hcourse
        refine ⟨⟨htree, hvisits, hvisited, hexcluded, hedited⟩, hfacts, E.trans E', hpost, kept, gone ++ [p], by simp,
          M'', fun s hs => ?_⟩
        rw [← E.classes]
        exact hlast s hs

end Walk

end GuardElision
