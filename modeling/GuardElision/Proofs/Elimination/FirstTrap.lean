import GuardElision.Proofs.Elimination.GuardEdits
import GuardElision.Proofs.Execution.Truth
import GuardElision.Proofs.Idempotence.Posts

namespace GuardElision

theorem findSome?_congr {α β : Type} {l : List α} {f f' : α → Option β} (h : ∀ a ∈ l, f a = f' a) :
    l.findSome? f = l.findSome? f' := by
  rw [← List.head?_filterMap, List.filterMap_congr h, List.head?_filterMap]

namespace Graph

def failure? (V : Valuation) (g : Graph) (q : NodeId) : Option Reason :=
  (g.get? q).bind fun n =>
    match n.kind, n.inputs.head? with
    | .guard negated reason, some x => if V.truthAt? g x = some negated then some reason else none
    | _, _ => none

/-- Why control traps at a node, if it does: the reason of the first guard whose test fails. -/
def trap? (V : Valuation) (g : Graph) (a : NodeId) : Option Reason :=
  (g.guardsAt a).findSome? (failure? V g)

/-- Why control traps at a node once a deferred edit is made there: where a guard becomes a trap, only the
guards before it are still tested. -/
def trapAfter? (V : Valuation) (g : Graph) (a : NodeId) : Option DeferredEdit → Option Reason
  | some (.strengthen q reason) => (((g.guardsAt a).filter (· < q)).findSome? (failure? V g)).or (some reason)
  | _ => g.trap? V a

def Guards (g : Graph) (q : NodeId) (negated : Bool) (reason : Reason) (x : NodeId) : Prop :=
  ∃ n, g.get? q = some n ∧ n.kind = .guard negated reason ∧ n.inputs.head? = some x

/-- The tests of all guards at a node come out, one way or the other. -/
def Testable (V : Valuation) (g : Graph) (a : NodeId) : Prop :=
  ∀ q ∈ g.guardsAt a, ∀ negated reason x, g.Guards q negated reason x → ∃ b, V.truthAt? g x = some b

variable {V : Valuation} {g h : Graph} {source : NodeId → NodeId} {a q r x : NodeId} {negated b : Bool}
  {reason : Reason}

theorem Guards.failure? (hq : g.Guards q negated reason x) :
    failure? V g q = if V.truthAt? g x = some negated then some reason else none := by
  obtain ⟨n, hn, hk, hx⟩ := hq
  simp only [Graph.failure?, hn, Option.bind_some, hk, hx]

/-- A guard with a test passes just if the test comes out as asserted. -/
theorem Guards.failure?_eq_none (hq : g.Guards q negated reason x) (hx : V.truthAt? g x = some b) :
    Graph.failure? V g q = none ↔ b = !negated := by
  rw [hq.failure?, hx]
  cases b <;> cases negated <;> simp

theorem Guards.failure?_of_ne (hq : g.Guards q negated reason x) (hx : V.truthAt? g x = some b)
    (hne : b ≠ !negated) : Graph.failure? V g q = some reason := by
  rw [hq.failure?, hx]
  cases b <;> cases negated <;> simp_all

/-- Logic nodes are no guards, so an edit of guards leaves their truth. -/
theorem GuardEdit.truthAt? (E : GuardEdit source g h) (hx : V.truthAt? g x = some b) : V.truthAt? h x = some b := by
  obtain ⟨n, hn, hb⟩ := Valuation.exists_of_truthAt? hx
  have hplain : n.kind.isGuard = false := Kind.isGuard_of_isLogic (Valuation.isLogic_of_logic? hb)
  obtain ⟨m, hm⟩ := E.live x n hn hplain
  obtain ⟨n', hn', -, -, -, -, -, -, hguard, hsame⟩ := E.node x m hm
  cases hn.symm.trans hn'
  obtain ⟨hkind, hinputs⟩ := hsame (hguard ▸ hplain)
  have hlogic : V.logic? m = V.logic? n := Valuation.logic?_congr hkind.symm hinputs.symm
  show (h.get? x).bind V.logic? = some b
  rw [hm, Option.bind_some, hlogic, hb]

theorem GuardEdit.fits (E : GuardEdit source g h) (H : V.Fits g) : V.Fits h := by
  refine ⟨H.classes.trans E.classes.symm, fun x => ?_, fun x n y hn hk hy => ?_, fun x c hc => ?_⟩
  · cases hn : h.get? x with
    | none =>
      have hvoid : h.stamp x = .void := by rw [stamp, hn]
      rw [hvoid]
      trivial
    | some n =>
      obtain ⟨m, hm, hstamp, -⟩ := E.node x n hn
      have hsame : h.stamp x = g.stamp x := by simp only [stamp, hn, hm, hstamp]
      rw [hsame]
      exact H.stamps x
  · obtain ⟨m, hm, -, -, -, -, -, -, -, hsame⟩ := E.node x n hn
    obtain ⟨hkind, hinputs⟩ := hsame (by rw [hk]; rfl)
    exact H.refinement x m y hm (hkind.trans hk) (hinputs ▸ hy)
  · obtain ⟨n, hn, hk⟩ := kind?_eq_some_iff.mp hc
    obtain ⟨m, hm, -, -, -, -, -, -, -, hsame⟩ := E.node x n hn
    obtain ⟨hkind, -⟩ := hsame (by rw [hk]; rfl)
    exact H.constant x c (kind?_eq_some_iff.mpr ⟨m, hm, hkind.trans hk⟩)

theorem GuardEdit.guards (E : GuardEdit source g h) (hq : h.Guards q negated reason x) :
    g.Guards (source q) negated reason x := by
  obtain ⟨n, hn, hk, hx⟩ := hq
  obtain ⟨m, hm, hkind, -, hinputs⟩ := E.guard q n hn (by rw [hk]; rfl)
  exact ⟨m, hm, hkind.trans hk, hinputs ▸ hx⟩

theorem GuardEdit.mem_guardsAt (E : GuardEdit source g h) (hq : q ∈ h.guardsAt a) : source q ∈ g.guardsAt a := by
  obtain ⟨n, hn, hg, ha⟩ := Graph.mem_guardsAt.mp hq
  obtain ⟨m, hm, hkind, hanchor, -⟩ := E.guard q n hn hg
  exact Graph.mem_guardsAt.mpr ⟨m, hm, hkind ▸ hg, hanchor.trans ha⟩

theorem GuardEdit.testable (E : GuardEdit source g h) (H : g.Testable V a) : h.Testable V a := by
  intro q hq negated reason x hx
  obtain ⟨b, hb⟩ := H (source q) (E.mem_guardsAt hq) negated reason x (E.guards hx)
  exact ⟨b, E.truthAt? hb⟩

theorem GuardEdit.failure? (E : GuardEdit source g h) (H : g.Testable V a) (hq : q ∈ h.guardsAt a) :
    Graph.failure? V h q = Graph.failure? V g (source q) := by
  obtain ⟨n, hn, hg, -⟩ := Graph.mem_guardsAt.mp hq
  obtain ⟨m, hm, hkind, -, hinputs⟩ := E.guard q n hn hg
  cases hk : n.kind with
  | guard negated reason =>
    cases hx : n.inputs.head? with
    | none => simp only [Graph.failure?, hn, hm, Option.bind_some, hkind, hinputs, hk, hx]
    | some x =>
      have hq' : h.Guards q negated reason x := ⟨n, hn, hk, hx⟩
      obtain ⟨b, hb⟩ := H (source q) (E.mem_guardsAt hq) negated reason x (E.guards hq')
      rw [hq'.failure?, (E.guards hq').failure?, hb, E.truthAt? hb]
  | _ => simp [hk, Kind.isGuard] at hg

theorem Guards.after_move {p y : NodeId} {negated' : Bool} (hq : g.Guards q negated reason x)
    (hp : g.Guards p negated' reason y) (hpq : p ≠ q) (hmove : Walk.moveTest g q p = .ok h) :
    h.Guards p negated reason x := by
  obtain ⟨n, hn, -, -, hget⟩ := moveTest_ok hmove
  obtain ⟨m, hm, hk, hx⟩ := hq
  cases hn.symm.trans hm
  obtain ⟨l, hl, -⟩ := hp
  have hnew := hget p
  rw [if_neg hpq, hl, Option.map_some] at hnew
  exact ⟨_, hnew, by simpa using hk, by simpa using hx⟩

end Graph

namespace Walk

open GuardElision.Graph (GuardEdit EditsAt)

variable {config : EliminationConfig} {method : Option MethodId} {V : Valuation} {a q : NodeId} {T : Option Reason}
  {passed rest : List NodeId} {w w' : Walk} {deferred : Option DeferredEdit}

/-- The guards of an anchor are settled up to the rest, and the values trap for the same reason as at
first. What is known holds if the guards that are settled pass. -/
structure Watch (V : Valuation) (a : NodeId) (T : Option Reason) (passed rest : List NodeId) (w : Walk) : Prop where
  fits : V.Fits w.graph
  testable : w.graph.Testable V a
  guards : w.graph.guardsAt a = passed ++ rest
  trap : w.graph.trap? V a = T
  traced : w.facts.Traced fun c => ∀ o ∈ c.operands, V.Admits o
  classes : w.facts.classes = V.classes
  holds : passed.findSome? (w.graph.failure? V) = none → ∀ f ∈ w.facts.known.facts, f.Holds V

namespace Watch

theorem sorted (W : Watch V a T passed rest w) : (passed ++ rest).Pairwise (· < ·) := by
  have hsorted : (w.graph.guardsAt a).Pairwise (· < ·) := Graph.select_sorted w.graph _
  rwa [W.guards] at hsorted

/-- The next guard counts as settled if it stays. -/
theorem next (W : Watch V a T passed (q :: rest) w) : Watch V a T (passed ++ [q]) rest w := by
  refine ⟨W.fits, W.testable, ?_, W.trap, W.traced, W.classes, fun hpass => W.holds ?_⟩
  · rw [W.guards, List.append_assoc, List.singleton_append]
  · rw [List.findSome?_append] at hpass
    exact (Option.or_eq_none_iff.mp hpass).1

/-- What is known answers rightly, if the guards settled so far pass. -/
theorem answer (W : Watch V a T passed rest w) (hpass : passed.findSome? (w.graph.failure? V) = none) {x : NodeId}
    {c : Condition} (hc : V.Tells w.graph x c) {e : Evidence} (he : w.facts.lookup? c = some e) :
    V.truth c.test = e.truth := by
  obtain ⟨lessons, hlearnt, hlessons⟩ := W.traced.known
  have hfacts := W.holds hpass
  rw [hlearnt.facts] at hfacts
  rw [Facts.lookup?, W.classes] at he
  rw [W.classes] at hlearnt
  refine hlearnt.lookup?_right (fun l hl => (hlessons l hl).1) (fun l hl => ?_) hc.matched hc.admits he
  exact hfacts l.fact (List.mem_map_of_mem hl)

/-- An edit of guards is fine if the guards left trap alike, and the settled ones among them pass only if
those before did. -/
theorem edit (W : Watch V a T passed rest w) {h : Graph} {source : NodeId → NodeId} (E : GuardEdit source w.graph h)
    {passed' rest' : List NodeId} (hguards : h.guardsAt a = passed' ++ rest')
    (hpass : passed'.findSome? (fun j => w.graph.failure? V (source j)) = none →
      passed.findSome? (w.graph.failure? V) = none)
    (htrap : (passed' ++ rest').findSome? (fun j => w.graph.failure? V (source j)) =
      (passed ++ rest).findSome? (w.graph.failure? V))
    (hgraph : w'.graph = h) (hfacts : w'.facts = w.facts) : Watch V a T passed' rest' w' := by
  have hfail : ∀ j ∈ passed' ++ rest', h.failure? V j = w.graph.failure? V (source j) := by
    intro j hj
    exact E.failure? W.testable (hguards ▸ hj)
  refine ⟨hgraph ▸ E.fits W.fits, hgraph ▸ E.testable W.testable, hgraph ▸ hguards, ?_, hfacts ▸ W.traced,
    hfacts ▸ W.classes, fun hnone => ?_⟩
  · rw [hgraph, Graph.trap?, hguards, findSome?_congr hfail, htrap, ← W.guards]
    exact W.trap
  · rw [hgraph, findSome?_congr fun j hj => hfail j (List.mem_append_left _ hj)] at hnone
    rw [hfacts]
    exact W.holds (hpass hnone)

theorem drop (W : Watch V a T passed (q :: rest) w) (method : Option MethodId) (s : Source)
    (hpass : passed.findSome? (w.graph.failure? V) = none → w.graph.failure? V q = none) :
    Watch V a T passed rest (w.eliminateGuard method a q s) := by
  have hq : q ∈ w.graph.guardsAt a := by
    rw [W.guards]
    simp
  have hguards : ((w.graph.replaceGuard q (some (s.guard?.getD a))).delete q).guardsAt a = passed ++ rest := by
    refine (EditsAt.drop hq _).guardsAt_without (q := q) ?_ (fun j hj hjq => ?_) W.guards
    · rw [Graph.get?_dropGuard, if_pos rfl]
    · obtain ⟨n, hn, -⟩ := Graph.mem_guardsAt.mp hj
      exact ⟨_, by rw [Graph.get?_dropGuard, if_neg hjq, hn]; rfl⟩
  refine W.edit (GuardEdit.drop hq) hguards id ?_ rfl rfl
  rw [List.findSome?_append, List.findSome?_append, List.findSome?_cons]
  cases hp : passed.findSome? (w.graph.failure? V) with
  | some reason => simp [hp]
  | none => simp [hp, hpass hp]

theorem move {p carrier x y : NodeId} {reason : Reason} {negated negated' : Bool} {h : Graph}
    (W : Watch V a T (passed ++ [p, carrier]) rest w) (hcarrier : w.graph.Guards carrier negated reason x)
    (hp : w.graph.Guards p negated' reason y)
    (hweak : w.graph.failure? V carrier = none → w.graph.failure? V p = none)
    (hmove : moveTest w.graph carrier p = .ok h) (hgraph : w'.graph = h) (hfacts : w'.facts = w.facts) :
    Watch V a T (passed ++ [p]) rest w' := by
  have hmem : p ∈ w.graph.guardsAt a ∧ carrier ∈ w.graph.guardsAt a := by
    rw [W.guards]
    simp
  have hnodup : (passed ++ [p, carrier] ++ rest).Nodup := W.sorted.imp Nat.ne_of_lt
  have hother : (∀ j ∈ passed, j ≠ p) ∧ ∀ j ∈ rest, j ≠ p := by
    simp only [List.nodup_append, List.nodup_cons, List.mem_cons, List.mem_append] at hnodup
    grind
  obtain ⟨hbefore, hbehind⟩ := hother
  obtain ⟨n, hn, -, -, hget⟩ := Graph.moveTest_ok hmove
  have hguards : h.guardsAt a = (passed ++ [p]) ++ rest := by
    have hold : w.graph.guardsAt a = (passed ++ [p]) ++ carrier :: rest := by
      rw [W.guards]
      simp
    refine (EditsAt.move hmem.1 hmem.2 hmove).guardsAt_without (q := carrier) ?_ (fun j hj hjq => ?_) hold
    · rw [hget, if_pos rfl]
    · obtain ⟨m, hm, -⟩ := Graph.mem_guardsAt.mp hj
      exact ⟨_, by rw [hget, if_neg hjq, hm]; rfl⟩
  have hsame : ∀ l : List NodeId, (∀ j ∈ l, j ≠ p) →
      l.findSome? (fun j => w.graph.failure? V (if j = p then carrier else j)) = l.findSome? (w.graph.failure? V) := by
    intro l hl
    exact findSome?_congr fun j hj => by rw [if_neg (hl j hj)]
  refine W.edit (GuardEdit.move hmem.1 hmem.2 hmove) hguards (fun hnone => ?_) ?_ hgraph hfacts
  · rw [List.findSome?_append, hsame passed hbefore] at hnone
    obtain ⟨hpassed, htest⟩ := Option.or_eq_none_iff.mp hnone
    have hpasses : w.graph.failure? V carrier = none := by simpa using htest
    simp [List.findSome?_append, hpassed, hpasses, hweak hpasses]
  · -- if the earlier guard fails the later one does, and for the same reason
    have hpair : [p, carrier].findSome? (w.graph.failure? V) = w.graph.failure? V carrier := by
      cases hfail : w.graph.failure? V p with
      | none => cases hc : w.graph.failure? V carrier <;> simp [hfail, hc]
      | some r =>
        have hr := hp.failure? (V := V)
        have hc := hcarrier.failure? (V := V)
        have hfails : w.graph.failure? V carrier ≠ none := by
          intro hnone
          rw [hweak hnone] at hfail
          cases hfail
        rw [hfail] at hr
        split at hr
        next =>
          split at hc
          next => simp [hfail, hc, hr]
          next => exact absurd hc hfails
        next => cases hr
    rw [List.findSome?_append, List.findSome?_append, List.findSome?_append, List.findSome?_append,
      hsame passed hbefore, hsame rest hbehind, hpair]
    simp

theorem eq_concat (W : Watch V a T (passed ++ [q]) rest w) {p : NodeId} (hp : p ∈ w.graph.guardsAt a) (hlt : p < q)
    (hlast : ∀ s ∈ w.graph.guardsAt a, s < q → s ≤ p) : ∃ front, passed = front ++ [p] := by
  have hsorted := W.sorted
  rw [List.append_assoc, List.pairwise_append] at hsorted
  obtain ⟨hpassed, hrest, hbefore⟩ := hsorted
  rw [W.guards, List.append_assoc] at hp hlast
  have hmem : p ∈ passed := by
    rcases List.mem_append.mp hp with hp | hp
    · exact hp
    · rcases List.mem_cons.mp hp with rfl | hp
      · exact absurd hlt (Nat.lt_irrefl _)
      · have hgt : q < p := (List.pairwise_cons.mp hrest).1 p hp
        exact absurd hlt (Nat.lt_asymm hgt)
  rcases List.eq_nil_or_concat passed with rfl | ⟨front, last, rfl⟩
  · simp at hmem
  · rw [List.concat_eq_append] at hmem hpassed hbefore hlast ⊢
    have hle : last ≤ p := hlast last (by simp) (hbefore last (by simp) q (by simp))
    have hge : p ≤ last := le_getLast? hpassed (List.getLast?_concat ..) p hmem
    obtain rfl : last = p := Nat.le_antisymm hle hge
    exact ⟨front, rfl⟩

/-- Folding a guard into those before it leaves the trap, and the guard that carries the test in the end
stands last among the settled ones. -/
theorem foldIntoEarlier {c : Condition} {reason : Reason} {negated : Bool} {x : NodeId} {bound : Nat}
    {carrier last : NodeId} (W : Watch V a T (passed ++ [carrier]) rest w)
    (hcarrier : w.graph.Guards carrier negated reason x) (hc : V.Tells w.graph x c)
    (h : Walk.foldIntoEarlier method a reason c (c.testTruth !negated) bound carrier w = .ok last w') :
    ∃ passed', Watch V a T (passed' ++ [last]) rest w' ∧ w'.graph.Guards last negated reason x ∧
      V.Tells w'.graph x c := by
  induction bound generalizing w carrier passed with
  | zero =>
    obtain ⟨rfl, rfl⟩ := Attempt.pure_ok.mp h
    exact ⟨passed, W, hcarrier, hc⟩
  | succ bound ih =>
    rcases foldIntoEarlier_cases h with ⟨-, rfl, rfl⟩ | ⟨p, k, tally, log, hneighbour, hmove, _, h⟩
    · exact ⟨passed, W, hcarrier, hc⟩
    · obtain ⟨m, negated', y, d, hmem, hlt, hlast, hm, hkind, hy, hd, himp⟩ := redundantNeighbour?_ok hneighbour
      obtain ⟨front, rfl⟩ := W.eq_concat hmem hlt hlast
      have hp : w.graph.Guards p negated' reason y := ⟨m, hm, hkind, hy⟩
      obtain ⟨b', hb'⟩ := W.testable p hmem negated' reason y hp
      have hd' : V.Tells w.graph y d := W.fits.tells hd hb'
      obtain ⟨b, hb, htruth⟩ := hc.outcome
      have hweak : w.graph.failure? V carrier = none → w.graph.failure? V p = none := by
        intro hnone
        have hpasses : b = !negated := (hcarrier.failure?_eq_none hb).mp hnone
        rw [← W.fits.classes] at himp
        have hfollows := Facts.implies_right himp hc.matched hd'.matched hc.admits hd'.admits (hpasses ▸ htruth)
        rw [← hd'.truthAt?_iff, hb'] at hfollows
        exact (hp.failure?_eq_none hb').mpr (Option.some.inj hfollows)
      have hsplit : front ++ [p] ++ [carrier] = front ++ [p, carrier] := by simp
      rw [hsplit] at W
      have hcarrier' : carrier ∈ w.graph.guardsAt a := by
        rw [W.guards]
        simp
      have E := GuardEdit.move hmem hcarrier' hmove
      have W' : Watch V a T (front ++ [p]) rest { w with graph := k, tally, log } :=
        W.move hcarrier hp hweak hmove rfl rfl
      have hp' : k.Guards p negated reason x := hcarrier.after_move hp (Nat.ne_of_lt hlt) hmove
      exact ih W' hp' ⟨hc.matched, hc.admits, b, E.truthAt? hb, htruth⟩ h

/-- The guard `q` fails as soon as those before it pass, and its trap has to wait. -/
def Stopped (V : Valuation) (a : NodeId) (T : Option Reason) (passed : List NodeId) (q : NodeId) (rest : List NodeId)
    (deferred : Option DeferredEdit) (w : Walk) : Prop :=
  ∃ reason, deferred = some (.strengthen q reason) ∧ Watch V a T passed (q :: rest) w ∧
    (passed.findSome? (w.graph.failure? V) = none → w.graph.failure? V q = some reason)

/-- Settling a guard that is decided rightly. -/
theorem settleGuard {reason : Reason} {negated b : Bool} {x : NodeId} (W : Watch V a T passed (q :: rest) w)
    (hq : w.graph.Guards q negated reason x) (hx : V.truthAt? w.graph x = some b) {holds : Bool} {s : Source}
    (hright : passed.findSome? (w.graph.failure? V) = none → (holds = true ↔ b = !negated))
    (h : Walk.settleGuard config method a q reason holds s w = .ok deferred w') :
    (deferred = none ∧ ∃ passed', Watch V a T passed' rest w') ∨ Stopped V a T passed q rest deferred w' := by
  rcases settleGuard_cases h with ⟨hyes, rfl, rfl⟩ | ⟨hno, rfl, rfl | ⟨rfl, _⟩⟩
  · refine Or.inl ⟨rfl, passed, W.drop method s fun hpass => ?_⟩
    exact (hq.failure?_eq_none hx).mpr ((hright hpass).mp hyes)
  · exact Or.inl ⟨rfl, _, W.next⟩
  · refine Or.inr ⟨reason, rfl, W, fun hpass => hq.failure?_of_ne hx fun hb => ?_⟩
    rw [(hright hpass).mpr hb] at hno
    cases hno

theorem learn {reason : Reason} {negated : Bool} {x : NodeId} {c : Condition} (W : Watch V a T (passed ++ [q]) rest w)
    (hq : w.graph.Guards q negated reason x) (hc : V.Tells w.graph x c) :
    Watch V a T (passed ++ [q]) rest { w with facts := (w.facts.push c (c.testTruth !negated) q).2 } := by
  refine ⟨W.fits, W.testable, W.guards, W.trap, W.traced.push hc.admits hc.matched _ _, ?_, fun hpass => ?_⟩
  · rw [Facts.push_classes]
    exact W.classes
  · have hbefore := W.holds hpass
    obtain ⟨b, hb, htruth⟩ := hc.outcome
    rw [List.findSome?_append] at hpass
    have hlast : w.graph.failure? V q = none := by simpa using (Option.or_eq_none_iff.mp hpass).2
    have hb' : b = !negated := (hq.failure?_eq_none hb).mp hlast
    show ∀ f ∈ (w.facts.push c (c.testTruth !negated) q).2.known.facts, f.Holds V
    cases hl : w.facts.lookup? c with
    | some e =>
      rw [Facts.push_of_some hl]
      exact hbefore
    | none =>
      rw [Facts.push_of_none hl]
      intro f hf
      rw [Facts.learn, Known.learn_facts (Known.fact?_eq_none_of_lookup? hl)] at hf
      rcases List.mem_cons.mp hf with rfl | hf
      · show V.truth c.test = c.testTruth !negated
        rw [htruth, hb']
      · exact hbefore f hf

theorem processGuard (W : Watch V a T passed (q :: rest) w) (h : Walk.processGuard config method a q w = .ok deferred w') :
    (deferred = none ∧ ∃ passed', Watch V a T passed' rest w') ∨ Stopped V a T passed q rest deferred w' := by
  obtain ⟨n, negated, reason, x, hn, hk, hx, hcases⟩ := processGuard_cases h
  have hq : w.graph.Guards q negated reason x := ⟨n, hn, hk, hx⟩
  have hmem : q ∈ w.graph.guardsAt a := by
    rw [W.guards]
    simp
  obtain ⟨b, hb⟩ := W.testable q hmem negated reason x hq
  rcases hcases with ⟨value, hvalue, h⟩ | ⟨c, hcanonical, hcases⟩
  · have hvalue : value = b := W.fits.condition_constant hvalue hb
    refine W.settleGuard hq hb (fun _ => ?_) h
    rw [decide_eq_true_iff, hvalue]
  · have hc : V.Tells w.graph x c := W.fits.tells hcanonical hb
    rcases hcases with ⟨e, hl, h⟩ | ⟨_, rfl, carrier, w₁, hfold, rfl⟩
    · refine W.settleGuard hq hb (fun hpass => ?_) h
      have htruth := W.answer hpass hc hl
      rw [decide_eq_true_iff, ← htruth, ← hc.truthAt?_iff, hb, Option.some.injEq]
    · obtain ⟨passed', W', hlast, hc'⟩ := W.next.foldIntoEarlier hq hc hfold
      exact Or.inl ⟨rfl, _, W'.learn hlast hc'⟩

/-- All guards are settled, up to one that always fails if there is such a one. -/
theorem processGuards (W : Watch V a T passed rest w) (h : Walk.processGuards config method a rest w = .ok deferred w') :
    (deferred = none ∧ ∃ passed', Watch V a T passed' [] w') ∨
      ∃ passed' q rest', Stopped V a T passed' q rest' deferred w' := by
  have hstep : ∀ q rest w w', (∃ passed, Watch V a T passed (q :: rest) w) →
      Walk.processGuard config method a q w = .ok none w' → ∃ passed, Watch V a T passed rest w' := by
    rintro q rest w w' ⟨passed, W⟩ hq
    rcases W.processGuard hq with ⟨_, W'⟩ | ⟨_, hnone, _⟩
    · exact W'
    · cases hnone
  rcases processGuards_cases (P := fun rest w => ∃ passed, Watch V a T passed rest w) hstep ⟨passed, W⟩ h with
    hdone | ⟨q, rest', w₁, edit, rfl, ⟨passed', W'⟩, _, hq⟩
  · exact Or.inl hdone
  · rcases W'.processGuard hq with ⟨hnone, _⟩ | hstopped
    · cases hnone
    · exact Or.inr ⟨passed', q, rest', hstopped⟩

theorem trapAfter? (h : (deferred = none ∧ ∃ passed, Watch V a T passed [] w) ∨
      ∃ passed q rest, Stopped V a T passed q rest deferred w) :
    w.graph.trapAfter? V a deferred = T ∧ (T = none → ∀ f ∈ w.facts.known.facts, f.Holds V) := by
  rcases h with ⟨rfl, passed, W⟩ | ⟨passed, q, rest, reason, rfl, W, hfails⟩
  · refine ⟨W.trap, fun hnone => W.holds ?_⟩
    have htrap := W.trap
    rwa [hnone, Graph.trap?, W.guards, List.append_nil] at htrap
  · have hsorted := W.sorted
    obtain ⟨-, hrest, hbefore⟩ := List.pairwise_append.mp hsorted
    have hfilter : (w.graph.guardsAt a).filter (· < q) = passed := by
      have hself : passed.filter (· < q) = passed :=
        List.filter_eq_self.mpr fun p hp => decide_eq_true (hbefore p hp q List.mem_cons_self)
      have hnone : (q :: rest).filter (· < q) = [] := by
        refine List.filter_eq_nil_iff.mpr fun p hp => ?_
        rcases List.mem_cons.mp hp with rfl | hp
        · simp
        · simpa using Nat.le_of_lt ((List.pairwise_cons.mp hrest).1 p hp)
      rw [W.guards, List.filter_append, hself, hnone, List.append_nil]
    have htrap : (passed.findSome? (w.graph.failure? V)).or (some reason) = T := by
      have hall := W.trap
      rw [Graph.trap?, W.guards, List.findSome?_append, List.findSome?_cons] at hall
      cases hp : passed.findSome? (w.graph.failure? V) with
      | some r => simpa [hp] using hall
      | none => simpa [hp, hfails hp] using hall
    refine ⟨?_, fun hnone => ?_⟩
    · show (((w.graph.guardsAt a).filter (· < q)).findSome? (w.graph.failure? V)).or (some reason) = T
      rw [hfilter, htrap]
    · rw [hnone] at htrap
      simp at htrap

end Watch

/-- Processing a node keeps the trap. Take any values that are possible in the graph, decide the tests of
the guards there, and agree with what is known. With the trap that has to wait, if any, the guards left
trap for the reason of the first guard that failed, and not at all if none did. In that case what was
learnt holds as well. -/
theorem process_keeps_trap (V : Valuation) (actions : List Facts.Action) {node : NodeId} {stage : Stage}
    (hfacts : w.facts = Facts.replay w.graph.classes actions)
    (hpush : ∀ c truth guard, .push c truth guard ∈ actions → c.Matched ∧ ∀ o ∈ c.operands, V.Admits o)
    (hfits : V.Fits w.graph) (htests : w.graph.Testable V node) (hholds : ∀ f ∈ w.facts.known.facts, f.Holds V)
    (h : process config method node w = .ok stage w') :
    ∃ deferred w₁, processGuards config method node (w.graph.guardsAt node) w = .ok deferred w₁ ∧
      w'.graph = w₁.graph ∧ w'.facts = w₁.facts ∧
      (∀ v outer, w.visits = v :: outer → ∃ noted pending, w'.visits = { v with pending, deferred := noted } :: outer ∧
        ∀ q reason, noted = some (.strengthen q reason) ↔ deferred = some (.strengthen q reason)) ∧
      w'.graph.trapAfter? V node deferred = w.graph.trap? V node ∧
      (w.graph.trap? V node = none → ∀ f ∈ w'.facts.known.facts, f.Holds V) := by
  obtain ⟨deferred, w₁, hguards, hgraph, hfacts', hvisits⟩ := process_guards h
  have htraced : w.facts.Traced fun c => ∀ o ∈ c.operands, V.Admits o := by
    rw [hfacts]
    exact Facts.replay_traced fun c t guard hm => (hpush c t guard hm).symm
  have hclasses : w.facts.classes = V.classes := by rw [hfacts, Facts.replay_classes, hfits.classes]
  have W : Watch V node (w.graph.trap? V node) [] (w.graph.guardsAt node) w :=
    ⟨hfits, htests, rfl, rfl, htraced, hclasses, fun _ => hholds⟩
  refine ⟨deferred, w₁, hguards, hgraph, hfacts', hvisits, ?_⟩
  rw [hgraph, hfacts']
  exact Watch.trapAfter? (W.processGuards hguards)

/-- A bounds check takes over the test of the next one, and a third guard cannot pass after it. The value
2 fails the second of the three, and traps for the reason of the two bounds checks. -/
theorem process_keeps_trap_folded :
    let g : Graph :=
      ⟨#[{ kind := .start, successors := [8] }, { kind := .parameter 0, stamp := .int .nonNegative },
        { kind := .constant (.int 0), stamp := .int (.constant 0) },
        { kind := .constant (.int 3), stamp := .int (.constant 3) },
        { kind := .compare .below, stamp := .logic, inputs := [2, 1] },
        { kind := .compare .below, stamp := .logic, inputs := [3, 1] },
        { kind := .guard false .boundsCheck, inputs := [4], anchor := some 0 },
        { kind := .guard false .boundsCheck, inputs := [5], anchor := some 0 },
        { kind := .ret, predecessors := [0] }, { kind := .compare .lt, stamp := .logic, inputs := [1, 3] },
        { kind := .guard false .unreached, inputs := [9], anchor := some 0 }], .root⟩
    let V : Valuation := ⟨.root, [], fun x => if x = 1 then .int 2 else if x = 2 then .int 0 else
      if x = 3 then .int 3 else .bool true⟩
    V.Fits g ∧ g.Testable V 0 ∧ g.trap? V 0 = some .boundsCheck ∧
      ∃ stage w', process {} none 0 (.ofGraph g {} {}) = .ok stage w' ∧
        w'.graph.trapAfter? V 0 (some (.strengthen 10 .unreached)) = some .boundsCheck := by
  intro g V
  have hnodes : ∀ x < 11, ∀ n ∈ g.get? x, V.fitsAt x n = true := by decide +kernel
  have hguards : ∀ q < 11, ∀ n ∈ g.get? q, n.kind.isGuard = true → ∀ x ∈ n.inputs, (V.truthAt? g x).isSome = true := by
    decide +kernel
  have hfits : V.Fits g := .of_fitsAt rfl fun x n hn => hnodes x (Graph.lt_capacity hn) n hn
  have htests : g.Testable V 0 := by
    rintro q - negated reason x ⟨n, hn, hk, hx⟩
    exact Option.isSome_iff_exists.mp (hguards q (Graph.lt_capacity hn) n hn (by rw [hk]; rfl) x (List.mem_of_head? hx))
  have hrun : (process {} none 0).result (.ofGraph g {} {}) = .ok .done := by decide +kernel
  have hstop : (processGuards {} none 0 (g.guardsAt 0)).result (.ofGraph g {} {}) =
      .ok (some (.strengthen 10 .unreached)) := by decide +kernel
  obtain ⟨w', h⟩ := Attempt.result_eq_ok.mp hrun
  obtain ⟨w₂, hw₂⟩ := Attempt.result_eq_ok.mp hstop
  have htrap : g.trap? V 0 = some .boundsCheck := by decide +kernel
  obtain ⟨deferred, w₁, hw₁, -, -, -, hkept, -⟩ :=
    process_keeps_trap (w := .ofGraph g {} {}) V [] rfl (by simp) hfits htests (by simp [ofGraph, Facts.ofClasses]) h
  cases hw₁.symm.trans hw₂
  exact ⟨hfits, htests, htrap, .done, w', h, hkept.trans htrap⟩

end Walk

end GuardElision
