import GuardElision.Proofs.Facts.KeptRanges
import GuardElision.Proofs.Facts.Rollback

namespace GuardElision

namespace Known

variable {stamp : NodeId → Stamp} {k k' : Known} {origin : Origin} {classes : ClassTable} {c : Condition}
  {truth : Bool}

theorem impliedNull?_of_stamp {x : NodeId} {s : Stamp} (h : k'.impliedNull? x s = some ⟨truth, .stamp⟩) (k : Known) :
    k.impliedNull? x s = some ⟨truth, .stamp⟩ := by
  unfold impliedNull? at h ⊢
  split at h
  next hnn => rwa [if_pos hnn]
  split at h
  next hnn hnull => rwa [if_neg hnn, if_pos hnull]
  next =>
    obtain ⟨p, -, hp⟩ := Option.map_eq_some_iff.mp h
    cases hp

theorem impliedClass?_of_stamp {x : NodeId} {cls : ClassId} {s : Stamp}
    (h : impliedClass? classes k' x cls s = some ⟨truth, .stamp⟩) (k : Known) :
    impliedClass? classes k x cls s = some ⟨truth, .stamp⟩ := by
  unfold impliedClass? at h ⊢
  split at h
  next => exact h
  next =>
    rcases foldl_best?_eq_some h with he | ⟨p, -, he⟩
    · obtain ⟨f, -, he⟩ := Option.bind_eq_some_iff.mp he
      obtain ⟨t, -, he⟩ := Option.map_eq_some_iff.mp he
      cases he
    · obtain ⟨t, -, he⟩ := Option.map_eq_some_iff.mp he
      cases he

/-- An answer from ranges that names no origin is one from the stamps alone. -/
theorem impliedOrder?_of_stamp {decide? : Interval → Interval → Option Bool} {a b : NodeId}
    (hstamp : ∀ x r, (stamp x).range? = some r → ∃ w, w ∈ r) (hk' : k'.RangesFit stamp)
    (h : k'.impliedOrder? decide? ⟨a, stamp a⟩ ⟨b, stamp b⟩ = some ⟨truth, .stamp⟩) (k : Known) :
    k.impliedOrder? decide? ⟨a, stamp a⟩ ⟨b, stamp b⟩ = some ⟨truth, .stamp⟩ := by
  obtain ⟨ra, hra, h⟩ := Option.bind_eq_some_iff.mp h
  obtain ⟨rb, hrb, h⟩ := Option.bind_eq_some_iff.mp h
  have hdecide : decide? ra rb = some truth := by
    split at h
    next t ht =>
      cases Option.some.inj h
      exact ht
    next =>
      obtain ⟨na, hna, h⟩ := Option.bind_eq_some_iff.mp h
      obtain ⟨nb, hnb, h⟩ := Option.bind_eq_some_iff.mp h
      obtain ⟨t, ht, h⟩ := Option.bind_eq_some_iff.mp h
      obtain ⟨na', hna', hrefa⟩ := hk'.exists_narrowing? hstamp hra
      obtain ⟨nb', hnb', hrefb⟩ := hk'.exists_narrowing? hstamp hrb
      cases hna.symm.trans hna'
      cases hnb.symm.trans hnb'
      have he := Option.some.inj h
      have htruth : t = truth := congrArg Evidence.truth he
      have hsource := congrArg Evidence.source he
      dsimp only at hsource
      split at hsource
      next x y hx hy =>
        obtain ⟨p, rfl⟩ := source?_isGuard hx
        obtain ⟨q, rfl⟩ := source?_isGuard hy
        simp only [Source.closer] at hsource
        split at hsource <;> cases hsource
      next x hx _ =>
        obtain ⟨p, rfl⟩ := source?_isGuard hx
        cases hsource
      next y _ hy =>
        obtain ⟨q, rfl⟩ := source?_isGuard hy
        cases hsource
      next ha hb => rw [← hrefa.range_eq ha, ← hrefb.range_eq hb, ht, htruth]
  simp [impliedOrder?, hra, hrb, hdecide, Evidence.ofStamp]

theorem implied?_of_stamp (hstamp : ∀ x r, (stamp x).range? = some r → ∃ w, w ∈ r) (hk' : k'.RangesFit stamp)
    (hs : c.StampedBy stamp) (h : implied? classes k' c = some ⟨truth, .stamp⟩) (k : Known) :
    implied? classes k c = some ⟨truth, .stamp⟩ := by
  unfold Condition.StampedBy Condition.operands at hs
  unfold implied? at h ⊢
  cases hc : c.test with
  | isNull x =>
    simp only [hc] at h ⊢
    exact impliedNull?_of_stamp h k
  | instanceOf x cls =>
    simp only [hc] at h ⊢
    exact impliedClass?_of_stamp h k
  | equals a b | lessThan a b | below a b =>
    rw [hc] at hs
    obtain ⟨hl, hr⟩ := operands_eq ⟨rfl, rfl⟩ hs
    rw [hl, hr] at h ⊢
    simp only [hc] at h ⊢
    exact impliedOrder?_of_stamp hstamp hk' h k

theorem best?_of_late {e : Evidence} {o : Origin} (he : e.source = .guard o) (hlate : o.seq ≤ origin.seq) :
    Evidence.best? (some (.ofOrigin truth origin)) (some e) = some (.ofOrigin truth origin) := by
  have hcloser : (Source.guard origin).closer (.guard o) = .guard origin := if_pos hlate
  simp only [Evidence.best?, Evidence.ofOrigin, he, hcloser, ↓reduceIte]

theorem lookup?_learn (hstamp : ∀ x r, (stamp x).range? = some r → ∃ w, w ∈ r) (hmirrored : k.Mirrored)
    (hk : k.RangesFit stamp) (hs : c.StampedBy stamp) (hlate : k.Credits fun o => o.seq ≤ origin.seq)
    (hnone : k.lookup? classes c = none)
    (truth : Bool) : (k.learn origin c truth).lookup? classes c = some (.ofOrigin truth origin) := by
  have hfact : (k.learn origin c truth).fact? c.test = some ⟨c.test, truth, origin⟩ := by
    rw [learn_fact?, if_pos rfl]
  unfold lookup?
  rw [hfact, Option.map_some]
  cases hi : implied? classes (k.learn origin c truth) c with
  | none => rfl
  | some e =>
    have hfit : (k.learn origin c truth).RangesFit stamp :=
      (hk.learn hstamp hs (fact?_eq_none_of_lookup? hnone) truth).1
    cases he : e.source with
    | stamp =>
      have hbefore : implied? classes k c = some ⟨e.truth, .stamp⟩ :=
        implied?_of_stamp hstamp hfit hs (by rw [hi, ← he]) k
      have hsome : (k.lookup? classes c).isSome := by
        rw [lookup?, best?_isSome, hbefore]
        exact Bool.or_true _
      rw [hnone] at hsome
      cases hsome
    | guard o =>
      have hnames := implied?_names (hmirrored.learn (fact?_eq_none_of_lookup? hnone) origin truth)
        (hlate.learn (Nat.le_refl _) c truth) hi
      exact best?_of_late he (hnames o he)

end Known

namespace Facts

variable {stamp : NodeId → Stamp} {f : Facts} {c : Condition} {truth : Bool} {guard : NodeId}

def Action.isPush : Action → Bool
  | .push _ _ _ => true
  | _ => false

theorem foldl_act_nextSeq (actions : List Action) (f : Facts) :
    (actions.foldl act f).nextSeq ≤ f.nextSeq + actions.countP Action.isPush := by
  induction actions generalizing f with
  | nil => exact Nat.le_refl _
  | cons a actions ih =>
    have hrest := ih (f.act a)
    rw [List.foldl_cons, List.countP_cons]
    cases a with
    | enter => exact hrest
    | exit =>
      have hsame : (f.act .exit).nextSeq = f.nextSeq := f.exitScope_nextSeq
      simp only [Action.isPush]
      omega
    | push c truth guard =>
      have hstep : (f.act (.push c truth guard)).nextSeq ≤ f.nextSeq + 1 := (f.push_nextSeq c truth guard).2
      simp only [Action.isPush, ↓reduceIte]
      omega

theorem push_eq_registered_iff : (f.push c truth guard).1 = .registered ↔ f.lookup? c = none := by
  cases hl : f.lookup? c with
  | none => simp [push_of_none hl]
  | some e =>
    rw [push_of_some hl]
    split <;> simp

namespace Traced

variable (hstamp : ∀ x r, (stamp x).range? = some r → ∃ w, w ∈ r)
include hstamp

theorem rangesFit (h : f.Traced (·.StampedBy stamp)) : f.known.RangesFit stamp := by
  obtain ⟨lessons, hlearnt, hlessons⟩ := h.known
  exact hlearnt.rangesFit hstamp fun l hl => (hlessons l hl).1

omit hstamp in
theorem credits {P : Condition → Prop} (h : f.Traced P) : f.known.Credits fun o => o.seq < f.nextSeq := by
  obtain ⟨lessons, hlearnt, hlessons⟩ := h.known
  exact hlearnt.credits fun l hl => (hlessons l hl).2

theorem lookup?_push (h : f.Traced (·.StampedBy stamp)) (hs : c.StampedBy stamp) (hnone : f.lookup? c = none)
    (truth : Bool) (guard : NodeId) :
    (f.push c truth guard).2.lookup? c = some ⟨truth, .guard ⟨guard, f.nextSeq⟩⟩ := by
  unfold lookup?
  rw [push_classes, push_known hnone]
  exact Known.lookup?_learn hstamp f.known_mirrored (h.rangesFit hstamp) hs (h.credits.mono fun _ => Nat.le_of_lt) hnone
    truth

theorem push_subsumes (h : f.Traced (·.StampedBy stamp)) (hs : c.StampedBy stamp) (truth : Bool) (guard : NodeId) :
    (f.push c truth guard).2.known.Subsumes stamp f.known := by
  have hfit := h.rangesFit hstamp
  cases hl : f.lookup? c with
  | some e =>
    rw [push_of_some hl]
    exact .refl hstamp hfit
  | none =>
    rw [push_known hl]
    exact (hfit.learn hstamp hs (Known.fact?_eq_none_of_lookup? hl) truth).2

/-- Actions that close no scope but their own keep, in each of their scopes, all that was known in each of
these before. -/
theorem foldl_act_subsumes {start : Known} {actions : List Action} {n m : Nat} (h : f.Traced (·.StampedBy stamp))
    (hopen : openAfter n actions = some m) (hn : n < f.scopes.length)
    (hpush : ∀ c truth guard, .push c truth guard ∈ actions → c.Matched ∧ c.StampedBy stamp)
    (hstart : ∀ k ∈ f.scopes.take (n + 1), k.Subsumes stamp start) :
    ∀ k ∈ (actions.foldl act f).scopes.take (m + 1), k.Subsumes stamp start := by
  induction actions generalizing n f with
  | nil =>
    obtain rfl := Option.some.inj hopen
    exact hstart
  | cons a actions ih =>
    have hpush' : ∀ c truth guard, .push c truth guard ∈ actions → c.Matched ∧ c.StampedBy stamp :=
      fun c truth guard hm => hpush c truth guard (List.mem_cons_of_mem a hm)
    rw [List.foldl_cons]
    cases a with
    | enter =>
      refine ih (f := f.enterScope) (n := n + 1) h.enterScope hopen ?_ hpush' ?_
      · rw [scopes_enterScope]
        exact Nat.succ_lt_succ hn
      · intro k hk
        rw [scopes_enterScope, List.take_succ_cons] at hk
        rcases List.mem_cons.mp hk with rfl | hk
        · exact hstart _ List.mem_cons_self
        · exact hstart k hk
    | exit =>
      cases n with
      | zero => cases hopen
      | succ n =>
        have hlength : n < f.outer.length := Nat.lt_of_succ_lt_succ hn
        have hscopes : f.exitScope.scopes = f.outer := by
          rw [scopes_exitScope, if_neg (List.ne_nil_of_length_pos (Nat.zero_lt_of_lt hlength))]
        refine ih (f := f.exitScope) (n := n) h.exitScope hopen ?_ hpush' ?_
        · rwa [hscopes]
        · intro k hk
          rw [hscopes] at hk
          exact hstart k (List.mem_cons_of_mem _ hk)
    | push c truth guard =>
      obtain ⟨hm, hs⟩ := hpush c truth guard List.mem_cons_self
      have hscopes : (f.push c truth guard).2.scopes = (f.push c truth guard).2.known :: f.outer := by
        rw [scopes, push_outer]
      have hopen' : openAfter n actions = some m := by
        cases n <;> exact hopen
      refine ih (f := (f.push c truth guard).2) (n := n) (h.push hs hm truth guard) hopen' ?_ hpush' ?_
      · rw [hscopes]
        exact hn
      · intro k hk
        rw [hscopes, List.take_succ_cons] at hk
        rcases List.mem_cons.mp hk with rfl | hk
        · exact (h.push_subsumes hstamp hs truth guard).trans (hstart _ List.mem_cons_self)
        · exact hstart k (List.mem_cons_of_mem _ hk)

end Traced

/-- After any scopes and pushes, if every node has one stamp and integer stamps describe some value: a push
registers just if its test is undecided. Then the test is answered by that very push, which has the largest
number so far, one of 32 bits if there were fewer than 2 ^ 32 pushes, and no fact is overwritten. Otherwise
the push says how the answer compares and changes nothing. Whatever follows without closing the scope,
decided tests stay decided, and known ranges only shrink and keep members. -/
theorem push_agrees_with_lookup (classes : ClassTable) (stamp : NodeId → Stamp)
    (hstamp : ∀ x r, (stamp x).range? = some r → ∃ w, w ∈ r) (past : List Action)
    (hpast : ∀ c truth guard, .push c truth guard ∈ past → c.Matched ∧ c.StampedBy stamp)
    (hcount : past.countP Action.isPush < 0x100000000) :
    let f := replay classes past
    (∀ c truth guard, c.StampedBy stamp →
      ((f.push c truth guard).1 = .registered ↔ f.lookup? c = none) ∧
      (f.lookup? c = none →
        (f.push c truth guard).2.lookup? c = some ⟨truth, .guard ⟨guard, f.nextSeq⟩⟩ ∧
        f.nextSeq < 0x100000000 ∧ (∀ fact ∈ f.known.facts, fact.test ≠ c.test ∧ fact.origin.seq < f.nextSeq) ∧
        (f.push c truth guard).2.known.facts = ⟨c.test, truth, ⟨guard, f.nextSeq⟩⟩ :: f.known.facts) ∧
      ∀ e, f.lookup? c = some e →
        f.push c truth guard = (if e.truth = truth then .implied e else .contradicted e, f)) ∧
    ∀ further n, openAfter 0 further = some n →
      (∀ c truth guard, .push c truth guard ∈ further → c.Matched ∧ c.StampedBy stamp) →
      let later := further.foldl act f
      (∀ c, c.StampedBy stamp → (f.lookup? c).isSome → (later.lookup? c).isSome) ∧
      ∀ x base, (stamp x).range? = some base →
        ∃ r r', f.range? ⟨x, stamp x⟩ = some r ∧ later.range? ⟨x, stamp x⟩ = some r' ∧ r.covers r' = true ∧
          (∃ w, w ∈ r) ∧ ∃ w, w ∈ r' := by
  intro f
  have htraced : f.Traced (·.StampedBy stamp) := replay_traced fun c t g hm => (hpast c t g hm).symm
  refine ⟨fun c truth guard hs => ⟨push_eq_registered_iff, fun hnone => ⟨?_, ?_, ?_, ?_⟩, fun e he => ?_⟩, ?_⟩
  · exact htraced.lookup?_push hstamp hs hnone truth guard
  · have hseq : f.nextSeq ≤ 0 + past.countP Action.isPush := foldl_act_nextSeq past (ofClasses classes)
    omega
  · intro fact hfact
    have hnew := List.find?_eq_none.mp (Known.fact?_eq_none_of_lookup? hnone) fact hfact
    exact ⟨by simpa using hnew, htraced.credits.facts fact hfact⟩
  · rw [push_known hnone]
    exact Known.learn_facts (Known.fact?_eq_none_of_lookup? hnone) _ truth
  · exact push_of_some he _ _
  · intro further n hopen hfurther later
    have hfit := htraced.rangesFit hstamp
    have hsub : later.known.Subsumes stamp f.known := by
      refine htraced.foldl_act_subsumes hstamp hopen (Nat.succ_pos _) hfurther (fun k hk => ?_) _ List.mem_cons_self
      obtain rfl := List.mem_singleton.mp hk
      exact .refl hstamp hfit
    have hclasses : later.classes = f.classes := foldl_act_classes further f
    refine ⟨fun c hs hsome => ?_, fun x base hbase => ?_⟩
    · unfold lookup? at hsome ⊢
      rw [hclasses]
      exact hsub.lookup?_isSome hs hsome
    · obtain ⟨r, w, hr, -, hw⟩ := hfit.exists_range? hstamp hbase
      obtain ⟨r', w', hr', hcovers, hw'⟩ := hsub.ranges x r hr
      exact ⟨r, r', hr, hr', Interval.covers_iff.mpr hcovers, ⟨w, hw⟩, w', hw'⟩

/-- Node 1 is known to be less than 10. That it is below 10, unsigned, is undecided and registers as the second fact,
that it is not less than 10 is contradicted, and the range of node 1 is sharper in a scope inside. -/
theorem push_agrees_with_lookup_less :
    let x : Operand := ⟨1, .int .full⟩
    let ten : Operand := ⟨2, .int (.constant 10)⟩
    let less : Condition := ⟨.lessThan 1 2, false, x, ten⟩
    let below : Condition := ⟨.below 1 2, false, x, ten⟩
    let f := replay .root [.enter, .push less true 7]
    ((f.push below true 9).1 = .registered ∧
      (f.push below true 9).2.lookup? below = some ⟨true, .guard ⟨9, 1⟩⟩) ∧
    f.push less false 9 = (.contradicted ⟨true, .guard ⟨7, 0⟩⟩, f) ∧
    ∃ r r', f.range? x = some r ∧ ((f.push below true 9).2.act .enter).range? x = some r' ∧ r ≠ r' ∧
      r.covers r' = true ∧ ∃ w, w ∈ r' := by
  intro x ten less below f
  let stamp : NodeId → Stamp := fun n => if n = 1 then .int .full else if n = 2 then .int (.constant 10) else .void
  have hstamp : ∀ n r, (stamp n).range? = some r → ∃ w, w ∈ r := by
    intro n r h
    by_cases h₁ : n = 1
    · obtain rfl : Interval.full = r := by simpa [stamp, h₁, Stamp.range?] using h
      exact ⟨0, Interval.admits_iff.mp (by decide)⟩
    · by_cases h₂ : n = 2
      · obtain rfl : Interval.constant 10 = r := by simpa [stamp, h₂, Stamp.range?] using h
        exact ⟨10, Interval.admits_iff.mp (by decide)⟩
      · simp [stamp, h₁, h₂, Stamp.range?] at h
  have hless : less.Matched ∧ less.StampedBy stamp := by
    simp [less, Condition.Matched, Condition.StampedBy, Condition.operands, x, ten, stamp]
  have hbelow : below.Matched ∧ below.StampedBy stamp := by
    simp [below, Condition.Matched, Condition.StampedBy, Condition.operands, x, ten, stamp]
  obtain ⟨hpush, hlater⟩ := push_agrees_with_lookup .root stamp hstamp [.enter, .push less true 7]
    (by simp [hless]) (by decide)
  obtain ⟨hregistered, hnew, -⟩ := hpush below true 9 hbelow.2
  have hnone : f.lookup? below = none := by decide
  obtain ⟨-, hrange⟩ := hlater [.push below true 9, .enter] 1 rfl (by simp [hbelow])
  obtain ⟨r, r', hr, hr', hcovers, -, hw⟩ := hrange 1 .full rfl
  refine ⟨⟨hregistered.mpr hnone, (hnew hnone).1⟩, ?_, r, r', hr, hr', ?_, hcovers, hw⟩
  · exact (hpush less false 9 hless.2).2.2 ⟨true, .guard ⟨7, 0⟩⟩ (by decide)
  · rintro rfl
    have hsharper : f.range? x ≠ ((f.push below true 9).2.act .enter).range? x := by decide
    exact hsharper (hr.trans hr'.symm)

end Facts

end GuardElision
