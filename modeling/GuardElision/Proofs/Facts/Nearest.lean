import GuardElision.Proofs.Facts.Agreement

namespace GuardElision

/-- The source is an origin not later than `o`. -/
def Source.Upto (o : Origin) (s : Source) : Prop :=
  ∃ p, s = .guard p ∧ p.seq ≤ o.seq

variable {o : Origin}

theorem Source.not_upto_stamp : ¬Source.Upto o .stamp := by
  rintro ⟨p, hp, _⟩
  cases hp

theorem Source.upto_guard {p : Origin} : Source.Upto o (.guard p) ↔ p.seq ≤ o.seq := by
  constructor
  · rintro ⟨q, hq, hle⟩
    cases hq
    exact hle
  · exact fun hle => ⟨p, rfl, hle⟩

theorem Source.upto_closer {s t : Source} : (s.closer t).Upto o ↔ s.Upto o ∧ t.Upto o := by
  cases s with
  | stamp => exact ⟨fun h => (not_upto_stamp h).elim, fun h => (not_upto_stamp h.1).elim⟩
  | guard p =>
    cases t with
    | stamp => exact ⟨fun h => (not_upto_stamp h).elim, fun h => (not_upto_stamp h.2).elim⟩
    | guard q =>
      change Source.Upto o (if q.seq ≤ p.seq then .guard p else .guard q) ↔ _
      split <;> simp only [upto_guard] <;> omega

/-- The origins of the bounds that a range has are not later than `o`. -/
def Narrowing.Upto (o : Origin) (n : Narrowing) : Prop :=
  ∀ p, n.lower = some p ∨ n.upper = some p → p.seq ≤ o.seq

theorem Narrowing.upto_of_source? {n : Narrowing} (h : ∀ s, n.source? = some s → s.Upto o) : n.Upto o := by
  unfold source? at h
  intro p hp
  cases hl : n.lower with
  | none =>
    obtain hu : n.upper = some p := by simpa [hl] using hp
    exact Source.upto_guard.mp (h _ (by rw [hl, hu]; rfl))
  | some l =>
    cases hu : n.upper with
    | none =>
      obtain rfl : l = p := by simpa [hl, hu] using hp
      exact Source.upto_guard.mp (h _ (by rw [hl, hu]; rfl))
    | some u =>
      have hlate := Source.upto_guard.mp (h _ (by rw [hl, hu]))
      rw [hl, hu, Option.some.injEq, Option.some.injEq] at hp
      split at hlate <;> rcases hp with rfl | rfl <;> omega

namespace Evidence

/-- The answer, if there is one, rests on an origin not later than `o`. -/
def Upto (o : Origin) (x : Option Evidence) : Prop :=
  ∀ e, x = some e → e.source.Upto o

variable {x y : Option Evidence}

theorem upto_none : Upto o none :=
  fun _ h => nomatch h

theorem upto_some {e : Evidence} : Upto o (some e) ↔ e.source.Upto o :=
  ⟨fun h => h e rfl, fun h _ he => Option.some.inj he ▸ h⟩

theorem upto_of_eq {truth : Bool} (h : x = some ⟨truth, .guard o⟩) : Upto o x := by
  rw [h]
  exact upto_some.mpr (Source.upto_guard.mpr (Nat.le_refl _))

theorem best?_source (a b : Evidence) :
    ∃ e, best? (some a) (some b) = some e ∧ e.source = a.source.closer b.source := by
  by_cases h : a.source.closer b.source = a.source
  · exact ⟨a, if_pos h, h.symm⟩
  · refine ⟨b, if_neg h, ?_⟩
    -- What is not the first source is the second: a stamp beats an origin, and a later one an earlier one.
    cases ha : a.source with
    | stamp => exact absurd (by rw [ha]; rfl) h
    | guard p =>
      cases hb : b.source with
      | stamp => rfl
      | guard q =>
        have hlt : ¬q.seq ≤ p.seq := fun hle => h (by rw [ha, hb]; exact if_pos hle)
        exact (if_neg hlt).symm

theorem upto_best? : Upto o (best? x y) ↔ Upto o x ∧ Upto o y := by
  cases x with
  | none => exact ⟨fun h => ⟨upto_none, h⟩, And.right⟩
  | some a =>
    cases y with
    | none => exact ⟨fun h => ⟨h, upto_none⟩, And.left⟩
    | some b =>
      obtain ⟨e, he, hsource⟩ := best?_source a b
      rw [he, upto_some, upto_some, upto_some, hsource, Source.upto_closer]

theorem upto_foldl {α : Type} {answer : α → Option Evidence} {tests : List α} {start : Option Evidence} :
    Upto o (tests.foldl (fun best p => best? best (answer p)) start) ↔
      Upto o start ∧ ∀ p ∈ tests, Upto o (answer p) := by
  induction tests generalizing start with
  | nil => exact ⟨fun h => ⟨h, by simp⟩, And.left⟩
  | cons p tests ih => rw [List.foldl_cons, ih, upto_best?, List.forall_mem_cons, and_assoc]

end Evidence

namespace Known

open Evidence

variable {k k' : Known} {origin : Origin} {classes : ClassTable} {c d : Condition} {f : Fact} {x : NodeId}

/-- An answer from ranges rests on no earlier origin than those of the bounds it was read off. -/
theorem impliedOrder?_upto {decide? : Interval → Interval → Option Bool} {a b : Operand}
    (h : Upto o (k.impliedOrder? decide? a b)) :
    k.impliedOrder? decide? a b = none ∨
      ∃ na nb, k.narrowing? a = some na ∧ k.narrowing? b = some nb ∧ na.Upto o ∧ nb.Upto o := by
  cases he : k.impliedOrder? decide? a b with
  | none => exact Or.inl rfl
  | some e =>
    rw [he, upto_some] at h
    refine Or.inr ?_
    obtain ⟨ra, _, he⟩ := Option.bind_eq_some_iff.mp he
    obtain ⟨rb, _, he⟩ := Option.bind_eq_some_iff.mp he
    split at he
    next =>
      obtain rfl := Option.some.inj he
      exact (Source.not_upto_stamp h).elim
    next =>
      obtain ⟨na, hna, he⟩ := Option.bind_eq_some_iff.mp he
      obtain ⟨nb, hnb, he⟩ := Option.bind_eq_some_iff.mp he
      obtain ⟨t, _, he⟩ := Option.bind_eq_some_iff.mp he
      obtain rfl := Option.some.inj he
      refine ⟨na, nb, hna, hnb, Narrowing.upto_of_source? fun s hs => ?_, Narrowing.upto_of_source? fun s hs => ?_⟩
      · cases hb : nb.source? with
        | none => simpa [hs, hb] using h
        | some t => exact (Source.upto_closer.mp (by simpa [hs, hb] using h)).1
      · cases ha : na.source? with
        | none => simpa [hs, ha] using h
        | some t => exact (Source.upto_closer.mp (by simpa [hs, ha] using h)).2

theorem impliedOrder?_congr {decide? : Interval → Interval → Option Bool} {a b : Operand}
    (ha : k'.narrowing? a = k.narrowing? a) (hb : k'.narrowing? b = k.narrowing? b) :
    k'.impliedOrder? decide? a b = k.impliedOrder? decide? a b := by
  unfold impliedOrder?
  rw [ha, hb]

/-- A lesson credits itself with a bound of every range that it changes. -/
theorem narrow_ranges (k : Known) (origin : Origin) (a : Operand) (constraint : Interval) (x : NodeId) :
    (k.narrow origin a constraint).ranges.get? x = k.ranges.get? x ∨
      ∃ n, (k.narrow origin a constraint).ranges.get? x = some n ∧ (n.lower = some origin ∨ n.upper = some origin) := by
  unfold narrow
  split
  next => exact Or.inl rfl
  next current _ =>
    split
    next => exact Or.inl rfl
    next range _ =>
      split
      next => exact Or.inl rfl
      next hmoved =>
        dsimp only
        rw [IdMap.get?_insert]
        split
        next =>
          refine Or.inr ⟨_, rfl, ?_⟩
          dsimp only
          by_cases hlo : range.lo = current.range.lo
          · refine Or.inr (if_neg fun hhi => hmoved ?_)
            obtain ⟨lo, hi⟩ := range
            exact congr (congrArg Interval.mk hlo) hhi
          · exact Or.inl (if_neg hlo)
        next => exact Or.inl rfl

theorem learn_ranges (k : Known) (origin : Origin) (d : Condition) (t : Bool) (x : NodeId) :
    (k.learn origin d t).ranges.get? x = k.ranges.get? x ∨
      ∃ n, (k.learn origin d t).ranges.get? x = some n ∧ (n.lower = some origin ∨ n.upper = some origin) := by
  refine learn_induct (Q := fun k' => k'.ranges.get? x = k.ranges.get? x ∨
    ∃ n, k'.ranges.get? x = some n ∧ (n.lower = some origin ∨ n.upper = some origin))
    (Or.inl (by rw [addFact_ranges])) ?_
  intro k' a constraint _ hk'
  rcases k'.narrow_ranges origin a constraint x with he | hcredit
  · rwa [he]
  · exact Or.inr hcredit

/-- A range with earlier origins only was there before the lesson. -/
theorem narrowing?_learn {a : Operand} {n : Narrowing} {t : Bool} (hn : (k.learn origin d t).narrowing? a = some n)
    (hup : n.Upto o) (ho : o.seq < origin.seq) :
    (k.learn origin d t).narrowing? a = k.narrowing? a := by
  rcases k.learn_ranges origin d t a.node with he | ⟨m, hm, hcredit⟩
  · unfold narrowing?
    rw [he]
  · obtain ⟨base, _, hn⟩ := Option.bind_eq_some_iff.mp hn
    rw [hm] at hn
    obtain ⟨range, _, rfl⟩ := Option.map_eq_some_iff.mp hn
    have hle := hup origin hcredit
    omega

end Known

/-- The test compares two integers. -/
def Test.compares : Test → Bool
  | .equals _ _ | .lessThan _ _ | .below _ _ => true
  | .isNull _ | .instanceOf _ _ => false

/-- A test with the given outcome says nothing, by itself, of a condition's null or class test. -/
def Condition.Ignores (classes : ClassTable) (c : Condition) (t : Test) (truth : Bool) : Prop :=
  match c.test with
  | .isNull x => ∀ cls, t = .instanceOf x cls → truth = false
  | .instanceOf x cls =>
    (t = .isNull x → Known.nullClass? classes cls (c.left.stamp.object?.bind (·.cls)) truth = none) ∧
      ∀ tested, t = .instanceOf x tested → Known.classClass? classes cls tested truth = none
  | .equals _ _ | .lessThan _ _ | .below _ _ => True

namespace Known

open Evidence

variable {k k' : Known} {origin : Origin} {classes : ClassTable} {c d : Condition} {f : Fact} {x : NodeId}

theorem fact?_cons (hfacts : k'.facts = f :: k.facts) (t : Test) :
    k'.fact? t = if f.test = t then some f else k.fact? t := by
  unfold fact?
  rw [hfacts, List.find?_cons]
  by_cases h : f.test = t <;> simp [h]

theorem classFacts_cons (hk : k.Mirrored) (hk' : k'.Mirrored) (hfacts : k'.facts = f :: k.facts) (x : NodeId) :
    k'.classFacts x = (f.classFact? x).toList ++ k.classFacts x := by
  rw [hk.classFacts_eq, hk'.classFacts_eq, hfacts, List.filterMap_cons]
  cases f.classFact? x <;> rfl

/-- A fact that is later than all an answer rests on has no say in it. -/
theorem ignores_of_upto (hk : k.Mirrored) (hk' : k'.Mirrored) (hfacts : k'.facts = f :: k.facts)
    (hup : Upto o (implied? classes k' c))
    (ho : o.seq < f.origin.seq) : c.Ignores classes f.test f.truth := by
  have hlate : ∀ {t : Option Bool}, Upto o (t.map (ofOrigin · f.origin)) → t = none := by
    intro t h
    cases t with
    | none => rfl
    | some t =>
      have hle : f.origin.seq ≤ o.seq := Source.upto_guard.mp (upto_some.mp h)
      omega
  unfold implied? at hup
  unfold Condition.Ignores
  cases hc : c.test with
  | isNull x =>
    simp only [hc] at hup
    intro cls ht
    by_contra htrue
    rw [Bool.not_eq_false] at htrue
    unfold impliedNull? at hup
    split at hup
    next => exact Source.not_upto_stamp (upto_some.mp hup)
    split at hup
    next => exact Source.not_upto_stamp (upto_some.mp hup)
    have hfind : (k'.classFacts x).find? (·.truth) = some ⟨cls, f.truth, f.origin⟩ := by
      rw [classFacts_cons hk hk' hfacts]
      simp [Fact.classFact?, ht, htrue]
    rw [hfind] at hup
    have hle : f.origin.seq ≤ o.seq := Source.upto_guard.mp (upto_some.mp hup)
    omega
  | instanceOf x cls =>
    simp only [hc] at hup
    unfold impliedClass? at hup
    split at hup
    next => exact (Source.not_upto_stamp (upto_some.mp hup)).elim
    obtain ⟨hnull, hclass⟩ := upto_foldl.mp hup
    refine ⟨fun ht => hlate ?_, fun tested ht => hlate ?_⟩
    · rw [fact?_cons hfacts, if_pos ht] at hnull
      exact hnull
    · refine hclass ⟨tested, f.truth, f.origin⟩ (hk'.mem_classFacts.mpr ?_)
      rw [hfacts, ← ht]
      exact List.mem_cons_self
  | equals | lessThan | below => trivial

theorem best?_none_right (x : Option Evidence) : best? x none = x := by
  cases x <;> rfl

/-- What a null or class test follows from does not change with a fact that says nothing of it. -/
theorem implied?_of_ignores (hk : k.Mirrored) (hk' : k'.Mirrored) (hfacts : k'.facts = f :: k.facts)
    (hnew : k.fact? f.test = none)
    (hc : c.test.compares = false) (h : c.Ignores classes f.test f.truth) :
    implied? classes k' c = implied? classes k c := by
  unfold Condition.Ignores at h
  unfold implied?
  cases ht : c.test with
  | isNull x =>
    simp only [ht] at h ⊢
    have hfind : (k'.classFacts x).find? (·.truth) = (k.classFacts x).find? (·.truth) := by
      rw [classFacts_cons hk hk' hfacts]
      cases he : f.classFact? x with
      | none => rfl
      | some e =>
        have hf := Fact.classFact?_eq_some_iff.mp he
        have hfalse : e.truth = false := (congrArg Fact.truth hf).symm.trans (h e.cls (congrArg Fact.test hf))
        exact List.find?_cons_of_neg (by simp [hfalse])
    unfold impliedNull?
    rw [hfind]
  | instanceOf x cls =>
    simp only [ht] at h ⊢
    have hnull : ((k'.fact? (.isNull x)).bind fun e =>
          (nullClass? classes cls (c.left.stamp.object?.bind (·.cls)) e.truth).map (ofOrigin · e.origin)) =
        (k.fact? (.isNull x)).bind fun e =>
          (nullClass? classes cls (c.left.stamp.object?.bind (·.cls)) e.truth).map (ofOrigin · e.origin) := by
      rw [fact?_cons hfacts]
      split
      next htest => rw [← htest, hnew, Option.bind_some, h.1 htest, Option.map_none, Option.bind_none]
      next => rfl
    have hclass : ∀ start, (k'.classFacts x).foldl (fun best e =>
          best? best ((classClass? classes cls e.cls e.truth).map (ofOrigin · e.origin))) start =
        (k.classFacts x).foldl (fun best e =>
          best? best ((classClass? classes cls e.cls e.truth).map (ofOrigin · e.origin))) start := by
      intro start
      rw [classFacts_cons hk hk' hfacts]
      cases he : f.classFact? x with
      | none => rfl
      | some e =>
        have hf := Fact.classFact?_eq_some_iff.mp he
        have hsilent : classClass? classes cls e.cls e.truth = none := by
          rw [← h.2 e.cls (congrArg Fact.test hf), hf]
        rw [Option.toList_some, List.singleton_append, List.foldl_cons, hsilent, Option.map_none, best?_none_right]
    unfold impliedClass?
    rw [hnull, hclass]
  | equals | lessThan | below => simp [ht, Test.compares] at hc

theorem implied?_order (classes : ClassTable) (hc : c.test.compares = true) :
    ∃ R decide?, Interval.Answers R decide? ∧ ∀ k, implied? classes k c = k.impliedOrder? decide? c.left c.right := by
  unfold implied?
  cases ht : c.test with
  | equals => exact ⟨_, _, Interval.answers_eq, fun _ => rfl⟩
  | lessThan => exact ⟨_, _, Interval.answers_lt, fun _ => rfl⟩
  | below => exact ⟨_, _, Interval.answers_below, fun _ => rfl⟩
  | isNull | instanceOf => simp [ht, Test.compares] at hc

theorem narrowing?_of_upto {t : Bool} (hc : c.test.compares = true)
    (hup : Upto o (implied? classes (k.learn origin d t) c)) (ho : o.seq < origin.seq)
    (hsome : implied? classes (k.learn origin d t) c ≠ none) :
    (k.learn origin d t).narrowing? c.left = k.narrowing? c.left ∧
      (k.learn origin d t).narrowing? c.right = k.narrowing? c.right := by
  obtain ⟨_, _, _, horder⟩ := implied?_order classes hc
  rw [horder] at hup hsome
  obtain hnone | ⟨na, nb, hna, hnb, hupa, hupb⟩ := impliedOrder?_upto hup
  · exact absurd hnone hsome
  · exact ⟨narrowing?_learn hna hupa ho, narrowing?_learn hnb hupb ho⟩

section

variable {stamp : NodeId → Stamp} {t truth : Bool} {e : Evidence}
  (hstamp : ∀ x r, (stamp x).range? = some r → ∃ w, w ∈ r) (hfit : k.RangesFit stamp) (hd : d.StampedBy stamp)
  (hmirrored : k.Mirrored) (hnew : k.fact? d.test = none) (hc : c.StampedBy stamp) (ho : o.seq < origin.seq)
  (hup : Upto o ((k.learn origin d t).lookup? classes c))

include ho hup

theorem test_ne_of_upto : d.test ≠ c.test := by
  intro ht
  have hfact := (upto_best?.mp hup).1
  rw [learn_fact?, if_pos ht.symm] at hfact
  have hle : origin.seq ≤ o.seq := Source.upto_guard.mp (upto_some.mp hfact)
  omega

include hstamp hfit hd hmirrored hnew hc

/-- An answer that rests on an earlier origin was given before the lesson. -/
theorem lookup?_of_learn : (k.learn origin d t).lookup? classes c = k.lookup? classes c := by
  have hfacts := learn_facts hnew origin t
  have hmirrored' := hmirrored.learn hnew origin t
  have himplied := (upto_best?.mp hup).2
  have hsame : implied? classes (k.learn origin d t) c = implied? classes k c := by
    cases hk : c.test.compares with
    | false => exact 
      implied?_of_ignores hmirrored hmirrored' hfacts hnew hk (ignores_of_upto hmirrored hmirrored' hfacts himplied ho)
    | true =>
      by_cases hnone : implied? classes (k.learn origin d t) c = none
      · have hsub : (k.learn origin d t).Subsumes stamp k := (hfit.learn hstamp hd hnew t).2
        rw [hnone, eq_comm, ← Option.not_isSome_iff_eq_none]
        intro hsome
        have hsome' := hsub.implied? hc hsome
        rw [hnone] at hsome'
        cases hsome'
      · obtain ⟨_, _, _, horder⟩ := implied?_order classes hk
        obtain ⟨hleft, hright⟩ := narrowing?_of_upto hk himplied ho hnone
        rw [horder, horder]
        exact impliedOrder?_congr hleft hright
  have hfact : (k.learn origin d t).fact? c.test = k.fact? c.test := by
    rw [learn_fact?, if_neg (test_ne_of_upto ho hup).symm]
  unfold lookup?
  rw [hsame, hfact]

omit hstamp hfit hd hmirrored hnew hc ho hup in
theorem lookup?_empty (h : ({} : Known).lookup? classes c = some e) :
    implied? classes {} c = some ⟨e.truth, .stamp⟩ := by
  have hcredits : ({} : Known).Credits fun _ => False := ⟨by simp, fun x n hn => by simp at hn⟩
  obtain ⟨truth, source⟩ := e
  cases source with
  | stamp => exact h
  | guard p => exact (lookup?_names mirrored_empty hcredits h p rfl).elim

omit hfit hd in
/-- Only a comparison that the lesson decides by itself can keep its earlier answer. -/
theorem compares_of_implies (himplies : Facts.implies classes d t c truth = true) : c.test.compares = true := by
  have himplied := (upto_best?.mp hup).2
  by_contra hk
  rw [Bool.not_eq_true] at hk
  have hignores : c.Ignores classes d.test t :=
    ignores_of_upto hmirrored (hmirrored.learn hnew origin t) (learn_facts hnew origin t) himplied ho
  have hlone : ∀ first, (({} : Known).learn first d t).lookup? classes c = ({} : Known).lookup? classes c := by
    intro first
    have hfacts := learn_facts (k := {}) (c := d) rfl first t
    unfold lookup?
    rw [learn_fact?, if_neg (test_ne_of_upto ho hup).symm,
      implied?_of_ignores mirrored_empty (mirrored_empty.learn rfl first t) hfacts rfl hk hignores]
  have hempty : ∃ e, ({} : Known).lookup? classes c = some e := by
    unfold Facts.implies at himplies
    cases hl : (Facts.ofClasses classes).lookup? d with
    | some e =>
      rw [Facts.push_of_some hl] at himplies
      by_cases hsame : e.truth = t
      · simp only [hsame, ↓reduceIte] at himplies
        obtain ⟨e', he', _⟩ := (Option.any_eq_true _ _).mp himplies
        exact ⟨e', he'⟩
      · simp [hsame] at himplies
    | none =>
      rw [Facts.push_of_none hl] at himplies
      obtain ⟨e', he', _⟩ := (Option.any_eq_true _ _).mp himplies
      exact ⟨e', (hlone _).symm.trans he'⟩
  obtain ⟨e, he⟩ := hempty
  have hstamped : implied? classes (k.learn origin d t) c = some ⟨e.truth, .stamp⟩ :=
    implied?_of_stamp hstamp (fun x n hn => by simp at hn) hc (lookup?_empty he) _
  rw [hstamped] at himplied
  exact Source.not_upto_stamp (upto_some.mp himplied)

omit hstamp hfit hd hmirrored hnew hc hup in
/-- A comparison that keeps an earlier answer was a fact itself, or the lesson moved no bound of its operands. -/
theorem fact?_or_narrowing? (hk : c.test.compares = true)
    (h : (k.learn origin d t).lookup? classes c = some ⟨truth, .guard o⟩) :
    k.fact? c.test = some ⟨c.test, truth, o⟩ ∨
      ∀ a ∈ [c.left, c.right], (k.learn origin d t).narrowing? a = k.narrowing? a := by
  have hup := upto_of_eq h
  by_cases hnone : implied? classes (k.learn origin d t) c = none
  · left
    rw [lookup?, hnone, best?_none_right, learn_fact?, if_neg (test_ne_of_upto ho hup).symm] at h
    obtain ⟨⟨test, _, _⟩, hf, he⟩ := Option.map_eq_some_iff.mp h
    obtain rfl : test = c.test := by simpa using List.find?_some hf
    cases he
    exact hf
  · right
    obtain ⟨hleft, hright⟩ := narrowing?_of_upto hk (upto_best?.mp hup).2 ho hnone
    exact List.forall_mem_cons.mpr ⟨hleft, List.forall_mem_cons.mpr ⟨hright, by simp⟩⟩

end

/-- What is known grew out of `base` by lessons numbered from `seq` on. -/
inductive Since (classes : ClassTable) (stamp : NodeId → Stamp) (seq : Nat) (base : Known) : Known → Prop
  | refl : Since classes stamp seq base base
  | learn {k : Known} {origin : Origin} {d : Condition} (t : Bool) (h : Since classes stamp seq base k)
    (hseq : seq ≤ origin.seq) (hmirrored : k.Mirrored) (hfit : k.RangesFit stamp) (hd : d.StampedBy stamp)
    (hnone : k.lookup? classes d = none) : Since classes stamp seq base (k.learn origin d t)

/-- An answer that rests on an origin before all those lessons was given before them. -/
theorem Since.lookup?_eq {classes : ClassTable} {stamp : NodeId → Stamp} {seq : Nat} {base k : Known} {c : Condition}
    {truth : Bool} {o : Origin} (hstamp : ∀ x r, (stamp x).range? = some r → ∃ w, w ∈ r) (hc : c.StampedBy stamp)
    (h : Since classes stamp seq base k) (ho : o.seq < seq) (hk : k.lookup? classes c = some ⟨truth, .guard o⟩) :
    base.lookup? classes c = some ⟨truth, .guard o⟩ := by
  induction h with
  | refl => exact hk
  | learn t _ hseq hmirrored hfit hd hnone ih =>
    have hback := lookup?_of_learn hstamp hfit hd hmirrored (fact?_eq_none_of_lookup? hnone) hc
      (Nat.lt_of_lt_of_le ho hseq) (Evidence.upto_of_eq hk)
    exact ih (hback.symm.trans hk)

end Known

namespace Facts

variable {stamp : NodeId → Stamp} {classes : ClassTable} {f : Facts} {c : Condition}

/-- In each scope, either the fact with number `seq` is not known, or what is known grew out of `base`. -/
def GrewFrom (stamp : NodeId → Stamp) (seq : Nat) (base : Known) (f : Facts) : Prop :=
  ∀ k ∈ f.scopes, (∀ e ∈ k.facts, e.origin.seq ≠ seq) ∨ Known.Since f.classes stamp seq base k

theorem GrewFrom.act {seq : Nat} {base : Known} (hstamp : ∀ x r, (stamp x).range? = some r → ∃ w, w ∈ r)
    (h : f.GrewFrom stamp seq base) (htraced : f.Traced (·.StampedBy stamp)) (hseq : seq < f.nextSeq) (a : Action)
    (hpush : ∀ c truth guard, a = .push c truth guard → c.StampedBy stamp) : (f.act a).GrewFrom stamp seq base := by
  cases a with
  | enter =>
    intro k hk
    rw [Facts.act, scopes_enterScope] at hk
    rcases List.mem_cons.mp hk with rfl | hk
    · exact h _ List.mem_cons_self
    · exact h k hk
  | exit =>
    intro k hk
    rw [Facts.act, scopes_exitScope] at hk
    rw [act_classes]
    split at hk
    · exact h k hk
    · exact h k (List.mem_cons_of_mem _ hk)
  | push d t guard =>
    have hd := hpush d t guard rfl
    intro k hk
    rw [act_classes]
    rw [Facts.act, scopes, push_outer] at hk
    rcases List.mem_cons.mp hk with rfl | hk
    · cases hl : f.lookup? d with
      | some e =>
        rw [push_of_some hl]
        exact h _ List.mem_cons_self
      | none =>
        rw [push_known hl]
        refine (h _ List.mem_cons_self).imp (fun hno => ?_) fun hsince => ?_
        · rw [Known.learn_facts (Known.fact?_eq_none_of_lookup? hl)]
          exact List.forall_mem_cons.mpr ⟨hseq.ne', hno⟩
        · exact .learn t hsince hseq.le f.known_mirrored (htraced.rangesFit hstamp) hd hl
    · exact h k (List.mem_cons_of_mem _ hk)

theorem Traced.act {P : Condition → Prop} (h : f.Traced P) (a : Action)
    (hP : ∀ c truth guard, a = .push c truth guard → P c ∧ c.Matched) : (f.act a).Traced P := by
  cases a with
  | enter => exact h.enterScope
  | exit => exact h.exitScope
  | push c truth guard =>
    obtain ⟨hc, hm⟩ := hP c truth guard rfl
    exact h.push hc hm truth guard

theorem GrewFrom.foldl_act {seq : Nat} {base : Known} (hstamp : ∀ x r, (stamp x).range? = some r → ∃ w, w ∈ r)
    {actions : List Action} (h : f.GrewFrom stamp seq base) (htraced : f.Traced (·.StampedBy stamp))
    (hseq : seq < f.nextSeq)
    (hpush : ∀ c truth guard, .push c truth guard ∈ actions → c.Matched ∧ c.StampedBy stamp) :
    (actions.foldl Facts.act f).GrewFrom stamp seq base := by
  induction actions generalizing f with
  | nil => exact h
  | cons a actions ih =>
    have ha : ∀ c truth guard, a = .push c truth guard → c.StampedBy stamp ∧ c.Matched :=
      fun c truth guard he => (hpush c truth guard (he ▸ List.mem_cons_self)).symm
    refine ih (h.act hstamp htraced hseq a fun c truth guard he => (ha c truth guard he).1) (htraced.act a ha)
      (hseq.trans_le (act_nextSeq_le f a)) fun c truth guard hm => hpush c truth guard (List.mem_cons_of_mem a hm)

/-- What a push registers is where its fact grows from. -/
theorem grewFrom_push {d : Condition} (htraced : f.Traced (·.StampedBy stamp)) (hnone : f.lookup? d = none) (t : Bool)
    (guard : NodeId) :
    (f.push d t guard).2.GrewFrom stamp f.nextSeq (f.known.learn ⟨guard, f.nextSeq⟩ d t) := by
  intro k hk
  rw [scopes, push_outer, push_known hnone] at hk
  rcases List.mem_cons.mp hk with rfl | hk
  · exact Or.inr .refl
  · obtain ⟨lessons, hlearnt, hlessons⟩ := htraced.outer k hk
    have hcredits : k.Credits fun o => o.seq < f.nextSeq := hlearnt.credits fun l hl => (hlessons l hl).2
    exact Or.inl fun e he => (hcredits.facts e he).ne

theorem replay_append_push (classes : ClassTable) (past rest : List Action) (d : Condition) (t : Bool) (guard : NodeId) :
    replay classes (past ++ .push d t guard :: rest) = rest.foldl act ((replay classes past).push d t guard).2 := by
  rw [replay, List.foldl_append, List.foldl_cons]
  rfl

/-- While a fact is known, what is known grew out of what its push had taught. -/
theorem since_of_mem {past rest : List Action} {d : Condition} {t : Bool} {guard : NodeId}
    (hstamp : ∀ x r, (stamp x).range? = some r → ∃ w, w ∈ r)
    (hpush : ∀ c truth g, .push c truth g ∈ past ++ .push d t guard :: rest → c.Matched ∧ c.StampedBy stamp)
    (hnone : (replay classes past).lookup? d = none) {e : Fact}
    (he : e ∈ (replay classes (past ++ .push d t guard :: rest)).known.facts)
    (hseq : (replay classes past).nextSeq = e.origin.seq) :
    Known.Since classes stamp e.origin.seq ((replay classes past).known.learn ⟨guard, e.origin.seq⟩ d t)
      (replay classes (past ++ .push d t guard :: rest)).known := by
  have htraced : (replay classes past).Traced (·.StampedBy stamp) :=
    replay_traced fun c truth g hm => (hpush c truth g (List.mem_append_left _ hm)).symm
  obtain ⟨hmatched, hstamped⟩ := hpush d t guard (by simp)
  have hlt : (replay classes past).nextSeq < ((replay classes past).push d t guard).2.nextSeq := by
    rw [push_of_none hnone]
    exact Nat.lt_succ_self _
  have hgrew := (grewFrom_push htraced hnone t guard).foldl_act hstamp (htraced.push hstamped hmatched t guard) hlt
    fun c truth g hm => hpush c truth g (List.mem_append_right past (List.mem_cons_of_mem _ hm))
  rw [← replay_append_push, hseq] at hgrew
  rcases hgrew _ List.mem_cons_self with hno | hsince
  · exact absurd rfl (hno e he)
  · rwa [replay_classes] at hsince

theorem exists_push (classes : ClassTable) (actions : List Action) :
    ∀ k ∈ (replay classes actions).scopes, ∀ e ∈ k.facts, ∃ past d rest,
      actions = past ++ .push d e.truth e.origin.guard :: rest ∧ d.test = e.test ∧
        (replay classes past).nextSeq = e.origin.seq ∧ (replay classes past).lookup? d = none := by
  induction actions using List.reverseRecOn with
  | nil =>
    intro k hk e he
    obtain rfl := List.mem_singleton.mp hk
    cases he
  | append_singleton actions a ih =>
    have hreplay : replay classes (actions ++ [a]) = (replay classes actions).act a := List.foldl_concat ..
    have hlater : ∀ k ∈ (replay classes actions).scopes, ∀ e ∈ k.facts, ∃ past d rest,
        actions ++ [a] = past ++ .push d e.truth e.origin.guard :: rest ∧ d.test = e.test ∧
          (replay classes past).nextSeq = e.origin.seq ∧ (replay classes past).lookup? d = none := by
      intro k hk e he
      obtain ⟨past, d, rest, hsplit, hd⟩ := ih k hk e he
      exact ⟨past, d, rest ++ [a], by rw [hsplit, List.append_assoc, List.cons_append], hd⟩
    rw [hreplay]
    intro k hk
    cases a with
    | enter =>
      rw [Facts.act, scopes_enterScope] at hk
      rcases List.mem_cons.mp hk with rfl | hk
      · exact hlater _ List.mem_cons_self
      · exact hlater k hk
    | exit =>
      rw [Facts.act, scopes_exitScope] at hk
      split at hk
      · exact hlater k hk
      · exact hlater k (List.mem_cons_of_mem _ hk)
    | push d t guard =>
      rw [Facts.act, scopes, push_outer] at hk
      rcases List.mem_cons.mp hk with rfl | hk
      · cases hl : (replay classes actions).lookup? d with
        | some e =>
          rw [push_of_some hl]
          exact hlater _ List.mem_cons_self
        | none =>
          rw [push_known hl, Known.learn_facts (Known.fact?_eq_none_of_lookup? hl)]
          refine List.forall_mem_cons.mpr ⟨?_, hlater _ List.mem_cons_self⟩
          exact ⟨actions, d, [], rfl, rfl, rfl, hl⟩
      · exact hlater k (List.mem_cons_of_mem _ hk)

/-- After any scopes and pushes, if every node has one stamp and integer stamps describe some value: an answer
that names an origin was given, with that origin, before each later fact that is still known was registered. If such
a fact decides the condition by itself, the condition is a comparison, and its test was a fact of that origin
already or the later fact moved no bound of its operands. -/
theorem later_facts_left_answer (classes : ClassTable) (stamp : NodeId → Stamp)
    (hstamp : ∀ x r, (stamp x).range? = some r → ∃ w, w ∈ r) (actions : List Action)
    (hpush : ∀ c truth guard, .push c truth guard ∈ actions → c.Matched ∧ c.StampedBy stamp) {c : Condition}
    (hc : c.StampedBy stamp) {truth : Bool} {o : Origin}
    (h : (replay classes actions).lookup? c = some ⟨truth, .guard o⟩) :
    ∀ e ∈ (replay classes actions).known.facts, o.seq < e.origin.seq →
      ∃ past d rest, actions = past ++ .push d e.truth e.origin.guard :: rest ∧ d.test = e.test ∧
        (replay classes past).nextSeq = e.origin.seq ∧
        (replay classes past).lookup? c = some ⟨truth, .guard o⟩ ∧
        (implies classes d e.truth c truth = true → c.test.compares = true ∧ c.test ≠ d.test ∧
          ((replay classes past).known.fact? c.test = some ⟨c.test, truth, o⟩ ∨
            ∀ a ∈ [c.left, c.right],
              (replay classes (past ++ [.push d e.truth e.origin.guard])).known.narrowing? a =
                (replay classes past).known.narrowing? a)) := by
  intro e he ho
  obtain ⟨past, d, rest, rfl, hd, hseq, hnone⟩ := exists_push classes actions _ List.mem_cons_self e he
  refine ⟨past, d, rest, rfl, hd, hseq, ?_⟩
  have hstamped := (hpush d e.truth e.origin.guard (by simp)).2
  have hfit : (replay classes past).known.RangesFit stamp :=
    (replay_traced fun c t g hm => (hpush c t g (List.mem_append_left _ hm)).symm).rangesFit hstamp
  have hsince := since_of_mem hstamp hpush hnone he hseq
  rw [lookup?, replay_classes] at h hnone
  have hlearnt := hsince.lookup?_eq hstamp hc ho h
  have hup := Evidence.upto_of_eq hlearnt
  have hnew := Known.fact?_eq_none_of_lookup? hnone
  have hmirrored := (replay classes past).known_mirrored
  have hback := Known.lookup?_of_learn hstamp hfit hstamped hmirrored hnew hc ho hup
  refine ⟨?_, fun himplies => ?_⟩
  · rw [lookup?, replay_classes]
    exact hback.symm.trans hlearnt
  · have hk := Known.compares_of_implies hstamp hmirrored hnew hc ho hup himplies
    refine ⟨hk, (Known.test_ne_of_upto ho hup).symm, ?_⟩
    have hknown : (replay classes (past ++ [.push d e.truth e.origin.guard])).known =
        (replay classes past).known.learn ⟨e.origin.guard, e.origin.seq⟩ d e.truth := by
      rw [replay_append_push, ← hseq]
      exact push_known (by rwa [lookup?, replay_classes]) e.truth e.origin.guard
    rw [hknown]
    exact Known.fact?_or_narrowing? ho hk hlearnt

/-- Node 1 is less than 10, and then less than node 3, which is at most 10. Either fact shows by itself that node 1
is less than 15, but the second moves no bound of node 1 and the first is named. -/
theorem later_facts_left_answer_confirmed :
    let x : Operand := ⟨1, .int .full⟩
    let ten : Operand := ⟨2, .int (.constant 10)⟩
    let y : Operand := ⟨3, .int (.bounded (-5) 10)⟩
    let fifteen : Operand := ⟨4, .int (.constant 15)⟩
    let first : Condition := ⟨.lessThan 1 2, false, x, ten⟩
    let second : Condition := ⟨.lessThan 1 3, false, x, y⟩
    let c : Condition := ⟨.lessThan 1 4, false, x, fifteen⟩
    let actions : List Action := [.enter, .push first true 7, .push second true 8]
    (replay .root actions).lookup? c = some ⟨true, .guard ⟨7, 0⟩⟩ ∧
      ⟨second.test, true, ⟨8, 1⟩⟩ ∈ (replay .root actions).known.facts ∧ implies .root second true c true = true ∧
      ∃ past d rest, actions = past ++ .push d true 8 :: rest ∧ d.test = second.test ∧
        (replay .root past).lookup? c = some ⟨true, .guard ⟨7, 0⟩⟩ := by
  intro x ten y fifteen first second c actions
  let stamp : NodeId → Stamp := fun n =>
    if n = 1 then .int .full else if n = 2 then .int (.constant 10)
    else if n = 3 then .int (.bounded (-5) 10) else if n = 4 then .int (.constant 15) else .void
  have hstamp : ∀ n r, (stamp n).range? = some r → ∃ w, w ∈ r := by
    intro n r h
    refine ⟨if n = 4 then 15 else if n = 2 then 10 else 0, Interval.admits_iff.mp ?_⟩
    simp only [stamp] at h
    split at h
    next h₁ =>
      cases h
      subst h₁
      decide
    split at h
    next h₂ =>
      cases h
      subst h₂
      decide
    split at h
    next h₃ =>
      cases h
      subst h₃
      decide
    split at h
    next h₄ =>
      cases h
      subst h₄
      decide
    next => cases h
  have hfirst : first.Matched ∧ first.StampedBy stamp := by
    simp [first, Condition.Matched, Condition.StampedBy, Condition.operands, x, ten, stamp]
  have hsecond : second.Matched ∧ second.StampedBy stamp := by
    simp [second, Condition.Matched, Condition.StampedBy, Condition.operands, x, y, stamp]
  have hpush : ∀ c truth guard, .push c truth guard ∈ actions → c.Matched ∧ c.StampedBy stamp := by
    intro d t guard hm
    rcases List.mem_cons.mp hm with he | hm
    · cases he
    rcases List.mem_cons.mp hm with he | hm
    · cases he
      exact hfirst
    · cases List.mem_singleton.mp hm
      exact hsecond
  have hc : c.StampedBy stamp := by simp [c, Condition.StampedBy, Condition.operands, x, fifteen, stamp]
  have hlookup : (replay .root actions).lookup? c = some ⟨true, .guard ⟨7, 0⟩⟩ := by decide
  have hmem : ⟨second.test, true, ⟨8, 1⟩⟩ ∈ (replay .root actions).known.facts := by decide
  obtain ⟨past, d, rest, hsplit, hd, -, hbefore, -⟩ :=
    later_facts_left_answer .root stamp hstamp actions hpush hc hlookup _ hmem (by decide)
  exact ⟨hlookup, hmem, by decide, past, d, rest, hsplit, hd, hbefore⟩

end Facts

end GuardElision
