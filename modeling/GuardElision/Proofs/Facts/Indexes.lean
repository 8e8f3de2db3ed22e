import GuardElision.Proofs.Facts.Nearest

namespace GuardElision

/-- Integer operands have the range that belongs to their node. -/
def Condition.RangedBy (range : NodeId → Interval) (c : Condition) : Prop :=
  ∀ o ∈ c.operands, ∀ r, o.stamp.range? = some r → r = range o.node

theorem ClassIndex.kept?_eq_none_iff {l : List ClassFact} : kept? l = none ↔ l = [] := by
  cases l <;> simp [kept?]

namespace Narrowing

/-- A range with an origin is not the one it refines. -/
theorem Refines.range_ne {n : Narrowing} {base : Interval} (h : n.Refines base)
    (ho : n.lower.isSome ∨ n.upper.isSome) : n.range ≠ base := by
  rintro rfl
  rcases ho with ho | ho
  · exact h.lower.mp ho rfl
  · exact h.upper.mp ho rfl

end Narrowing

namespace Known

variable {range : NodeId → Interval} {k : Known} {origin : Origin}

/-- Every kept range refines the range of its node and has an origin. -/
structure KeepsMoved (range : NodeId → Interval) (k : Known) : Prop where
  refines : ∀ x n, k.ranges.get? x = some n → n.Refines (range x)
  moved : ∀ x n, k.ranges.get? x = some n → n.lower.isSome ∨ n.upper.isSome

/-- Origins in ranges are those of facts. -/
def OwnsOrigins (k : Known) : Prop :=
  k.Credits fun o => ∃ f ∈ k.facts, f.origin = o

theorem KeepsMoved.narrow (hrange : ∀ x, ∃ w, w ∈ range x) (h : k.KeepsMoved range) {o : Operand}
    (ho : ∀ r, o.stamp.range? = some r → r = range o.node) (constraint : Interval) :
    (k.narrow origin o constraint).KeepsMoved range := by
  have hkept : ∀ base, o.stamp.range? = some base →
      (∃ w, w ∈ base) ∧ ∀ n, k.ranges.get? o.node = some n → n.Refines base := by
    intro base hbase
    rw [ho base hbase]
    exact ⟨hrange o.node, h.refines o.node⟩
  refine ⟨fun x n hn => ?_, fun x n hn => ?_⟩
  · rcases narrow_refines hkept hn with hn | ⟨rfl, base, hbase, hrefines⟩
    · exact h.refines x n hn
    · exact ho base hbase ▸ hrefines
  · rcases k.narrow_ranges origin o constraint x with he | ⟨m, hm, hcredit⟩
    · rw [he] at hn
      exact h.moved x n hn
    · cases hn.symm.trans hm
      exact hcredit.imp (fun h => by simp [h]) fun h => by simp [h]

theorem KeepsMoved.learn (hrange : ∀ x, ∃ w, w ∈ range x) (h : k.KeepsMoved range) {c : Condition}
    (hc : c.RangedBy range) (truth : Bool) : (k.learn origin c truth).KeepsMoved range :=
  learn_induct ⟨by simpa using h.refines, by simpa using h.moved⟩ fun _ o constraint ho hk =>
    hk.narrow hrange (hc o ho) constraint

/-- The origin of a lesson is that of the fact it adds. -/
theorem OwnsOrigins.learn (h : k.OwnsOrigins) {c : Condition} (hnew : k.fact? c.test = none) (truth : Bool) :
    (k.learn origin c truth).OwnsOrigins := by
  unfold OwnsOrigins
  rw [learn_facts hnew]
  refine (h.mono ?_).learn ⟨_, List.mem_cons_self, rfl⟩ c truth
  rintro o ⟨f, hf, rfl⟩
  exact ⟨f, List.mem_cons_of_mem _ hf, rfl⟩

namespace Learnt

variable {classes : ClassTable} {lessons : List Lesson}

theorem keepsMoved (hrange : ∀ x, ∃ w, w ∈ range x) (h : Learnt classes lessons k)
    (hc : ∀ l ∈ lessons, l.condition.RangedBy range) : k.KeepsMoved range := by
  induction h with
  | nil => exact ⟨fun x n hn => by simp at hn, fun x n hn => by simp at hn⟩
  | @cons past k l _ _ _ _ ih =>
    obtain ⟨hl, hpast⟩ := List.forall_mem_cons.mp hc
    exact (ih hpast).learn hrange hl l.truth

theorem ownsOrigins (h : Learnt classes lessons k) : k.OwnsOrigins := by
  induction h with
  | nil => exact ⟨by simp, fun x n hn => by simp at hn⟩
  | @cons past k l _ _ _ hnone ih => exact ih.learn (fact?_eq_none_of_lookup? hnone) l.truth

theorem facts_descend (h : Learnt classes lessons k) : k.facts.Pairwise fun f e => e.origin.seq < f.origin.seq := by
  rw [h.facts, List.pairwise_map]
  induction h with
  | nil => exact .nil
  | cons _ hlate _ _ ih => exact List.pairwise_cons.mpr ⟨hlate, ih⟩

theorem classFacts_descend (h : Learnt classes lessons k) (x : NodeId) :
    (k.classFacts x).Pairwise fun t u => u.origin.seq < t.origin.seq := by
  rw [h.mirrored.classFacts_eq]
  refine h.facts_descend.filterMap _ fun f e hfe t ht u hu => ?_
  rw [Fact.classFact?_eq_some_iff] at ht hu
  subst ht hu
  exact hfe

end Learnt

theorem Mirrored.classTests_eq_none_iff (h : k.Mirrored) (x : NodeId) :
    k.classTests.lists.get? x = none ↔ ∀ f ∈ k.facts, ∀ cls, f.test ≠ .instanceOf x cls := by
  rw [h x, ClassIndex.kept?_eq_none_iff, List.filterMap_eq_nil_iff]
  refine forall₂_congr fun f _ => ⟨fun h cls ht => ?_, fun h => Option.eq_none_iff_forall_ne_some.mpr fun e he => ?_⟩
  · have he : f.classFact? x = some ⟨cls, f.truth, f.origin⟩ := Fact.classFact?_eq_some_iff.mpr (by rw [← ht])
    rw [h] at he
    cases he
  · exact h e.cls (by rw [Fact.classFact?_eq_some_iff.mp he])

theorem classTests_eq_some {x : NodeId} {tests : List ClassFact} (h : k.classTests.lists.get? x = some tests) :
    k.classFacts x = tests := by
  rw [classFacts, ClassIndex.listed, h, Option.getD_some]

/-- The lists of class tests and the ranges say what the facts say, for nodes with given ranges of their own. -/
structure Indexed (range : NodeId → Interval) (k : Known) : Prop where
  /-- A value without a list has no facts about its class. -/
  untested : ∀ x, k.classTests.lists.get? x = none ↔ ∀ f ∈ k.facts, ∀ cls, f.test ≠ .instanceOf x cls
  /-- A list holds the facts about the class of its value. -/
  tested : ∀ x tests, k.classTests.lists.get? x = some tests →
    ∀ t, t ∈ tests ↔ ⟨.instanceOf x t.cls, t.truth, t.origin⟩ ∈ k.facts
  /-- From its end on a list has increasing numbers, so no fact stands in it twice. -/
  ascending : ∀ x tests, k.classTests.lists.get? x = some tests →
    (tests.reverse.map (·.origin.seq)).Pairwise (· < ·)
  /-- A range that is kept describes some integer and is a proper part of the range of its node. -/
  proper : ∀ x n, k.ranges.get? x = some n →
    (∃ w, w ∈ n.range) ∧ (range x).covers n.range = true ∧ n.range ≠ range x
  /-- Just the bounds that facts have moved have origins. -/
  moved : ∀ x n, k.ranges.get? x = some n →
    (n.lower.isSome ↔ n.range.lo ≠ (range x).lo) ∧ (n.upper.isSome ↔ n.range.hi ≠ (range x).hi)
  /-- Origins are those of facts that are known. -/
  owned : ∀ x n o, k.ranges.get? x = some n → n.lower = some o ∨ n.upper = some o → ∃ f ∈ k.facts, f.origin = o

theorem Learnt.indexed {classes : ClassTable} {lessons : List Lesson} (hrange : ∀ x, ∃ w, w ∈ range x)
    (h : Learnt classes lessons k) (hc : ∀ l ∈ lessons, l.condition.RangedBy range) : k.Indexed range where
  untested := h.mirrored.classTests_eq_none_iff
  tested x tests htests t := by
    rw [← classTests_eq_some htests]
    exact h.mirrored.mem_classFacts
  ascending x tests htests := by
    rw [← classTests_eq_some htests, List.pairwise_map, List.pairwise_reverse]
    exact h.classFacts_descend x
  proper x n hn := by
    have hkept := h.keepsMoved hrange hc
    have hrefines := hkept.refines x n hn
    exact ⟨hrefines.inhabited, Interval.covers_iff.mpr hrefines.within, hrefines.range_ne (hkept.moved x n hn)⟩
  moved x n hn := by
    have hrefines := (h.keepsMoved hrange hc).refines x n hn
    exact ⟨hrefines.lower, hrefines.upper⟩
  owned x n o hn := h.ownsOrigins.ranges x n hn o

end Known

namespace Facts

/-- After any scopes and fewer than 2 ^ 32 pushes, if every node has one range that describes some integer and
integer operands are stamped with it: the lists of class tests and the ranges say what the facts say, and the
numbers of facts have 32 bits. -/
theorem replay_indexed (classes : ClassTable) (range : NodeId → Interval) (hrange : ∀ x, ∃ w, w ∈ range x)
    (actions : List Action)
    (hactions : ∀ c truth guard, .push c truth guard ∈ actions → c.Matched ∧ c.RangedBy range)
    (hcount : actions.countP Action.isPush < 0x100000000) :
    (replay classes actions).known.Indexed range ∧
      ∀ f ∈ (replay classes actions).known.facts, f.origin.seq < 0x100000000 := by
  have htraced : (replay classes actions).Traced (·.RangedBy range) :=
    replay_traced fun c t g hm => (hactions c t g hm).symm
  obtain ⟨lessons, hlearnt, hlessons⟩ := htraced.known
  refine ⟨hlearnt.indexed hrange fun l hl => (hlessons l hl).1, fun f hf => ?_⟩
  have hseq : f.origin.seq < (replay classes actions).nextSeq := htraced.credits.facts f hf
  have hnext : (replay classes actions).nextSeq ≤ 0 + actions.countP Action.isPush :=
    foldl_act_nextSeq actions (ofClasses classes)
  omega

/-- Value 5 passes the test of a class, and then in a scope fails that of a subclass; node 1 is less than 10, and
in the scope above 0. After the scope the value passes the test of the subclass. Its list then has the first
and the last of the three tests, and of the bounds of node 1 only the upper one has an origin. -/
theorem replay_indexed_after_scope :
    let classes : ClassTable := ⟨#[⟨"Object", none, false⟩, ⟨"Shape", some 0, false⟩, ⟨"Circle", some 1, false⟩]⟩
    let value : Operand := ⟨5, .object {}⟩
    let x : Operand := ⟨1, .int .full⟩
    let shape : Condition := ⟨.instanceOf 5 1, false, value, value⟩
    let circle : Condition := ⟨.instanceOf 5 2, false, value, value⟩
    let small : Condition := ⟨.lessThan 1 2, false, x, ⟨2, .int (.constant 10)⟩⟩
    let positive : Condition := ⟨.lessThan 3 1, false, ⟨3, .int (.constant 0)⟩, x⟩
    let actions : List Action := [.push shape true 7, .push small true 8, .enter, .push circle false 9,
      .push positive true 10, .exit, .push circle true 11]
    let range : NodeId → Interval := fun n => if n = 2 then .constant 10 else if n = 3 then .constant 0 else .full
    let k := (replay classes actions).known
    let tests : List ClassFact := [⟨2, true, ⟨11, 4⟩⟩, ⟨1, true, ⟨7, 0⟩⟩]
    let n : Narrowing := ⟨⟨none, some 9⟩, none, some ⟨8, 1⟩⟩
    k.classTests.lists.get? 5 = some tests ∧ k.ranges.get? 1 = some n ∧
      (∀ t ∈ tests, ⟨.instanceOf 5 t.cls, t.truth, t.origin⟩ ∈ k.facts) ∧
      (tests.reverse.map (·.origin.seq)).Pairwise (· < ·) ∧
      n.range ≠ range 1 ∧ ∃ fact ∈ k.facts, fact.origin = ⟨8, 1⟩ := by
  intro classes value x shape circle small positive actions range k tests n
  have hrange : ∀ x, ∃ w, w ∈ range x := by
    intro x
    simp only [range]
    split
    · exact ⟨10, Interval.admits_iff.mp (by decide)⟩
    split
    · exact ⟨0, Interval.admits_iff.mp (by decide)⟩
    · exact ⟨0, Interval.admits_iff.mp (by decide)⟩
  have hclass : ∀ cls, (⟨.instanceOf 5 cls, false, value, value⟩ : Condition).Matched ∧
      (⟨.instanceOf 5 cls, false, value, value⟩ : Condition).RangedBy range := by
    simp [Condition.Matched, Condition.RangedBy, Condition.operands, value, Stamp.range?]
  have hsmall : small.Matched ∧ small.RangedBy range := by
    simp [small, Condition.Matched, Condition.RangedBy, Condition.operands, x, range, Stamp.range?]
  have hpositive : positive.Matched ∧ positive.RangedBy range := by
    simp [positive, Condition.Matched, Condition.RangedBy, Condition.operands, x, range, Stamp.range?]
  have hactions : ∀ c truth guard, .push c truth guard ∈ actions → c.Matched ∧ c.RangedBy range := by
    intro c truth guard hm
    simp only [actions, List.mem_cons, Action.push.injEq, reduceCtorEq, List.not_mem_nil, or_false, false_or] at hm
    rcases hm with ⟨rfl, -⟩ | ⟨rfl, -⟩ | ⟨rfl, -⟩ | ⟨rfl, -⟩ | ⟨rfl, -⟩
    · exact hclass 1
    · exact hsmall
    · exact hclass 2
    · exact hpositive
    · exact hclass 2
  have htests : k.classTests.lists.get? 5 = some tests := by decide
  have hn : k.ranges.get? 1 = some n := by decide
  have hindexed : k.Indexed range := (replay_indexed classes range hrange actions hactions (by decide)).1
  clear_value k
  exact ⟨htests, hn, fun t => (hindexed.tested 5 tests htests t).mp, hindexed.ascending 5 tests htests,
    (hindexed.proper 1 n hn).2.2, hindexed.owned 1 n _ hn (.inr rfl)⟩

end Facts

end GuardElision
