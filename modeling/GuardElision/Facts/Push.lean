import GuardElision.Facts.Lookup

namespace GuardElision

namespace Known

/-- Keeps to a constraint the part of an operand's range that satisfies it, and credits each bound
that moves. A constraint that leaves nothing is ignored. -/
def narrow (k : Known) (origin : Origin) (o : Operand) (constraint : Interval) : Known :=
  match k.narrowing? o with
  | none => k
  | some current =>
    match current.range.meet? constraint with
    | none => k
    | some range =>
      if range = current.range then k
      else
        let narrowed : Narrowing :=
          { range
            lower := if range.lo = current.range.lo then current.lower else some origin
            upper := if range.hi = current.range.hi then current.upper else some origin }
        { k with
          ranges := k.ranges.insert o.node narrowed
          log := .range o.node (k.ranges.get? o.node) :: k.log }

def narrow? (k : Known) (origin : Origin) (o : Operand) (constraint : Option Interval) : Known :=
  match constraint with
  | some c => k.narrow origin o c
  | none => k

/-- From `a < b`: `a` is below the upper bound of `b`, and `b` above the lower bound of `a`. From
its negation: `a` is at least the lower bound of `b`, and `b` at most the upper bound of `a`. -/
def learnLess (k : Known) (origin : Origin) (a b : Operand) (truth : Bool) : Known :=
  match k.range? a, k.range? b with
  | some ra, some rb =>
    if truth then
      (k.narrow? origin a ((rb.hi.bind Word.pred?).map .atMost)).narrow? origin b
        ((ra.lo.bind Word.succ?).map .atLeast)
    else
      (k.narrow? origin a (rb.lo.map .atLeast)).narrow? origin b (ra.hi.map .atMost)
  | _, _ => k

/-- From `a = b` each operand takes the other's range; from its negation a constant on one side
leaves the other side's range at its ends. -/
def learnEqual (k : Known) (origin : Origin) (a b : Operand) (truth : Bool) : Known :=
  match k.range? a, k.range? b with
  | some ra, some rb =>
    if truth then (k.narrow origin a rb).narrow origin b ra
    else
      (k.narrow? origin a (rb.constant?.bind (ra.assumeEq? · false))).narrow? origin b
        (ra.constant?.bind (rb.assumeEq? · false))
  | _, _ => k

/-- From an unsigned `a < b` with `b` not negative: `a` lies between zero and `b`. -/
def learnBelow (k : Known) (origin : Origin) (a b : Operand) : Known :=
  match k.range? b with
  | none => k
  | some rb =>
    if rb.isNonNegative then
      let k := k.narrow origin a ⟨some 0, rb.hi.bind Word.pred?⟩
      k.narrow? origin b ((((k.range? a).bind (·.lo)).bind Word.succ?).map .atLeast)
    else k

/-- Gives a test its fact. -/
def record (k : Known) (f : Fact) : Known :=
  { k with facts := k.factsWith f.test (some f), log := .fact f.test (k.fact? f.test) :: k.log }

def noteClass (k : Known) (x : NodeId) (e : ClassFact) : Known :=
  { k with classTests := k.classTests.note x e, log := .classTest x :: k.log }

def addFact (k : Known) (f : Fact) : Known :=
  match f.test with
  | .instanceOf x cls => (k.record f).noteClass x ⟨cls, f.truth, f.origin⟩
  | _ => k.record f

theorem addFact_facts (k : Known) (f : Fact) : (k.addFact f).facts = f :: k.facts.filter (·.test ≠ f.test) := by
  unfold addFact
  split <;> rfl

@[simp] theorem addFact_ranges (k : Known) (f : Fact) : (k.addFact f).ranges = k.ranges := by
  unfold addFact
  split <;> rfl

@[simp] theorem addFact_range? (k : Known) (f : Fact) (o : Operand) : (k.addFact f).range? o = k.range? o := by
  simp [range?, narrowing?]

theorem addFact_fact? (k : Known) (f : Fact) (t : Test) :
    (k.addFact f).fact? t = if t = f.test then some f else k.fact? t := by
  rw [fact?, addFact_facts]
  by_cases ht : t = f.test
  · simp [ht]
  · rw [List.find?_cons_of_neg (by simpa using Ne.symm ht), if_neg ht, fact?, List.find?_filter]
    congr 1
    grind

theorem mem_classFacts_addFact {k : Known} {x : NodeId} {e : ClassFact} (h : e ∈ k.classFacts x) (f : Fact) :
    e ∈ (k.addFact f).classFacts x := by
  unfold addFact
  split
  next y cls _ =>
    by_cases hx : x = y
    · subst hx
      simp only [classFacts, noteClass, record, ClassIndex.listed, ClassIndex.note, IdMap.get?_insert, ↓reduceIte,
        Option.getD_some]
      exact List.mem_cons_of_mem _ h
    · simpa [classFacts, noteClass, record, ClassIndex.listed, ClassIndex.note, IdMap.get?_insert, hx] using h
  next => exact h

/-- A test without a fact gets one before those that are there. -/
theorem addFact_facts_of_none {k : Known} {f : Fact} (h : k.fact? f.test = none) :
    (k.addFact f).facts = f :: k.facts := by
  rw [addFact_facts]
  exact congrArg _ (factsWith_none h)

theorem Mirrored.addFact {k : Known} {f : Fact} (hk : k.Mirrored) (h : k.fact? f.test = none) :
    (k.addFact f).Mirrored := by
  unfold Mirrored
  rw [addFact_facts_of_none h]
  obtain ⟨test, truth, origin⟩ := f
  cases test with
  | instanceOf x cls => exact ClassIndex.Mirrors.note hk x ⟨cls, truth, origin⟩
  | _ => exact ClassIndex.Mirrors.cons hk fun _ => rfl

theorem undoLast_record {k : Known} {f : Fact} (h : k.fact? f.test = none) : (k.record f).undoLast = k := by
  ext1
  · simpa [undoLast, record, factsWith, h] using List.find?_eq_none.mp h
  · rfl
  · rfl
  · rfl

theorem undoLast_noteClass {k : Known} {facts : List Fact} (h : k.classTests.Mirrors facts) (x : NodeId)
    (e : ClassFact) :
    (k.noteClass x e).undoLast = k := by
  ext1
  · rfl
  · rfl
  · exact ClassIndex.forgetLast_note h x e
  · rfl

def learn (k : Known) (origin : Origin) (c : Condition) (truth : Bool) : Known :=
  let k := k.addFact ⟨c.test, truth, origin⟩
  match c.test with
  | .lessThan _ _ => k.learnLess origin c.left c.right truth
  | .equals _ _ => k.learnEqual origin c.left c.right truth
  | .below _ _ => if truth then k.learnBelow origin c.left c.right else k
  | .isNull _ | .instanceOf _ _ => k

/-- `k'` was reached from `k` by logged changes, and taking them back leads to `k` again. -/
structure Reverts (k k' : Known) : Prop where
  longer : k.log.length ≤ k'.log.length
  back : k'.rollback k.log.length = k

namespace Reverts

variable {k k' k'' : Known}

theorem refl (k : Known) : k.Reverts k :=
  ⟨Nat.le_refl _, k.rollback_self⟩

/-- The changes logged last are taken back first. -/
theorem rollback_eq (h : k.Reverts k') {mark : Nat} (hm : mark ≤ k.log.length) :
    k'.rollback mark = k.rollback mark := by
  have hsplit : k'.log.length - mark = (k'.log.length - k.log.length) + (k.log.length - mark) := by
    have := h.longer
    omega
  have hback := h.back
  unfold rollback at hback ⊢
  rw [hsplit, undo_add, hback]

theorem trans (h : k.Reverts k') (h' : k'.Reverts k'') : k.Reverts k'' :=
  ⟨Nat.le_trans h.longer h'.longer, (h'.rollback_eq h.longer).trans h.back⟩

theorem of_undoLast (hlog : k'.log.length = k.log.length + 1) (hback : k'.undoLast = k) : k.Reverts k' := by
  refine ⟨by omega, ?_⟩
  rw [rollback, hlog, Nat.add_sub_cancel_left]
  exact hback

end Reverts

theorem narrow_reverts (k : Known) (origin : Origin) (o : Operand) (constraint : Interval) :
    k.Reverts (k.narrow origin o constraint) := by
  unfold narrow
  split
  next => exact .refl k
  split
  next => exact .refl k
  split
  next => exact .refl k
  next => exact .of_undoLast rfl (by simp [undoLast, IdMap.restore_insert])

/-- All that a lesson does is to add its fact and to narrow the operands of its condition. -/
theorem learn_induct {Q : Known → Prop} {k : Known} {origin : Origin} {c : Condition} {truth : Bool}
    (hfact : Q (k.addFact ⟨c.test, truth, origin⟩))
    (hnarrow : ∀ k' o constraint, o ∈ c.operands → Q k' → Q (k'.narrow origin o constraint)) :
    Q (k.learn origin c truth) := by
  have hnarrow? : ∀ k' o constraint, o ∈ c.operands → Q k' → Q (k'.narrow? origin o constraint) := by
    intro k' o constraint ho hk'
    cases constraint with
    | none => exact hk'
    | some i => exact hnarrow k' o i ho hk'
  have hboth : ∀ {P : Prop}, (c.left ∈ c.operands → c.right ∈ c.operands → P) → c.operands = [c.left, c.right] → P :=
    fun h he => h (by simp [he]) (by simp [he])
  unfold learn
  cases hc : c.test with
  | lessThan a b =>
    refine hboth (fun hl hr => ?_) (by simp [Condition.operands, hc])
    rw [hc] at hfact
    simp only [learnLess]
    repeat' split
    · exact hnarrow? _ _ _ hr (hnarrow? _ _ _ hl hfact)
    · exact hnarrow? _ _ _ hr (hnarrow? _ _ _ hl hfact)
    · exact hfact
  | equals a b =>
    refine hboth (fun hl hr => ?_) (by simp [Condition.operands, hc])
    rw [hc] at hfact
    simp only [learnEqual]
    repeat' split
    · exact hnarrow _ _ _ hr (hnarrow _ _ _ hl hfact)
    · exact hnarrow? _ _ _ hr (hnarrow? _ _ _ hl hfact)
    · exact hfact
  | below a b =>
    refine hboth (fun hl hr => ?_) (by simp [Condition.operands, hc])
    rw [hc] at hfact
    simp only [learnBelow]
    repeat' split
    · exact hfact
    · exact hnarrow? _ _ _ hr (hnarrow _ _ _ hl hfact)
    · exact hfact
    · exact hfact
  | isNull x | instanceOf x cls =>
    rw [hc] at hfact
    exact hfact

theorem addFact_reverts {k : Known} {f : Fact} (hk : k.Mirrored) (h : k.fact? f.test = none) :
    k.Reverts (k.addFact f) := by
  have hrecord : k.Reverts (k.record f) := .of_undoLast rfl (undoLast_record h)
  unfold addFact
  split
  next x cls _ => exact hrecord.trans (.of_undoLast rfl (undoLast_noteClass (k := k.record f) hk x _))
  next => exact hrecord

theorem learn_reverts {k : Known} {c : Condition} (hk : k.Mirrored) (h : k.fact? c.test = none) (origin : Origin)
    (truth : Bool) : k.Reverts (k.learn origin c truth) :=
  learn_induct (addFact_reverts hk h) fun _ _ _ _ hk' => hk'.trans (narrow_reverts ..)

@[simp] theorem narrow_facts (k : Known) (origin : Origin) (o : Operand) (constraint : Interval) :
    (k.narrow origin o constraint).facts = k.facts := by
  unfold narrow
  repeat' split
  all_goals rfl

@[simp] theorem narrow_classTests (k : Known) (origin : Origin) (o : Operand) (constraint : Interval) :
    (k.narrow origin o constraint).classTests = k.classTests := by
  unfold narrow
  repeat' split
  all_goals rfl

theorem learn_facts {k : Known} {c : Condition} (h : k.fact? c.test = none) (origin : Origin) (truth : Bool) :
    (k.learn origin c truth).facts = ⟨c.test, truth, origin⟩ :: k.facts :=
  learn_induct (Q := fun k' => k'.facts = ⟨c.test, truth, origin⟩ :: k.facts)
    (addFact_facts_of_none (f := ⟨c.test, truth, origin⟩) h) fun k' o constraint _ hk' =>
      (k'.narrow_facts origin o constraint).trans hk'

theorem learn_fact? (k : Known) (origin : Origin) (c : Condition) (truth : Bool) (t : Test) :
    (k.learn origin c truth).fact? t = if t = c.test then some ⟨c.test, truth, origin⟩ else k.fact? t :=
  learn_induct (Q := fun k' => k'.fact? t = if t = c.test then some ⟨c.test, truth, origin⟩ else k.fact? t)
    (k.addFact_fact? ⟨c.test, truth, origin⟩ t) fun k' o constraint _ hk' => by rwa [fact?, narrow_facts]

theorem Mirrored.narrow {k : Known} (hk : k.Mirrored) (origin : Origin) (o : Operand) (constraint : Interval) :
    (k.narrow origin o constraint).Mirrored := by
  rwa [Mirrored, narrow_facts, narrow_classTests]

theorem Mirrored.learn {k : Known} {c : Condition} (hk : k.Mirrored) (h : k.fact? c.test = none) (origin : Origin)
    (truth : Bool) : (k.learn origin c truth).Mirrored :=
  learn_induct (hk.addFact h) fun _ o constraint _ hk' => hk'.narrow origin o constraint

end Known

inductive PushOutcome where
  | registered
  | implied (evidence : Evidence)
  | contradicted (evidence : Evidence)
deriving DecidableEq

namespace Facts

section Learn

variable {f : Facts} {c : Condition} (h : f.lookup? c = none) (origin : Origin) (truth : Bool)

include h

theorem learn_reverts : f.known.Reverts (f.known.learn origin c truth) :=
  Known.learn_reverts f.known_mirrored (Known.fact?_eq_none_of_lookup? h) origin truth

theorem ordered_learn : ((f.known.learn origin c truth).log.length :: f.marks).Pairwise (· ≥ ·) := by
  obtain ⟨hlog, hmarks⟩ := List.pairwise_cons.mp f.ordered
  have hlonger := (learn_reverts h origin truth).longer
  exact List.pairwise_cons.mpr ⟨fun m hm => Nat.le_trans (hlog m hm) hlonger, hmarks⟩

theorem mirrored_learn : ∀ mark ∈ (f.known.learn origin c truth).log.length :: f.marks,
    ((f.known.learn origin c truth).rollback mark).Mirrored := by
  refine List.forall_mem_cons.mpr ⟨?_, fun mark hm => ?_⟩
  · rw [Known.rollback_self]
    exact f.known_mirrored.learn (Known.fact?_eq_none_of_lookup? h) origin truth
  · rw [(learn_reverts h origin truth).rollback_eq ((List.pairwise_cons.mp f.ordered).1 mark hm)]
    exact f.mirrored mark (List.mem_cons_of_mem _ hm)

end Learn

/-- Learns the outcome of a condition's test that is not decided. -/
def learn (f : Facts) (c : Condition) (truth : Bool) (guard : NodeId) (h : f.lookup? c = none) : Facts :=
  { f with
    known := f.known.learn ⟨guard, f.nextSeq⟩ c truth
    nextSeq := f.nextSeq + 1
    ordered := ordered_learn h _ truth
    mirrored := mirrored_learn h _ truth }

/-- Learns that a condition's test has the given truth, unless it is decided already. -/
def push (f : Facts) (c : Condition) (truth : Bool) (guard : NodeId) : PushOutcome × Facts :=
  match h : f.lookup? c with
  | some e => (if e.truth = truth then .implied e else .contradicted e, f)
  | none => (.registered, f.learn c truth guard h)

theorem push_of_some {f : Facts} {c : Condition} {e : Evidence} (h : f.lookup? c = some e) (truth : Bool)
    (guard : NodeId) : f.push c truth guard = (if e.truth = truth then .implied e else .contradicted e, f) := by
  unfold push
  split <;> simp_all

theorem push_of_none {f : Facts} {c : Condition} (h : f.lookup? c = none) (truth : Bool) (guard : NodeId) :
    f.push c truth guard = (.registered, f.learn c truth guard h) := by
  unfold push
  split <;> simp_all

theorem push_classes (f : Facts) (c : Condition) (truth : Bool) (guard : NodeId) :
    (f.push c truth guard).2.classes = f.classes := by
  unfold push
  split <;> rfl

theorem push_nextSeq (f : Facts) (c : Condition) (truth : Bool) (guard : NodeId) :
    f.nextSeq ≤ (f.push c truth guard).2.nextSeq ∧ (f.push c truth guard).2.nextSeq ≤ f.nextSeq + 1 := by
  unfold push
  split
  · exact ⟨Nat.le_refl _, Nat.le_succ _⟩
  · exact ⟨Nat.le_succ _, Nat.le_refl _⟩

/-- A test with one outcome decides another test, by itself, to have another outcome. -/
def implies (classes : ClassTable) (premise : Condition) (premiseTruth : Bool)
    (conclusion : Condition) (conclusionTruth : Bool) : Bool :=
  let (outcome, f) := (ofClasses classes).push premise premiseTruth premise.test.subject
  match outcome with
  | .contradicted _ => false
  | _ => (f.lookup? conclusion).any (·.truth = conclusionTruth)

end Facts

end GuardElision
