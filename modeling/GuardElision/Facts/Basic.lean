import GuardElision.Condition
import GuardElision.IdMap

/-!
What is known on the way to a control node. Scopes nest: every change is logged with what it replaced, and
closing a scope takes back the changes logged since it was opened.
-/

namespace GuardElision

/-- The node that established something, and when. -/
structure Origin where
  guard : NodeId
  seq : Nat
deriving DecidableEq

/-- What an answer rests on. -/
inductive Source where
  | stamp
  | guard (origin : Origin)
deriving DecidableEq

namespace Source

def guard? : Source → Option NodeId
  | stamp => none
  | guard o => some o.guard

/-- The better of two sources: a stamp holds everywhere, and a later origin is nearer. -/
def closer : Source → Source → Source
  | guard a, guard b => if b.seq ≤ a.seq then guard a else guard b
  | _, _ => stamp

def text : Source → String
  | stamp => "stamp"
  | guard o => NodeId.text o.guard

end Source

structure Evidence where
  truth : Bool
  source : Source
deriving DecidableEq

namespace Evidence

def ofStamp (truth : Bool) : Evidence := ⟨truth, .stamp⟩

def ofOrigin (truth : Bool) (origin : Origin) : Evidence := ⟨truth, .guard origin⟩

def best? : Option Evidence → Option Evidence → Option Evidence
  | some a, some b => if a.source.closer b.source = a.source then some a else some b
  | a, b => a <|> b

end Evidence

structure Fact where
  test : Test
  truth : Bool
  origin : Origin
deriving DecidableEq

/-- The outcome of a class test of some value. -/
structure ClassFact where
  cls : ClassId
  truth : Bool
  origin : Origin
deriving DecidableEq

/-- What a fact says of the class of a value, if it is a class test of that value. -/
def Fact.classFact? (f : Fact) (x : NodeId) : Option ClassFact :=
  match f.test with
  | .instanceOf y cls => if y = x then some ⟨cls, f.truth, f.origin⟩ else none
  | _ => none

theorem Fact.classFact?_eq_some_iff {f : Fact} {x : NodeId} {e : ClassFact} :
    f.classFact? x = some e ↔ f = ⟨.instanceOf x e.cls, e.truth, e.origin⟩ := by
  obtain ⟨test, truth, origin⟩ := f
  obtain ⟨cls, truth', origin'⟩ := e
  cases test with
  | instanceOf y cls' =>
    by_cases hy : y = x <;> simp [classFact?, hy]
  | _ => simp [classFact?]

/-- The class tests of each value that was tested, latest first. -/
structure ClassIndex where
  lists : IdMap (List ClassFact) := .empty

namespace ClassIndex

def listed (m : ClassIndex) (x : NodeId) : List ClassFact :=
  (m.lists.get? x).getD []

/-- The list of a value, as it is kept: none in place of an empty one. -/
def kept? : List ClassFact → Option (List ClassFact)
  | [] => none
  | e :: rest => some (e :: rest)

/-- Lists the outcome of a class test before the earlier ones of the same value. -/
def note (m : ClassIndex) (x : NodeId) (e : ClassFact) : ClassIndex :=
  ⟨m.lists.insert x (e :: m.listed x)⟩

/-- Takes the latest class test of a value off its list. -/
def forgetLast (m : ClassIndex) (x : NodeId) : ClassIndex :=
  ⟨m.lists.restore x (kept? (m.listed x).tail)⟩

/-- The index lists for every value the class tests of it among the facts. -/
def Mirrors (m : ClassIndex) (facts : List Fact) : Prop :=
  ∀ x, m.lists.get? x = kept? (facts.filterMap (·.classFact? x))

theorem kept?_getD (l : List ClassFact) : (kept? l).getD [] = l := by
  cases l <;> rfl

theorem mirrors_nil : Mirrors {} [] :=
  fun _ => rfl

variable {m : ClassIndex} {facts : List Fact}

theorem Mirrors.listed (h : m.Mirrors facts) (x : NodeId) : m.listed x = facts.filterMap (·.classFact? x) := by
  rw [ClassIndex.listed, h x, kept?_getD]

theorem Mirrors.note (h : m.Mirrors facts) (x : NodeId) (e : ClassFact) :
    (m.note x e).Mirrors (⟨.instanceOf x e.cls, e.truth, e.origin⟩ :: facts) := by
  intro y
  rw [List.filterMap_cons, ClassIndex.note, IdMap.get?_insert]
  by_cases hy : y = x
  · subst hy
    simp only [Fact.classFact?, ↓reduceIte, h.listed, kept?]
  · simp only [Fact.classFact?, hy, Ne.symm hy, ↓reduceIte]
    exact h y

/-- A fact about anything but a class has no place in the index. -/
theorem Mirrors.cons (h : m.Mirrors facts) {f : Fact} (hf : ∀ x, f.classFact? x = none) : m.Mirrors (f :: facts) := by
  intro x
  rw [List.filterMap_cons, hf x]
  exact h x

theorem forgetLast_note (h : m.Mirrors facts) (x : NodeId) (e : ClassFact) : (m.note x e).forgetLast x = m := by
  have hlisted : (m.note x e).listed x = e :: m.listed x := by simp [note, ClassIndex.listed, IdMap.get?_insert]
  have hback : kept? (m.listed x) = m.lists.get? x := by rw [h.listed, h x]
  rw [forgetLast, hlisted, List.tail_cons, hback, note, IdMap.restore_insert]

end ClassIndex

/-- A range with the origin of each bound that facts have moved. -/
structure Narrowing where
  range : Interval
  lower : Option Origin := none
  upper : Option Origin := none
deriving DecidableEq

namespace Narrowing

def source? (n : Narrowing) : Option Source :=
  match n.lower, n.upper with
  | some l, some u => some (.guard (if l.seq ≤ u.seq then u else l))
  | l, u => (l <|> u).map .guard

end Narrowing

/-- How to take back one change to what is known. -/
inductive Undo where
  /-- Give a test the fact it had before, if any. -/
  | fact (test : Test) (before : Option Fact)
  /-- Give a value the range it had before, if any. -/
  | range (value : NodeId) (before : Option Narrowing)
  /-- Take the latest class test of a value off its list. -/
  | classTest (value : NodeId)
deriving DecidableEq

/-- One fact for each test that has one, latest first, the ranges they narrow, the class tests among them
by value, and how to take it all back, latest change first. -/
@[ext] structure Known where
  facts : List Fact := []
  ranges : IdMap Narrowing := .empty
  classTests : ClassIndex := {}
  log : List Undo := []

namespace Known

def fact? (k : Known) (t : Test) : Option Fact :=
  k.facts.find? (·.test = t)

/-- The facts with another one about a test, or with none. -/
def factsWith (k : Known) (t : Test) (f : Option Fact) : List Fact :=
  f.toList ++ k.facts.filter (·.test ≠ t)

theorem factsWith_none {k : Known} {t : Test} (h : k.fact? t = none) : k.factsWith t none = k.facts := by
  refine List.filter_eq_self.mpr fun f hf => ?_
  simpa using List.find?_eq_none.mp h f hf

/-- The index of class tests lists those among the facts. -/
def Mirrored (k : Known) : Prop :=
  k.classTests.Mirrors k.facts

theorem mirrored_empty : ({} : Known).Mirrored :=
  ClassIndex.mirrors_nil

def undoLast (k : Known) : Known :=
  match k.log with
  | [] => k
  | .fact test before :: log => { k with facts := k.factsWith test before, log }
  | .range value before :: log => { k with ranges := k.ranges.restore value before, log }
  | .classTest value :: log => { k with classTests := k.classTests.forgetLast value, log }

def undo : Nat → Known → Known
  | 0, k => k
  | n + 1, k => undo n k.undoLast

/-- Takes back what was changed since the log had the given length. -/
def rollback (k : Known) (mark : Nat) : Known :=
  k.undo (k.log.length - mark)

theorem undoLast_log (k : Known) : k.undoLast.log = k.log.tail := by
  unfold undoLast
  split <;> simp_all

theorem undo_log (n : Nat) (k : Known) : (k.undo n).log = k.log.drop n := by
  induction n generalizing k with
  | zero => rfl
  | succ n ih => rw [undo, ih, undoLast_log, List.drop_tail]

theorem undo_add (m n : Nat) (k : Known) : k.undo (m + n) = (k.undo m).undo n := by
  induction m generalizing k with
  | zero => simp [undo]
  | succ m ih => rw [Nat.succ_add, undo, undo, ih]

theorem rollback_log_length {k : Known} {mark : Nat} (h : mark ≤ k.log.length) :
    (k.rollback mark).log.length = mark := by
  rw [rollback, undo_log, List.length_drop]
  omega

theorem rollback_self (k : Known) : k.rollback k.log.length = k := by
  simp [rollback, undo]

theorem rollback_rollback {k : Known} {outer inner : Nat} (h : outer ≤ inner) (hi : inner ≤ k.log.length) :
    (k.rollback inner).rollback outer = k.rollback outer := by
  have hsplit : k.log.length - outer = (k.log.length - inner) + (inner - outer) := by omega
  rw [rollback, rollback_log_length hi, rollback, rollback, hsplit, undo_add]

end Known

@[ext] structure Facts where
  classes : ClassTable
  known : Known := {}
  /-- The length of the log when each open scope was opened, innermost first. -/
  marks : List Nat := []
  nextSeq : Nat := 0
  ordered : (known.log.length :: marks).Pairwise (· ≥ ·) := by exact List.pairwise_singleton _ _
  /-- While a fact is taken back the index is behind, but not once a scope is closed. -/
  mirrored : ∀ mark ∈ known.log.length :: marks, (known.rollback mark).Mirrored := by
    exact List.forall_mem_singleton.mpr Known.mirrored_empty

namespace Facts

def ofClasses (classes : ClassTable) : Facts := { classes }

def size (f : Facts) : Nat :=
  f.known.facts.length

def depth (f : Facts) : Nat :=
  f.marks.length

theorem known_mirrored (f : Facts) : f.known.Mirrored :=
  f.known.rollback_self ▸ f.mirrored _ List.mem_cons_self

theorem ordered_enter (f : Facts) :
    (f.known.log.length :: f.known.log.length :: f.marks).Pairwise (· ≥ ·) := by
  refine List.pairwise_cons.mpr ⟨fun m hm => ?_, f.ordered⟩
  rcases List.mem_cons.mp hm with rfl | hm
  · exact Nat.le_refl _
  · exact (List.pairwise_cons.mp f.ordered).1 m hm

def enterScope (f : Facts) : Facts :=
  { f with
    marks := f.known.log.length :: f.marks
    ordered := f.ordered_enter
    mirrored := List.forall_mem_cons.mpr ⟨f.mirrored _ List.mem_cons_self, f.mirrored⟩ }

section Exit

variable {f : Facts} {mark : Nat} {marks : List Nat} (h : f.marks = mark :: marks)

include h

theorem ordered_exit : ((f.known.rollback mark).log.length :: marks).Pairwise (· ≥ ·) := by
  have ho := List.pairwise_cons.mp (h ▸ f.ordered)
  rw [Known.rollback_log_length (ho.1 mark List.mem_cons_self)]
  exact ho.2

theorem mirrored_exit :
    ∀ m ∈ (f.known.rollback mark).log.length :: marks, ((f.known.rollback mark).rollback m).Mirrored := by
  have ho := List.pairwise_cons.mp (h ▸ f.ordered)
  have hmark : mark ≤ f.known.log.length := ho.1 mark List.mem_cons_self
  rw [Known.rollback_log_length hmark]
  intro m hm
  have hle : m ≤ mark := by
    rcases List.mem_cons.mp hm with rfl | hm
    · exact Nat.le_refl _
    · exact (List.pairwise_cons.mp ho.2).1 m hm
  rw [Known.rollback_rollback hle hmark]
  exact f.mirrored m (h ▸ List.mem_cons_of_mem _ hm)

end Exit

/-- Forgets what was learnt in the innermost scope; without an open scope nothing happens. -/
def exitScope (f : Facts) : Facts :=
  match h : f.marks with
  | mark :: marks =>
    { f with known := f.known.rollback mark, marks, ordered := ordered_exit h, mirrored := mirrored_exit h }
  | [] => f

end Facts

end GuardElision
