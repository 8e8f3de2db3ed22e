import GuardElision.Proofs.Builder.Memory
import GuardElision.Proofs.ClassTable
import GuardElision.Proofs.Interval

namespace GuardElision

namespace ObjectStamp

variable {t : ClassTable} {a b s : ObjectStamp} {x y z : Option ClassId}

/-- Both stamps declare a class, and neither class is below the other. -/
def unrelated (t : ClassTable) (a b : ObjectStamp) : Bool :=
  a.cls.any fun c => b.cls.any fun d => t.disjoint c d

/-- If the second class is declared, the first is a class below it. -/
def Below (t : ClassTable) (x y : Option ClassId) : Prop :=
  ∀ d, y = some d → ∃ c, x = some c ∧ t.isSubclass c d = true

theorem Below.refl (t : ClassTable) (x : Option ClassId) : Below t x x :=
  fun d hd => ⟨d, hd, t.isSubclass_refl d⟩

/-- The first stamp says all that the second says, apart from exactness. -/
structure Narrows (t : ClassTable) (s a : ObjectStamp) : Prop where
  cls : Below t s.cls a.cls
  nonNull : a.nonNull = true → s.nonNull = true
  alwaysNull : a.alwaysNull = true → s.alwaysNull = true

theorem meetClass?_eq_none_iff :
    meetClass? t x y = none ↔ (x.any fun c => y.any fun d => t.disjoint c d) = true := by
  cases x with
  | none => simp [meetClass?]
  | some c =>
    cases y with
    | none => simp [meetClass?]
    | some d =>
      simp only [meetClass?, Option.any_some, ClassTable.disjoint]
      cases t.isSubclass c d <;> cases t.isSubclass d c <;> simp

/-- The meet is one of the two classes, and that lies below the other. -/
theorem meetClass?_eq_some (h : meetClass? t x y = some z) : z = x ∧ Below t x y ∨ z = y ∧ Below t y x := by
  cases x with
  | none =>
    cases h
    exact Or.inr ⟨rfl, nofun⟩
  | some c =>
    cases y with
    | none =>
      cases h
      exact Or.inl ⟨rfl, nofun⟩
    | some d =>
      simp only [meetClass?] at h
      split at h
      next hcd =>
        cases h
        exact Or.inl ⟨rfl, fun d' hd => ⟨c, rfl, Option.some.inj hd ▸ hcd⟩⟩
      next =>
        split at h
        next hdc =>
          cases h
          exact Or.inr ⟨rfl, fun c' hc => ⟨d, rfl, Option.some.inj hc ▸ hdc⟩⟩
        next => cases h

theorem improve?_eq_none_iff :
    a.improve? t b = none ↔
      a.unrelated t b = true ∨ ((a.nonNull || b.nonNull) && (a.alwaysNull || b.alwaysNull)) = true := by
  rw [unrelated, ← meetClass?_eq_none_iff, improve?]
  cases hmeet : meetClass? t a.cls b.cls with
  | none => simp
  | some z => cases hclash : (a.nonNull || b.nonNull) && (a.alwaysNull || b.alwaysNull) <;> simp [hclash]

theorem improve?_eq_some (h : a.improve? t b = some s) :
    meetClass? t a.cls b.cls = some s.cls ∧ s.exact = (a.exact || b.exact) ∧
      s.nonNull = (a.nonNull || b.nonNull) ∧ s.alwaysNull = (a.alwaysNull || b.alwaysNull) := by
  obtain ⟨z, hz, h⟩ := Option.bind_eq_some_iff.mp h
  dsimp only at h
  split at h
  next => cases h
  next =>
    cases h
    exact ⟨hz, rfl, rfl, rfl⟩

theorem improve?_narrows (h : a.improve? t b = some s) : s.Narrows t a ∧ s.Narrows t b := by
  obtain ⟨hcls, _, hnon, halways⟩ := improve?_eq_some h
  have hbelow : Below t s.cls a.cls ∧ Below t s.cls b.cls := by
    rcases meetClass?_eq_some hcls with ⟨he, hab⟩ | ⟨he, hba⟩ <;> rw [he]
    · exact ⟨.refl t a.cls, hab⟩
    · exact ⟨hba, .refl t b.cls⟩
  refine ⟨⟨hbelow.1, fun ha => ?_, fun ha => ?_⟩, ⟨hbelow.2, fun hb => ?_, fun hb => ?_⟩⟩
  · rw [hnon, ha, Bool.true_or]
  · rw [halways, ha, Bool.true_or]
  · rw [hnon, hb, Bool.or_true]
  · rw [halways, hb, Bool.or_true]

end ObjectStamp

namespace Stamp

/-- A stamp of integers or of references, and one that is exact about a declared class only. -/
def IsData : Stamp → Prop
  | .int _ => True
  | .object o => o.exact = true → o.cls.isSome = true
  | _ => False

/-- Both stamps declare classes of references, and no class is below both. -/
def unrelated (t : ClassTable) : Stamp → Stamp → Bool
  | .object a, .object b => a.unrelated t b
  | _, _ => false

/-- The stamp, no longer exact about its class. -/
def inexact : Stamp → Stamp
  | .object o => .object { o with exact := false }
  | s => s

variable {t : ClassTable} {heap : Heap} {v : Value}

section

variable {a b s : ObjectStamp} {i : Nat}

/-- The class of an object lies below the classes of both stamps, so these are related. -/
theorem unrelated_eq_false_of_ref (ha : (object a).Admits t heap (.ref i)) (hb : (object b).Admits t heap (.ref i)) :
    a.unrelated t b = false := by
  rw [← Bool.not_eq_true, ObjectStamp.unrelated, Option.any_eq_true]
  rintro ⟨c, hc, hany⟩
  obtain ⟨d, hd, hdisjoint⟩ := (Option.any_eq_true _ _).mp hany
  obtain ⟨obj, hobj, hsub, _⟩ := ha.2 c hc
  obtain ⟨obj', hobj', hsub', _⟩ := hb.2 d hd
  cases hobj.symm.trans hobj'
  exact ClassTable.disjoint_iff.mp hdisjoint ⟨obj.cls, hsub, hsub'⟩

theorem cls_eq_of_exact (ht : t.Acyclic) (hdata : (object a).IsData) (ha : (object a).Admits t heap (.ref i))
    (hexact : a.exact = true) (hnarrow : s.Narrows t a) {obj : Obj} (hobj : heap[i]? = some obj) {e : ClassId}
    (he : s.cls = some e) (hsub : t.isSubclass obj.cls e = true) : obj.cls = e := by
  obtain ⟨c, hc⟩ := Option.isSome_iff_exists.mp (hdata hexact)
  obtain ⟨obj', hobj', _, hcls⟩ := ha.2 c hc
  cases hobj.symm.trans hobj'
  obtain ⟨e', he', hbelow⟩ := hnarrow.cls c hc
  cases he.symm.trans he'
  apply ht.isSubclass_antisymm hsub
  rw [hcls hexact]
  exact hbelow

theorem admits_ref_of_improve? (ht : t.Acyclic) (hdataA : (object a).IsData) (hdataB : (object b).IsData)
    (hs : a.improve? t b = some s) (ha : (object a).Admits t heap (.ref i)) (hb : (object b).Admits t heap (.ref i)) :
    (object s).Admits t heap (.ref i) := by
  obtain ⟨hcls, hexact, _, halways⟩ := ObjectStamp.improve?_eq_some hs
  obtain ⟨hnarrowA, hnarrowB⟩ := ObjectStamp.improve?_narrows hs
  have hobject : ∀ e, s.cls = some e → ∃ obj, heap[i]? = some obj ∧ t.isSubclass obj.cls e = true := by
    intro e he
    rcases ObjectStamp.meetClass?_eq_some hcls with ⟨hone, _⟩ | ⟨hone, _⟩
    · obtain ⟨obj, hobj, hsub, _⟩ := ha.2 e (hone ▸ he)
      exact ⟨obj, hobj, hsub⟩
    · obtain ⟨obj, hobj, hsub, _⟩ := hb.2 e (hone ▸ he)
      exact ⟨obj, hobj, hsub⟩
  constructor
  · rw [halways, ha.1, hb.1, Bool.or_false]
  · intro e he
    obtain ⟨obj, hobj, hsub⟩ := hobject e he
    refine ⟨obj, hobj, hsub, fun hse => ?_⟩
    rw [hexact, Bool.or_eq_true] at hse
    rcases hse with hae | hbe
    · exact cls_eq_of_exact ht hdataA ha hae hnarrowA hobj he hsub
    · exact cls_eq_of_exact ht hdataB hb hbe hnarrowB hobj he hsub

theorem admits_null_of_improve? (hs : a.improve? t b = some s) (ha : (object a).Admits t heap .null)
    (hb : (object b).Admits t heap .null) : (object s).Admits t heap .null := by
  obtain ⟨_, _, hnon, _⟩ := ObjectStamp.improve?_eq_some hs
  exact hnon.trans (Bool.or_eq_false_iff.mpr ⟨ha, hb⟩)

theorem exists_object_improve? (hrelated : a.unrelated t b = false) (ha : (object a).Admits t heap v)
    (hb : (object b).Admits t heap v) : ∃ s, a.improve? t b = some s := by
  rw [← Option.isSome_iff_exists, ← Option.ne_none_iff_isSome, Ne, ObjectStamp.improve?_eq_none_iff, hrelated]
  cases v with
  | null =>
    have hnonA : a.nonNull = false := ha
    have hnonB : b.nonNull = false := hb
    simp [hnonA, hnonB]
  | ref i => simp [ha.1, hb.1]
  | int | bool => exact ha.elim

theorem admits_inexact_of_narrows (hnarrow : s.Narrows t a) (hs : (object s).Admits t heap v) :
    (object a).inexact.Admits t heap v := by
  cases v with
  | null =>
    have hnon : s.nonNull = false := hs
    exact Bool.eq_false_iff.mpr fun ha => by simp [hnarrow.nonNull ha] at hnon
  | ref i =>
    constructor
    · exact Bool.eq_false_iff.mpr fun ha => by simpa [hs.1] using hnarrow.alwaysNull ha
    · intro c hc
      obtain ⟨e, he, hbelow⟩ := hnarrow.cls c hc
      obtain ⟨obj, hobj, hsub, _⟩ := hs.2 e he
      exact ⟨obj, hobj, ClassTable.isSubclass_trans hsub hbelow, nofun⟩
  | int | bool => exact hs

end

variable {a b s : Stamp}

theorem IsData.improve?_cases (hdataA : a.IsData) (hdataB : b.IsData) (hs : a.improve? t b = some s) :
    (∃ r r' m, a = int r ∧ b = int r' ∧ s = int m ∧ r.meet? r' = some m) ∨
      ∃ o o' m, a = object o ∧ b = object o' ∧ s = object m ∧ o.improve? t o' = some m := by
  cases a with
  | void | logic => exact hdataA.elim
  | int r =>
    cases b with
    | void | logic => exact hdataB.elim
    | object => cases hs
    | int r' =>
      obtain ⟨m, hm, rfl⟩ := Option.map_eq_some_iff.mp hs
      exact Or.inl ⟨r, r', m, rfl, rfl, rfl, hm⟩
  | object o =>
    cases b with
    | void | logic => exact hdataB.elim
    | int => cases hs
    | object o' =>
      obtain ⟨m, hm, rfl⟩ := Option.map_eq_some_iff.mp hs
      exact Or.inr ⟨o, o', m, rfl, rfl, rfl, hm⟩

theorem admits_of_improve? (ht : t.Acyclic) (hdataA : a.IsData) (hdataB : b.IsData) (hs : a.improve? t b = some s)
    (ha : a.Admits t heap v) (hb : b.Admits t heap v) : s.Admits t heap v := by
  rcases hdataA.improve?_cases hdataB hs with ⟨r, r', m, rfl, rfl, rfl, hm⟩ | ⟨o, o', m, rfl, rfl, rfl, hm⟩
  · obtain ⟨w, rfl, hw⟩ := ha
    obtain ⟨w', he, hw'⟩ := hb
    cases he
    exact ⟨w, rfl, (Interval.mem_of_meet? hm).mpr ⟨hw, hw'⟩⟩
  · cases v with
    | null => exact admits_null_of_improve? hm ha hb
    | ref i => exact admits_ref_of_improve? ht hdataA hdataB hm ha hb
    | int | bool => exact ha.elim

theorem admits_inexact_of_improve? (hdataA : a.IsData) (hdataB : b.IsData) (hs : a.improve? t b = some s)
    (hv : s.Admits t heap v) : a.inexact.Admits t heap v ∧ b.inexact.Admits t heap v := by
  rcases hdataA.improve?_cases hdataB hs with ⟨r, r', m, rfl, rfl, rfl, hm⟩ | ⟨o, o', m, rfl, rfl, rfl, hm⟩
  · obtain ⟨w, rfl, hw⟩ := hv
    have hboth := (Interval.mem_of_meet? hm).mp hw
    exact ⟨⟨w, rfl, hboth.1⟩, ⟨w, rfl, hboth.2⟩⟩
  · obtain ⟨hnarrow, hnarrow'⟩ := ObjectStamp.improve?_narrows hm
    exact ⟨admits_inexact_of_narrows hnarrow hv, admits_inexact_of_narrows hnarrow' hv⟩

theorem exists_improve? (hdataA : a.IsData) (hdataB : b.IsData) (ha : a.Admits t heap v) (hb : b.Admits t heap v)
    (hnull : v = .null → a.unrelated t b = false) : ∃ s, a.improve? t b = some s := by
  cases a with
  | void | logic => exact hdataA.elim
  | int r =>
    obtain ⟨w, rfl, hw⟩ := ha
    cases b with
    | void | logic => exact hdataB.elim
    | object => exact hb.elim
    | int r' =>
      obtain ⟨w', he, hw'⟩ := hb
      cases he
      obtain ⟨m, hm, _⟩ := Interval.exists_meet? hw hw'
      exact ⟨.int m, congrArg (Option.map Stamp.int) hm⟩
  | object o =>
    cases b with
    | void | logic => exact hdataB.elim
    | int =>
      obtain ⟨w, rfl, _⟩ := hb
      exact ha.elim
    | object o' =>
      have hrelated : o.unrelated t o' = false := by
        cases v with
        | null => exact hnull rfl
        | ref i => exact unrelated_eq_false_of_ref ha hb
        | int | bool => exact ha.elim
      obtain ⟨m, hm⟩ := exists_object_improve? hrelated ha hb
      exact ⟨.object m, congrArg (Option.map Stamp.object) hm⟩

theorem improve?_eq_none_of_unrelated (h : a.unrelated t b = true) : a.improve? t b = none := by
  cases a with
  | void | int | logic => cases h
  | object o =>
    cases b with
    | void | int | logic => cases h
    | object o' => exact congrArg (Option.map Stamp.object) (ObjectStamp.improve?_eq_none_iff.mpr (Or.inl h))

end Stamp

theorem Builder.pi_ok {b b' : Builder} {value guard id : NodeId} {stamp : Stamp}
    (h : Builder.pi value guard stamp b = .ok id b') :
    (b.graph.stamp value).improve? b.graph.classes stamp = some (b'.graph.stamp id) := by
  have h := Attempt.get_bind_ok.mp h
  cases himprove : (b.graph.stamp value).improve? b.graph.classes stamp with
  | none =>
    simp only [himprove] at h
    exact (Attempt.throw_ok.mp h).elim
  | some s =>
    simp only [himprove] at h
    obtain ⟨rfl, rfl⟩ := addNode_ok.mp h
    simp [Graph.stamp, Graph.get?_add]

namespace Stamp

/-- Improving stamps of data over a table without cycles. A value that both stamps admit is admitted by
the result, and there is a result, except that null does not count between unrelated classes: these have no
result. The result admits nothing that the stamps exclude by range, class or nullness. And a refinement
that could be built excludes no value that its input and its own stamp admit. -/
theorem improve?_keeps_values {t : ClassTable} (ht : t.Acyclic) {a b : Stamp} (ha : a.IsData) (hb : b.IsData) :
    (∀ heap v, a.Admits t heap v → b.Admits t heap v → (v = .null → a.unrelated t b = false) →
      ∃ s, a.improve? t b = some s ∧ s.Admits t heap v) ∧
    (a.unrelated t b = true → a.improve? t b = none) ∧
    (∀ s, a.improve? t b = some s → ∀ heap v, s.Admits t heap v →
      a.inexact.Admits t heap v ∧ b.inexact.Admits t heap v) ∧
    ∀ (builder builder' : Builder) (value guard id : NodeId), builder.graph.classes = t →
      builder.graph.stamp value = a → Builder.pi value guard b builder = .ok id builder' →
      ∀ heap v, a.Admits t heap v → b.Admits t heap v → (builder'.graph.stamp id).Admits t heap v := by
  refine ⟨?_, improve?_eq_none_of_unrelated, ?_, ?_⟩
  · intro heap v hav hbv hnull
    obtain ⟨s, hs⟩ := exists_improve? ha hb hav hbv hnull
    exact ⟨s, hs, admits_of_improve? ht ha hb hs hav hbv⟩
  · intro s hs heap v
    exact admits_inexact_of_improve? ha hb hs
  · intro builder builder' value guard id hclasses hstamp hpi heap v hav hbv
    have hs := Builder.pi_ok hpi
    rw [hclasses, hstamp] at hs
    exact admits_of_improve? ht ha hb hs hav hbv

/-- An exact class above the other stamp's class leaves null alone; and a parameter of a class is refined to
exactly a class below it. -/
theorem improve?_keeps_values_pets :
    let t : ClassTable := (ClassTable.root.declare "Animal" 0 false).declare "Dog" 1 false
    let exactAnimal : Stamp := .object ⟨some 1, true, false, false⟩
    let start : Builder := (Builder.parameter (.reference (some 1))).state (.ofClasses t)
    (t.Acyclic ∧ exactAnimal.IsData ∧ (reference (some 2)).IsData ∧
      ∃ s, exactAnimal.improve? t (reference (some 2)) = some s ∧ s.Admits t [] .null) ∧
    ∃ built, Builder.pi 1 0 (exactReference 2) start = .ok 2 built ∧ built.graph.stamp 2 = exactReference 2 ∧
      (built.graph.stamp 2).Admits t [⟨2, []⟩] (.ref 0) := by
  intro t exactAnimal start
  have ht : t.Acyclic := by decide +kernel
  have hexact : exactAnimal.IsData := fun _ => rfl
  have hdog : (reference (some 2)).IsData := nofun
  have hsub : t.isSubclass 2 1 = true ∧ t.isSubclass 2 2 = true := by decide +kernel
  refine ⟨⟨ht, hexact, hdog, ?_⟩, ?_⟩
  · exact (improve?_keeps_values ht hexact hdog).1 [] .null rfl rfl fun _ => by decide +kernel
  · obtain ⟨built, hbuilt⟩ := Attempt.result_eq_ok.mp
      (show (Builder.pi 1 0 (exactReference 2)).result start = .ok 2 by decide +kernel)
    have hanimal : (reference (some 1)).Admits t [⟨2, []⟩] (.ref 0) := by
      refine ⟨rfl, fun c hc => ⟨⟨2, []⟩, rfl, ?_, nofun⟩⟩
      cases hc
      exact hsub.1
    have hdogs : (exactReference 2).Admits t [⟨2, []⟩] (.ref 0) := by
      refine ⟨rfl, fun c hc => ⟨⟨2, []⟩, rfl, ?_⟩⟩
      cases hc
      exact ⟨hsub.2, fun _ => rfl⟩
    have hstamp : (start.graph.stamp 1).improve? start.graph.classes (exactReference 2) = some (exactReference 2) := by
      decide +kernel
    refine ⟨built, hbuilt, Option.some.inj ((Builder.pi_ok hbuilt).symm.trans hstamp), ?_⟩
    exact (improve?_keeps_values (a := reference (some 1)) (b := exactReference 2) ht nofun fun _ => rfl).2.2.2 start built
      1 0 2 (by decide +kernel) (by decide +kernel) hbuilt _ _ hanimal hdogs

/-- Null passes as a dog and as a rock, but the two stamps have no result. -/
theorem improve?_none_despite_null :
    let t : ClassTable := (ClassTable.root.declare "Dog" 0 false).declare "Rock" 0 false
    t.Acyclic ∧ (reference (some 1)).IsData ∧ (reference (some 2)).IsData ∧
      (reference (some 1)).Admits t [] .null ∧ (reference (some 2)).Admits t [] .null ∧
      ¬∃ s, (reference (some 1)).improve? t (reference (some 2)) = some s ∧ s.Admits t [] .null := by
  intro t
  have hnone : (reference (some 1)).improve? t (reference (some 2)) = none := by decide +kernel
  refine ⟨by decide +kernel, nofun, nofun, rfl, rfl, ?_⟩
  rintro ⟨s, hs, _⟩
  cases hnone.symm.trans hs

end Stamp

end GuardElision
