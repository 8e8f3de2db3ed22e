import GuardElision.Proofs.Facts.Meaning
import Mathlib.Data.Fintype.Card
import Mathlib.Data.Fin.Basic
import Mathlib.Logic.Relation

namespace GuardElision

namespace ClassTable

variable {t : ClassTable} {a b c : ClassId}

def up (t : ClassTable) : Nat → ClassId → Option ClassId
  | 0, c => some c
  | n + 1, c => (t.parent? c).bind (t.up n)

theorem up_add (t : ClassTable) (m n : Nat) (c : ClassId) :
    t.up (m + n) c = (t.up m c).bind (t.up n) := by
  induction m generalizing c with
  | zero => simp [up]
  | succ m ih =>
    rw [Nat.add_right_comm, up, up, Option.bind_assoc]
    exact congrArg _ (funext ih)

theorem mem_chain (t : ClassTable) (m : Nat) (c d : ClassId) :
    d ∈ t.chain m c ↔ ∃ n < m, t.up n c = some d := by
  induction m generalizing c with
  | zero => simp [chain]
  | succ m ih =>
    have hstep : (∃ n < m + 1, t.up n c = some d) ↔ c = d ∨ ∃ n < m, t.up (n + 1) c = some d := by
      constructor
      · rintro ⟨n, hn, hu⟩
        cases n with
        | zero => exact Or.inl (Option.some.inj hu)
        | succ n => exact Or.inr ⟨n, by omega, hu⟩
      · rintro (he | ⟨n, hn, hu⟩)
        · exact ⟨0, by omega, congrArg some he⟩
        · exact ⟨n + 1, by omega, hu⟩
    rw [hstep, chain, List.mem_cons, eq_comm]
    refine or_congr_right ?_
    cases hp : t.parent? c with
    | none => simp [up, hp]
    | some p => simp [up, hp, ih]

theorem lt_size_of_parent? (h : t.parent? a = some b) : a < t.size := by
  unfold parent? at h
  by_contra hn
  simp [Array.getElem?_eq_none (Nat.le_of_not_lt hn)] at h

/-- The first time a chain reaches a class, it has not met any class twice. -/
theorem up_injective_before {n : Nat} (hn : t.up n a = some b) (hmin : ∀ m < n, t.up m a ≠ some b)
    {i j : Nat} (hij : i < j) (hj : j ≤ n) (he : t.up i a = t.up j a) : False := by
  apply hmin (i + (n - j)) (by omega)
  have hs := t.up_add j (n - j) a
  rw [Nat.add_sub_cancel' hj, hn, ← he] at hs
  rw [up_add, ← hs]

/-- All classes of a chain but the last are declared, so a chain without repetition is short. -/
theorem le_size_of_up {n : Nat} (hn : t.up n a = some b) (hinj : ∀ i j, i < j → j ≤ n → t.up i a ≠ t.up j a) :
    n ≤ t.size := by
  have hdecl : ∀ i : Fin n, ∃ c, t.up i a = some c ∧ c < t.size := by
    intro i
    have hs := t.up_add i (n - i) a
    rw [Nat.add_sub_cancel' i.isLt.le, hn] at hs
    obtain ⟨c, hc, hu⟩ := Option.bind_eq_some_iff.mp hs.symm
    refine ⟨c, hc, ?_⟩
    obtain ⟨k, hk⟩ : ∃ k, n - i = k + 1 := ⟨n - i - 1, by omega⟩
    rw [hk, up] at hu
    obtain ⟨p, hp, _⟩ := Option.bind_eq_some_iff.mp hu
    exact lt_size_of_parent? hp
  choose f hf hlt using hdecl
  have hinjective : Function.Injective fun i : Fin n => (⟨f i, hlt i⟩ : Fin t.size) := by
    intro i j he
    have he' : t.up i a = t.up j a := by rw [hf, hf, Fin.mk.inj he]
    rcases Nat.lt_trichotomy i j with h | h | h
    · exact absurd he' (hinj i j h j.isLt.le)
    · exact Fin.ext h
    · exact absurd he'.symm (hinj j i h i.isLt.le)
  simpa using Fintype.card_le_of_injective _ hinjective

theorem le_size_of_up_first {n : Nat} (hn : t.up n a = some b) (hmin : ∀ m < n, t.up m a ≠ some b) :
    n ≤ t.size :=
  le_size_of_up hn fun _ _ hij hj he => up_injective_before hn hmin hij hj he

theorem isSubclass_iff : t.isSubclass a b = true ↔ ∃ n, t.up n a = some b := by
  rw [isSubclass, List.contains_iff_mem, superclasses, mem_chain]
  constructor
  · rintro ⟨n, _, hn⟩
    exact ⟨n, hn⟩
  · intro h
    have hmin := fun m => Nat.find_min (H := h) (m := m)
    exact ⟨Nat.find h, Nat.lt_succ_of_le (le_size_of_up_first (Nat.find_spec h) fun m hm => hmin m hm),
      Nat.find_spec h⟩

theorem isSubclass_refl (t : ClassTable) (a : ClassId) : t.isSubclass a a = true :=
  isSubclass_iff.mpr ⟨0, rfl⟩

theorem isSubclass_trans (h : t.isSubclass a b = true) (k : t.isSubclass b c = true) :
    t.isSubclass a c = true := by
  obtain ⟨m, hm⟩ := isSubclass_iff.mp h
  obtain ⟨n, hn⟩ := isSubclass_iff.mp k
  exact isSubclass_iff.mpr ⟨m + n, by rw [up_add, hm]; exact hn⟩

theorem isSubclass_total (h : t.isSubclass c a = true) (k : t.isSubclass c b = true) :
    t.isSubclass a b = true ∨ t.isSubclass b a = true := by
  obtain ⟨m, hm⟩ := isSubclass_iff.mp h
  obtain ⟨n, hn⟩ := isSubclass_iff.mp k
  rcases Nat.le_total m n with hle | hle
  · have hs := t.up_add m (n - m) c
    rw [Nat.add_sub_cancel' hle, hn, hm] at hs
    exact Or.inl (isSubclass_iff.mpr ⟨n - m, hs.symm⟩)
  · have hs := t.up_add n (m - n) c
    rw [Nat.add_sub_cancel' hle, hm, hn] at hs
    exact Or.inr (isSubclass_iff.mpr ⟨m - n, hs.symm⟩)

theorem not_isSubclass_of_disjoint (hd : t.disjoint a b = true) (h : t.isSubclass c a = true) :
    t.isSubclass c b = false := by
  simp only [disjoint, Bool.and_eq_true, Bool.not_eq_true'] at hd
  rw [← Bool.not_eq_true]
  intro k
  rcases isSubclass_total h k with hab | hba
  · simp [hd.1] at hab
  · simp [hd.2] at hba

theorem disjoint_iff : t.disjoint a b = true ↔ ¬∃ c, t.isSubclass c a = true ∧ t.isSubclass c b = true := by
  constructor
  · rintro hd ⟨c, ha, hb⟩
    simp [not_isSubclass_of_disjoint hd ha] at hb
  · intro hnone
    rw [disjoint, Bool.and_eq_true, Bool.not_eq_true', Bool.not_eq_true', ← Bool.not_eq_true, ← Bool.not_eq_true]
    exact ⟨fun hab => hnone ⟨a, isSubclass_refl t a, hab⟩, fun hba => hnone ⟨b, hba, isSubclass_refl t b⟩⟩

def Extends (t : ClassTable) (c p : ClassId) : Prop :=
  t.parent? c = some p

/-- Going up from a class never leads back to it. Parents need not be declared. -/
def Acyclic (t : ClassTable) : Prop :=
  ∀ c, ¬Relation.TransGen t.Extends c c

theorem up_succ_of_extends (h : t.Extends a b) (n : Nat) : t.up (n + 1) a = t.up n b := by
  rw [up, show t.parent? a = some b from h, Option.bind_some]

theorem reflTransGen_iff_up : Relation.ReflTransGen t.Extends a b ↔ ∃ n, t.up n a = some b := by
  constructor
  · intro h
    induction h using Relation.ReflTransGen.head_induction_on with
    | refl => exact ⟨0, rfl⟩
    | @head c p hp _ ih =>
      obtain ⟨n, hn⟩ := ih
      exact ⟨n + 1, (up_succ_of_extends hp n).trans hn⟩
  · rintro ⟨n, hn⟩
    induction n generalizing a with
    | zero =>
      cases hn
      exact .refl
    | succ n ih =>
      obtain ⟨p, hp, hup⟩ := Option.bind_eq_some_iff.mp hn
      exact .head hp (ih hup)

theorem isSubclass_iff_reflTransGen : t.isSubclass a b = true ↔ Relation.ReflTransGen t.Extends a b :=
  isSubclass_iff.trans reflTransGen_iff_up.symm

theorem transGen_of_up {n : Nat} (h : t.up (n + 1) a = some b) : Relation.TransGen t.Extends a b := by
  obtain ⟨p, hp, hup⟩ := Option.bind_eq_some_iff.mp h
  exact .head' hp (reflTransGen_iff_up.mpr ⟨n, hup⟩)

/-- Once a chain has come back to where it was, it never ends. -/
theorem exists_up_of_transGen (h : Relation.TransGen t.Extends a a) (n : Nat) : ∃ b, t.up n a = some b := by
  induction n generalizing a with
  | zero => exact ⟨a, rfl⟩
  | succ n ih =>
    obtain ⟨p, hp, hback⟩ := Relation.TransGen.head'_iff.mp h
    obtain ⟨b, hb⟩ := ih (.tail' hback hp)
    exact ⟨b, (up_succ_of_extends hp n).trans hb⟩

/-- In a table without cycles every chain ends after it has passed as many classes as are declared. -/
theorem Acyclic.up_eq_none (ht : t.Acyclic) (c : ClassId) : t.up (t.size + 1) c = none := by
  by_contra hsome
  obtain ⟨b, hb⟩ := Option.ne_none_iff_exists'.mp hsome
  have hinj : ∀ i j, i < j → j ≤ t.size + 1 → t.up i c ≠ t.up j c := by
    intro i j hij hj he
    have hrest := t.up_add j (t.size + 1 - j) c
    rw [Nat.add_sub_cancel' hj, hb] at hrest
    obtain ⟨d, hd, _⟩ := Option.bind_eq_some_iff.mp hrest.symm
    have hagain := t.up_add i (j - i - 1 + 1) c
    rw [show i + (j - i - 1 + 1) = j by omega, he, hd] at hagain
    exact ht d (transGen_of_up hagain.symm)
  have hle := le_size_of_up hb hinj
  omega

theorem acyclic_iff : t.Acyclic ↔ ∀ c < t.size, t.up (t.size + 1) c = none := by
  constructor
  · exact fun ht c _ => ht.up_eq_none c
  · intro hends c hcycle
    obtain ⟨p, hp, _⟩ := Relation.TransGen.head'_iff.mp hcycle
    obtain ⟨b, hb⟩ := exists_up_of_transGen hcycle (t.size + 1)
    rw [hends c (lt_size_of_parent? hp)] at hb
    cases hb

instance : Decidable t.Acyclic :=
  decidable_of_iff _ acyclic_iff.symm

theorem Acyclic.isSubclass_antisymm (ht : t.Acyclic) (h : t.isSubclass a b = true) (k : t.isSubclass b a = true) :
    a = b := by
  by_contra hne
  rcases Relation.reflTransGen_iff_eq_or_transGen.mp (isSubclass_iff_reflTransGen.mp h) with he | hab
  · exact hne he.symm
  · exact ht a (hab.trans_left (isSubclass_iff_reflTransGen.mp k))

/-- Subclassing in a table without cycles of parents: it is the way up along parents, an order in which
the classes above a class are comparable; two classes are disjoint exactly if no class is below both, so
that no value passes the tests for both. -/
theorem subclassing_tree_order (t : ClassTable) (ht : t.Acyclic) :
    (∀ a b, t.isSubclass a b = true ↔ Relation.ReflTransGen t.Extends a b) ∧
    (∀ a, t.isSubclass a a = true) ∧
    (∀ a b c, t.isSubclass a b = true → t.isSubclass b c = true → t.isSubclass a c = true) ∧
    (∀ a b, t.isSubclass a b = true → t.isSubclass b a = true → a = b) ∧
    (∀ a b c, t.isSubclass c a = true → t.isSubclass c b = true →
      t.isSubclass a b = true ∨ t.isSubclass b a = true) ∧
    (∀ a b, t.disjoint a b = true ↔ ¬∃ c, t.isSubclass c a = true ∧ t.isSubclass c b = true) ∧
    ∀ a b, t.disjoint a b = true →
      ∀ heap v, ¬(Value.isInstance t heap a v = true ∧ Value.isInstance t heap b v = true) := by
  refine ⟨fun _ _ => isSubclass_iff_reflTransGen, isSubclass_refl t, fun _ _ _ => isSubclass_trans,
    fun _ _ => ht.isSubclass_antisymm, fun _ _ _ => isSubclass_total, fun _ _ => disjoint_iff, ?_⟩
  rintro a b hd heap v ⟨ha, hb⟩
  cases v with
  | ref i =>
    obtain ⟨o, ho, hoa⟩ := (Option.any_eq_true _ _).mp ha
    have hob : t.isSubclass o.cls b = true := by simpa [Value.isInstance, ho] using hb
    exact disjoint_iff.mp hd ⟨o.cls, hoa, hob⟩
  | int | null | bool => cases ha

/-- With parents declared later, parents that are not declared, and a chain of three. -/
theorem subclassing_tree_order_forward :
    let t : ClassTable := (((ClassTable.root.declare "Cat" 3 false).declare "Ghost" 9 false).declare "Pet" 4 false).declare
      "Animal" 0 true
    t.Acyclic ∧ t.isSubclass 1 3 = true ∧ t.isSubclass 1 4 = true ∧ t.isSubclass 2 9 = true ∧
      (t.isSubclass 3 4 = true ∨ t.isSubclass 4 3 = true) ∧ t.disjoint 9 4 = true ∧
      ¬∃ c, t.isSubclass c 9 = true ∧ t.isSubclass c 4 = true := by
  intro t
  have ht : t.Acyclic := by decide +kernel
  obtain ⟨_, _, _, _, htotal, hdisjoint, _⟩ := t.subclassing_tree_order ht
  have h₃ : t.isSubclass 1 3 = true := by decide +kernel
  have h₄ : t.isSubclass 1 4 = true := by decide +kernel
  have hd : t.disjoint 9 4 = true := by decide +kernel
  exact ⟨ht, h₃, h₄, by decide +kernel, htotal 3 4 1 h₃ h₄, hd, (hdisjoint 9 4).mp hd⟩

end ClassTable

end GuardElision
