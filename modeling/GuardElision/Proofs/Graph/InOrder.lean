import GuardElision.Proofs.Graph.Turns
import Mathlib.Logic.Relation

namespace GuardElision

/-- What the position of a node depends on: the node itself, its anchor, nothing at all, or its inputs,
its guard and its memory state. -/
inductive Standing where
  | control
  | anchored
  | leaf
  | computed
deriving DecidableEq

def Kind.standing : Kind → Standing
  | .guard _ _ | .phi => .anchored
  | .parameter _ | .constant _ | .logicConstant _ => .leaf
  | .pi | .read _ | .compare _ | .isNull | .instanceOf _ => .computed
  | _ => .control

theorem Kind.isControl_of_standing {k : Kind} (h : k.standing = .computed) : k.isControl = false := by
  cases k <;> first | rfl | cases h

theorem Kind.standing_eq_control_iff {k : Kind} : k.standing = .control ↔ k.isControl = true := by
  cases k <;> simp [standing, isControl]

theorem Kind.isControl_of_standing_ne {k : Kind} (h : k.standing ≠ .control) : k.isControl = false := by
  simpa using mt Kind.standing_eq_control_iff.mpr h

theorem Kind.isGuard_of_standing {k : Kind} (h : k.standing = .anchored) (hphi : k ≠ .phi) : k.isGuard = true := by
  cases k <;> first | rfl | exact absurd rfl hphi | cases h

/-- The number of inputs of a kind that has a fixed number of them. -/
def Kind.takes? : Kind → Option Nat
  | .pi | .read _ | .isNull | .instanceOf _ => some 1
  | .compare _ => some 2
  | _ => none

theorem Kind.floats_of_takes? {k : Kind} {count : Nat} (h : k.takes? = some count) : k.isControl = false ∧ k ≠ .phi := by
  cases k <;> simp_all [takes?, isControl]

/-- The node rests on `d` where it stands. The inputs of a phi are asked for elsewhere, at the ends of the
predecessors of its merge. -/
def Node.RestsOn (n : Node) (d : NodeId) : Prop :=
  n.kind ≠ .phi ∧ d ∈ n.inputs ∨ n.anchor = some d ∨ n.guard = some d ∨ n.memory = some d

theorem Node.mem_dependencies {n : Node} {d : NodeId} :
    d ∈ n.dependencies ↔ d ∈ n.inputs ∨ n.anchor = some d ∨ n.guard = some d ∨ n.memory = some d := by
  simp [dependencies]

theorem Node.RestsOn.mem {n : Node} {d : NodeId} (h : n.RestsOn d) : d ∈ n.dependencies :=
  mem_dependencies.mpr (h.imp_left And.right)

theorem Node.dependency_cases {n : Node} {d : NodeId} (h : d ∈ n.dependencies) :
    n.RestsOn d ∨ n.kind = .phi ∧ d ∈ n.inputs := by
  rcases mem_dependencies.mp h with hin | hedge
  · by_cases hphi : n.kind = .phi
    · exact Or.inr ⟨hphi, hin⟩
    · exact Or.inl (Or.inl ⟨hphi, hin⟩)
  · exact Or.inl (Or.inr hedge)

namespace Graph

/-- Nodes have no other edges than their kind is meant to have. -/
structure Regular (g : Graph) : Prop where
  loose : ∀ x n, g.get? x = some n → n.kind.isControl = false → n.successors = []
  plain : ∀ c n, g.get? c = some n → n.kind.isControl = true →
    n.anchor = none ∧ n.guard = none ∧ n.memory = none ∧ (n.kind.isAnchor = true → n.inputs = [])
  anchored : ∀ x n, g.get? x = some n → n.kind.standing = .anchored → n.guard = none ∧ n.memory = none ∧
    (n.kind.isGuard = true → n.inputs.length = 1)
  leaf : ∀ x n, g.get? x = some n → n.kind.standing = .leaf → n.dependencies = []
  computed : ∀ x n, g.get? x = some n → n.kind.standing = .computed → n.anchor = none
  /-- Inputs are values. -/
  input : ∀ x n d k, g.get? x = some n → d ∈ n.inputs → g.get? d = some k →
    k.kind.isControl = false ∧ k.kind.isGuard = false
  state : ∀ x n d k, g.get? x = some n → n.memory = some d → g.get? d = some k → k.kind.isControl = true

/-- Every node has the form that its kind asks for, as far as what it refers to is there. -/
structure Formed (g : Graph) : Prop extends Regular g where
  shaped : g.Shaped
  back : ∀ c n, g.get? c = some n → n.kind = .loopEnd → n.successors ≠ []
  inside : ∀ x n d, g.get? x = some n → d ∈ n.dependencies → d < g.capacity
  /-- Guards and branches test conditions. -/
  test : ∀ x n, g.get? x = some n → n.kind = .branch ∨ n.kind.isGuard = true → ∃ t, n.inputs.head? = some t ∧
    ∀ m, g.get? t = some m → m.kind.isLogic = true ∧ m.stamp.isLogic = true
  guard : ∀ q n, g.get? q = some n → n.kind.isGuard = true → ∃ a, n.anchor = some a ∧
    ∀ k, g.get? a = some k → k.kind.isAnchor = true
  phi : ∀ p n, g.get? p = some n → n.kind = .phi → ∃ m k, n.anchor = some m ∧ g.get? m = some k ∧
    k.kind.isMerge = true ∧ (g.Reach m → n.inputs.length = k.predecessors.length)
  arity : ∀ x n, g.get? x = some n → ∀ count, n.kind.takes? = some count → n.inputs.length = count
  pi : ∀ x n, g.get? x = some n → n.kind = .pi → n.guard.isSome = true
  /-- Other edges than those to inputs lead to guards and control nodes. -/
  edge : ∀ x n d k, g.get? x = some n → n.anchor = some d ∨ n.guard = some d ∨ n.memory = some d →
    g.get? d = some k → k.kind.isControl = true ∨ k.kind.isGuard = true

/-- Each node has a place. Control nodes stand at themselves, guards and phis at their anchors, and what a
node rests on stands above it: the relation says which places are above which. -/
structure Placed (g : Graph) (place : NodeId → NodeId) (above : NodeId → NodeId → Prop) : Prop where
  control : ∀ c n, g.get? c = some n → n.kind.isControl = true → place c = c
  anchor : ∀ x n a, g.get? x = some n → n.kind.isGuard = true ∨ n.kind = .phi → n.anchor = some a → place x = a
  rests : ∀ x n d, g.get? x = some n → n.RestsOn d → above (place d) (place x)
  entry : ∀ p n m k (i : Nat) x s, g.get? p = some n → n.kind = .phi → n.anchor = some m → g.get? m = some k →
    n.inputs[i]? = some x → k.predecessors[i]? = some s → above (place x) s

/-- A floating node is computed from `y`. -/
def Computes (g : Graph) (x y : NodeId) : Prop :=
  ∃ n, g.get? x = some n ∧ n.kind.isControl = false ∧ n.kind ≠ .phi ∧ y ∈ n.inputs

/-- A floating node is computed from `y`, or is protected by it. -/
def Relies (g : Graph) (x y : NodeId) : Prop :=
  ∃ n, g.get? x = some n ∧ n.kind.isControl = false ∧ (n.kind ≠ .phi ∧ y ∈ n.inputs ∨ n.guard = some y)

structure InOrder (g : Graph) : Prop where
  formed : g.Formed
  live : ∀ x n d, g.get? x = some n → d ∈ n.dependencies → ∃ m, g.get? d = some m
  reached : ∀ c n, g.get? c = some n → n.kind.isControl = true → g.Reach c
  placed : ∃ place, g.Placed place g.Dom ∧ ∀ x n, g.get? x = some n → g.Reach (place x)
  /-- No value is computed from itself without crossing a phi. -/
  acyclic : ∀ x, ¬Relation.TransGen g.Computes x x
  /-- The condition of a guard relies on no guard at the same node that is not tested before it. -/
  ordered : ∀ q r a n m, g.get? q = some n → n.kind.isGuard = true → n.anchor = some a → g.get? r = some m →
    m.kind.isGuard = true → m.anchor = some a → Relation.TransGen g.Relies q r → r < q

variable {g h : Graph} {u : NodeId} {D : NodeId → Prop} {place : NodeId → NodeId} {above : NodeId → NodeId → Prop}

section Cut

variable (C : Cut u D g h)

include C

/-- What is left rests on what it rested on. -/
theorem Cut.restsOn {x d : NodeId} {n m : Node} (hn : h.get? x = some n) (hm : g.get? x = some m) (hd : n.RestsOn d) :
    m.RestsOn d := by
  obtain ⟨m', hm', hanchor, hguard, hmemory, hkind⟩ := C.node hn (lt_capacity hm)
  cases hm.symm.trans hm'
  rcases hd with ⟨hphi, hin⟩ | hedge
  · rcases hkind with ⟨he, hinputs⟩ | ⟨_, _, hnil⟩
    · exact Or.inl ⟨he ▸ hphi, hinputs hphi ▸ hin⟩
    · simp [hnil] at hin
  · rw [hanchor, hguard, hmemory] at hedge
    exact Or.inr hedge

theorem Cut.input (F : g.Formed) {x d : NodeId} {n m : Node} (hn : h.get? x = some n) (hm : g.get? x = some m)
    (hd : d ∈ n.inputs) : d ∈ m.inputs := by
  by_cases hphi : n.kind = .phi
  · obtain ⟨hlt, hne⟩ := C.floating hn (by simp [hphi, Kind.isControl])
    obtain ⟨m', hm', hkind, _, hanchor, _⟩ := C.other x n hn hlt hne
    cases hm.symm.trans hm'
    obtain ⟨t, k, ha, hk, _⟩ := F.phi x m hm (hkind ▸ hphi)
    obtain ⟨hcut, hsame⟩ := C.phi x n t m k hn hphi (hanchor.trans ha) hm hk
    by_cases hD : D t ∧ u ∈ k.predecessors
    · rcases hcut hD.1 hD.2 with he | ⟨_, he⟩
      · exact List.mem_of_mem_eraseIdx (he ▸ hd)
      · exact he ▸ hd
    · exact hsame (not_and_or.mp hD) ▸ hd
  · obtain ⟨m', hm', _, _, _, ⟨_, hinputs⟩ | ⟨_, _, hnil⟩⟩ := C.node hn (lt_capacity hm)
    · cases hm.symm.trans hm'
      exact hinputs hphi ▸ hd
    · simp [hnil] at hd

theorem Cut.dependency (F : g.Formed) {x d : NodeId} {n m : Node} (hn : h.get? x = some n) (hm : g.get? x = some m)
    (hd : d ∈ n.dependencies) : d ∈ m.dependencies := by
  rcases Node.dependency_cases hd with hd | ⟨_, hin⟩
  · exact (C.restsOn hn hm hd).mem
  · exact Node.mem_dependencies.mpr (Or.inl (C.input F hn hm hin))

theorem Cut.value {x : NodeId} {n : Node} (hn : h.get? x = some n) (hk : n.kind.isControl = false) :
    ∃ m, g.get? x = some m ∧ n.kind = m.kind ∧ n.stamp = m.stamp ∧ n.anchor = m.anchor ∧ n.guard = m.guard ∧
      n.memory = m.memory ∧ n.successors = m.successors ∧ (n.kind ≠ .phi → n.inputs = m.inputs) := by
  obtain ⟨hlt, hne⟩ := C.floating hn hk
  obtain ⟨m, hm, hkind, hstamp, hanchor, hguard, hmemory, hsucc, hinputs, _⟩ := C.other x n hn hlt hne
  exact ⟨m, hm, hkind, hstamp, hanchor, hguard, hmemory, hsucc, hinputs⟩

theorem Cut.sort {x : NodeId} {n m : Node} (hn : h.get? x = some n) (hm : g.get? x = some m) :
    n.kind.isControl = m.kind.isControl ∧ n.kind.isGuard = m.kind.isGuard := by
  obtain ⟨m', hm', _, _, _, ⟨he, _⟩ | ⟨he, hb, _⟩⟩ := C.node hn (lt_capacity hm)
  · cases hm.symm.trans hm'
    simp [he]
  · cases hm.symm.trans hm'
    simp [he, hb, Kind.isControl, Kind.isGuard]

theorem Regular.cut (F : g.Formed) : h.Regular := by
  refine ⟨fun x n hn hk => ?_, fun c n hn hk => ?_, fun x n hn hk => ?_, fun x n hn hk => ?_, fun x n hn hk => ?_,
    fun x n d k hn hd hk => ?_, fun x n d k hn hd hk => ?_⟩
  · obtain ⟨m, hm, hkind, _, _, _, _, hsucc, _⟩ := C.value hn hk
    exact hsucc.trans (F.loose x m hm (hkind ▸ hk))
  · by_cases hlt : c < g.capacity
    · obtain ⟨m, hm, hanchor, hguard, hmemory, hkind⟩ := C.node hn hlt
      rw [hanchor, hguard, hmemory]
      rcases hkind with ⟨he, hinputs⟩ | ⟨_, hb, hinputs⟩
      · obtain ⟨h₁, h₂, h₃, h₄⟩ := F.plain c m hm (he ▸ hk)
        refine ⟨h₁, h₂, h₃, fun ha => ?_⟩
        rw [hinputs (by rintro hphi; simp [hphi, Kind.isControl] at hk)]
        exact h₄ (he ▸ ha)
      · obtain ⟨h₁, h₂, h₃, _⟩ := F.plain c m hm (by simp [hb, Kind.isControl])
        exact ⟨h₁, h₂, h₃, fun _ => hinputs⟩
    · have hnil := C.bare c n hn (Nat.not_lt.mp hlt)
      simp only [Node.dependencies, List.append_eq_nil_iff, Option.toList_eq_nil_iff] at hnil
      exact ⟨hnil.1.1.2, hnil.1.2, hnil.2, fun _ => hnil.1.1.1⟩
  · obtain ⟨m, hm, hkind, _, _, hguard, hmemory, _, hinputs⟩ := C.value hn (Kind.isControl_of_standing_ne (by simp [hk]))
    obtain ⟨h₁, h₂, h₃⟩ := F.anchored x m hm (hkind ▸ hk)
    refine ⟨hguard.trans h₁, hmemory.trans h₂, fun hg => ?_⟩
    rw [hinputs (by rintro hphi; simp [hphi, Kind.isGuard] at hg)]
    exact h₃ (hkind ▸ hg)
  · obtain ⟨m, hm, hkind, _, hanchor, hguard, hmemory, _, hinputs⟩ := C.value hn (Kind.isControl_of_standing_ne (by simp [hk]))
    have hsame := hinputs (by rintro hphi; simp [hphi, Kind.standing] at hk)
    unfold Node.dependencies
    rw [hsame, hanchor, hguard, hmemory]
    exact F.leaf x m hm (hkind ▸ hk)
  · obtain ⟨m, hm, hkind, _, hanchor, _⟩ := C.value hn (Kind.isControl_of_standing_ne (by simp [hk]))
    exact hanchor.trans (F.computed x m hm (hkind ▸ hk))
  · by_cases hlt : x < g.capacity
    · obtain ⟨m, hm, _⟩ := C.node hn hlt
      have hd' := C.input F hn hm hd
      obtain ⟨l, hl, _⟩ := C.node hk (F.inside x m d hm (Node.mem_dependencies.mpr (Or.inl hd')))
      obtain ⟨hc, hg⟩ := C.sort hk hl
      rw [hc, hg]
      exact F.input x m d l hm hd' hl
    · have hmem : d ∈ n.dependencies := Node.mem_dependencies.mpr (Or.inl hd)
      simp [C.bare x n hn (Nat.not_lt.mp hlt)] at hmem
  · by_cases hlt : x < g.capacity
    · obtain ⟨m, hm, _, _, hmemory, _⟩ := C.node hn hlt
      have hd' := hmemory.symm.trans hd
      obtain ⟨l, hl, _⟩ := C.node hk (F.inside x m d hm (Node.mem_dependencies.mpr (Or.inr (Or.inr (Or.inr hd')))))
      rw [(C.sort hk hl).1]
      exact F.state x m d l hm hd' hl
    · have hmem : d ∈ n.dependencies := Node.mem_dependencies.mpr (Or.inr (Or.inr (Or.inr hd)))
      simp [C.bare x n hn (Nat.not_lt.mp hlt)] at hmem

theorem Formed.cut (F : g.Formed) : h.Formed := by
  have H := F.shaped
  have H' := C.shaped H
  have hback : ∀ x n, h.get? x = some n → x < g.capacity ∨ n.dependencies = [] ∧ n.kind.isControl = true ∧
      n.kind.isGuard = false ∧ n.kind ≠ .branch ∧ n.kind ≠ .loopEnd := by
    intro x n hn
    by_cases hlt : x < g.capacity
    · exact Or.inl hlt
    · obtain ⟨reason, hk, _⟩ := C.fresh x n hn (Nat.not_lt.mp hlt)
      exact Or.inr ⟨C.bare x n hn (Nat.not_lt.mp hlt), by simp [hk, Kind.isControl], by simp [hk, Kind.isGuard],
        by simp [hk], by simp [hk]⟩
  refine ⟨.cut C F, H', fun c n hn hk => ?_, fun x n d hn hd => ?_, fun x n hn hk => ?_,
    fun q n hn hk => ?_, fun p n hn hk => ?_, fun x n hn count hcount => ?_, fun x n hn hk => ?_, fun x n d k hn hd hk => ?_⟩
  · rcases hback c n hn with hlt | ⟨_, _, _, _, hne⟩
    · have hcu : c ≠ u := by
        rintro rfl
        obtain ⟨m, _, _, hml, _, ⟨he, _⟩ | ⟨he, _⟩, _⟩ := C.here n hn
        · exact hml (he.trans hk)
        · simp [he] at hk
      obtain ⟨m, hm, hkind, _, _, _, _, hsucc, _⟩ := C.other c n hn hlt hcu
      rw [hsucc]
      exact F.back c m hm (hkind ▸ hk)
    · exact absurd hk hne
  · rcases hback x n hn with hlt | ⟨hnil, _⟩
    · obtain ⟨m, hm, _⟩ := C.node hn hlt
      exact Nat.lt_of_lt_of_le (F.inside x m d hm (C.dependency F hn hm hd)) C.capacity
    · simp [hnil] at hd
  · rcases hback x n hn with hlt | ⟨_, _, hg, hb, _⟩
    · obtain ⟨m, hm, _, _, _, ⟨he, hinputs⟩ | ⟨he, _⟩⟩ := C.node hn hlt
      · have hphi : n.kind ≠ .phi := by
          rintro hphi
          simp [hphi, Kind.isGuard] at hk
        obtain ⟨t, ht, htest⟩ := F.test x m hm (he ▸ hk)
        refine ⟨t, hinputs hphi ▸ ht, fun l hl => ?_⟩
        have hmem : t ∈ m.dependencies := Node.mem_dependencies.mpr (Or.inl (List.mem_of_head? ht))
        obtain ⟨l', hl', _, _, _, hkind⟩ := C.node hl (F.inside x m t hm hmem)
        have hlogic := (htest l' hl').1
        have hlc : l.kind.isControl = false := by
          rcases hkind with ⟨he', _⟩ | ⟨_, hb, _⟩
          · exact he' ▸ Kind.isControl_of_isLogic hlogic
          · simp [hb, Kind.isLogic] at hlogic
        obtain ⟨l'', hl'', hkind', hstamp, _⟩ := C.value hl hlc
        cases hl'.symm.trans hl''
        rw [hkind', hstamp]
        exact htest l' hl'
      · simp [he, Kind.isGuard] at hk
    · rcases hk with hk | hk
      · exact absurd hk hb
      · simp [hg] at hk
  · obtain ⟨m, hm, hkind, _, hanchor, _⟩ := C.value hn (Kind.isControl_of_isGuard hk)
    obtain ⟨a, ha, hanchored⟩ := F.guard q m hm (hkind ▸ hk)
    refine ⟨a, hanchor.trans ha, fun k hk' => ?_⟩
    have hmem : a ∈ m.dependencies := Node.mem_dependencies.mpr (Or.inr (Or.inl ha))
    obtain ⟨l, hl, _, _, _, ⟨he, _⟩ | ⟨he, _⟩⟩ := C.node hk' (F.inside q m a hm hmem)
    · exact he ▸ hanchored l hl
    · simp [he, Kind.isAnchor]
  · obtain ⟨m, hm, hkind, _, hanchor, _⟩ := C.value hn (by simp [hk, Kind.isControl])
    obtain ⟨t, l, ha, hl, hmerge, hlen⟩ := F.phi p m hm (hkind ▸ hk)
    have ha' := hanchor.trans ha
    obtain ⟨k, hk'⟩ := C.control_kept hl (Kind.isControl_of_isMerge hmerge) fun he => by
      by_contra hnone
      refine C.alone ?_ p n hn hk (he ▸ ha')
      by_contra hsome
      exact hnone (Option.ne_none_iff_exists'.mp hsome)
    refine ⟨t, k, ha', hk', ?_, fun hr => ?_⟩
    · obtain ⟨l', hl', _, _, _, ⟨he, _⟩ | ⟨_, he, _⟩⟩ := C.node hk' (lt_capacity hl)
      · cases hl.symm.trans hl'
        exact he ▸ hmerge
      · cases hl.symm.trans hl'
        simp [he, Kind.isMerge] at hmerge
    · exact C.lengths H hn hk ha' hm hk' hl hr (hlen ((C.subFlow H).reach H.start_lt hr (lt_capacity hl)))
  · have hk := Kind.floats_of_takes? hcount
    obtain ⟨m, hm, hkind, _, _, _, _, _, hinputs⟩ := C.value hn hk.1
    rw [hinputs hk.2]
    exact F.arity x m hm count (hkind ▸ hcount)
  · obtain ⟨m, hm, hkind, _, _, hguard, _⟩ := C.value hn (by simp [hk, Kind.isControl])
    rw [hguard]
    exact F.pi x m hm (hkind ▸ hk)
  · rcases hback x n hn with hlt | ⟨hnil, _⟩
    · obtain ⟨m, hm, hanchor, hguard, hmemory, _⟩ := C.node hn hlt
      have hd' : m.anchor = some d ∨ m.guard = some d ∨ m.memory = some d := by rwa [← hanchor, ← hguard, ← hmemory]
      obtain ⟨l, hl, _, _, _, ⟨he, _⟩ | ⟨he, _⟩⟩ :=
        C.node hk (F.inside x m d hm (Node.mem_dependencies.mpr (Or.inr hd')))
      · exact he ▸ F.edge x m d l hm hd' hl
      · exact Or.inl (by simp [he, Kind.isControl])
    · have hmem : d ∈ n.dependencies := Node.mem_dependencies.mpr (Or.inr hd)
      simp [hnil] at hmem

theorem Placed.cut (P : g.Placed place above) (F : g.Formed) (hfresh : ∀ c, g.capacity ≤ c → place c = c) :
    h.Placed place above := by
  refine ⟨fun c n hn hk => ?_, fun x n a hn hk ha => ?_, fun x n d hn hd => ?_, fun p n m k i x s hp hk ha hm hx hs => ?_⟩
  · by_cases hlt : c < g.capacity
    · obtain ⟨m, hm, _, _, _, ⟨he, _⟩ | ⟨_, he, _⟩⟩ := C.node hn hlt
      · exact P.control c m hm (he ▸ hk)
      · exact P.control c m hm (by simp [he, Kind.isControl])
    · exact hfresh c (Nat.not_lt.mp hlt)
  · have hc : n.kind.isControl = false := by
      rcases hk with hk | hk
      · exact Kind.isControl_of_isGuard hk
      · simp [hk, Kind.isControl]
    obtain ⟨hlt, hne⟩ := C.floating hn hc
    obtain ⟨m, hm, hkind, _, hanchor, _⟩ := C.other x n hn hlt hne
    exact P.anchor x m a hm (hkind ▸ hk) (hanchor ▸ ha)
  · by_cases hlt : x < g.capacity
    · obtain ⟨m, hm, _⟩ := C.node hn hlt
      exact P.rests x m d hm (C.restsOn hn hm hd)
    · have hmem := hd.mem
      simp [C.bare x n hn (Nat.not_lt.mp hlt)] at hmem
  · obtain ⟨hlt, hne⟩ := C.floating hp (by simp [hk, Kind.isControl])
    obtain ⟨l, hl, hkind, _, hanchor, _⟩ := C.other p n hp hlt hne
    obtain ⟨t, k', ha', hk', _⟩ := F.phi p l hl (hkind ▸ hk)
    obtain rfl : m = t := Option.some.inj ((ha.symm.trans hanchor).trans ha')
    obtain ⟨l', j, hl', hkl, hal, hx', hs'⟩ := C.entry F.shaped hp hk ha hm hk' hx hs
    exact P.entry p l' m k' j x s hl' hkl hal hk' hx' hs'

end Cut

section Delete

variable {y : NodeId}

variable (hy : ∀ n, g.get? y = some n → n.kind.isControl = false)

include hy

theorem control_of_delete {c : NodeId} {m : Node} (hm : g.get? c = some m) (hk : m.kind.isControl = true) :
    (g.delete y).get? c = some m := by
  rw [get?_delete, if_neg, hm]
  rintro rfl
  rw [hy m hm] at hk
  cases hk

theorem SameControl.delete : SameControl g (g.delete y) :=
  ⟨capacity_delete g y, fun _ n hn => ⟨n, get?_of_delete hn⟩,
    fun _ m hm hk => ⟨m, control_of_delete hy hm hk, rfl, rfl, rfl, rfl⟩,
    fun _ n hn _ => ⟨n, get?_of_delete hn, rfl, rfl, rfl, rfl⟩⟩

omit hy in
theorem Regular.delete (R : g.Regular) : (g.delete y).Regular :=
  ⟨fun x n hn => R.loose x n (get?_of_delete hn), fun c n hn => R.plain c n (get?_of_delete hn),
    fun x n hn => R.anchored x n (get?_of_delete hn), fun x n hn => R.leaf x n (get?_of_delete hn),
    fun x n hn => R.computed x n (get?_of_delete hn),
    fun x n d k hn hd hk => R.input x n d k (get?_of_delete hn) hd (get?_of_delete hk),
    fun x n d k hn hd hk => R.state x n d k (get?_of_delete hn) hd (get?_of_delete hk)⟩

theorem Formed.delete (F : g.Formed) : (g.delete y).Formed := by
  have S := SameControl.delete hy
  refine ⟨F.toRegular.delete, S.shaped F.shaped, fun c n hn => F.back c n (get?_of_delete hn), fun x n d hn hd => ?_, fun x n hn hk => ?_, fun q n hn hk => ?_,
    fun p n hn hk => ?_, fun x n hn => F.arity x n (get?_of_delete hn), fun x n hn => F.pi x n (get?_of_delete hn),
    fun x n d k hn hd hk => F.edge x n d k (get?_of_delete hn) hd (get?_of_delete hk)⟩
  · rw [capacity_delete]
    exact F.inside x n d (get?_of_delete hn) hd
  · obtain ⟨t, ht, htest⟩ := F.test x n (get?_of_delete hn) hk
    exact ⟨t, ht, fun m hm => htest m (get?_of_delete hm)⟩
  · obtain ⟨a, ha, hanchored⟩ := F.guard q n (get?_of_delete hn) hk
    exact ⟨a, ha, fun k hk => hanchored k (get?_of_delete hk)⟩
  · obtain ⟨m, k, ha, hm, hmerge, hlen⟩ := F.phi p n (get?_of_delete hn) hk
    refine ⟨m, k, ha, control_of_delete hy hm (Kind.isControl_of_isMerge hmerge), hmerge, fun hr => hlen ?_⟩
    exact (S.subFlow F.shaped).reach F.shaped.start_lt hr (lt_capacity hm)

omit hy in
theorem Placed.delete (P : g.Placed place above) : (g.delete y).Placed place above :=
  ⟨fun c n hn => P.control c n (get?_of_delete hn), fun x n a hn => P.anchor x n a (get?_of_delete hn),
    fun x n d hn => P.rests x n d (get?_of_delete hn),
    fun p n m k i x s hp hk ha hm => P.entry p n m k i x s (get?_of_delete hp) hk ha (get?_of_delete hm)⟩

end Delete

end Graph

end GuardElision
