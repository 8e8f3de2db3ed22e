import GuardElision.Proofs.Elimination.Steps

namespace GuardElision

namespace Kind

/-- What becomes of a kind: a branch or a merge turns into a plain step, a condition is decided, and a guard
takes over the test of another one of its reason. -/
inductive MayBecome : Kind → Kind → Prop
  | same (k : Kind) : MayBecome k k
  | branch : MayBecome .branch .begin
  | merge : MayBecome .merge .begin
  | loopBegin : MayBecome .loopBegin .begin
  | compare (op : Comparison) (value : Bool) : MayBecome (.compare op) (.logicConstant value)
  | isNull (value : Bool) : MayBecome .isNull (.logicConstant value)
  | instanceOf (cls : ClassId) (value : Bool) : MayBecome (.instanceOf cls) (.logicConstant value)
  | guard (negated negated' : Bool) (reason : Reason) : MayBecome (.guard negated reason) (.guard negated' reason)

namespace MayBecome

variable {k k' k'' : Kind}

theorem trans (h : MayBecome k k') (h' : MayBecome k' k'') : MayBecome k k'' := by
  cases h with
  | same => exact h'
  | guard negated _ reason =>
    cases h' with
    | same => exact .guard ..
    | guard => exact .guard ..
  | branch => cases h'; exact .branch
  | merge => cases h'; exact .merge
  | loopBegin => cases h'; exact .loopBegin
  | compare => cases h'; exact .compare ..
  | isNull => cases h'; exact .isNull _
  | instanceOf => cases h'; exact .instanceOf ..

theorem isControl (h : MayBecome k k') : k'.isControl = k.isControl := by
  cases h <;> rfl

theorem of_isMerge (h : k.isMerge = true) : MayBecome k .begin := by
  cases k <;> simp only [isMerge, Bool.false_eq_true] at h
  · exact .merge
  · exact .loopBegin

/-- A guard was always a guard of its reason. -/
theorem of_guard {negated : Bool} {reason : Reason} (h : MayBecome k (.guard negated reason)) :
    ∃ negated', k = .guard negated' reason := by
  cases h with
  | same => exact ⟨negated, rfl⟩
  | guard negated' => exact ⟨negated', rfl⟩

theorem of_deoptimize {reason : Reason} (h : MayBecome (.deoptimize reason) k) : k = .deoptimize reason := by
  cases h
  rfl

theorem of_parameter {index : Nat} (h : MayBecome (.parameter index) k) : k = .parameter index := by
  cases h
  rfl

theorem begin_of_begin (h : MayBecome k .begin) (h' : MayBecome k k') : MayBecome k' .begin := by
  cases h <;> cases h' <;> constructor

theorem not_begin_branch : ¬MayBecome .begin .branch := nofun

end MayBecome

end Kind

/-- What a run may touch: the nodes control may lead to, among them all from `base` on, and the reasons of
its traps. -/
structure Extent where
  base : Nat
  passes : NodeId → Prop
  reasons : Reason → Prop
  passes_new : ∀ id, base ≤ id → passes id

/-- Nothing is out of bounds. -/
def Extent.all : Extent where
  base := 0
  passes _ := True
  reasons _ := True
  passes_new _ _ := trivial

namespace Node

/-- A parameter that relies on nothing. -/
def IsBare (n : Node) : Prop :=
  (∃ index, n.kind = .parameter index) ∧ n.dependencies = []

/-- What becomes of the slot of a node. -/
structure MayBecome (E : Extent) (id : NodeId) (n m : Node) : Prop where
  removed : n.removed = true → m.removed = true
  stamp : m.stamp = n.stamp
  synthetic : m.synthetic = n.synthetic
  kind : n.kind.MayBecome m.kind
  successors : m.removed = false → ∀ s ∈ m.successors, s ∈ n.successors ∨ E.passes s
  bare : ¬E.passes id → n.IsBare → m.removed = n.removed ∧ m.IsBare

variable {E : Extent} {id : NodeId} {n m k : Node}

theorem not_isBare (h : ∀ index, n.kind ≠ .parameter index) : ¬n.IsBare :=
  fun hn => hn.1.elim h

theorem not_isBare_of_isGuard (h : n.kind.isGuard = true) : ¬n.IsBare :=
  not_isBare fun index hk => by simp [hk, Kind.isGuard] at h

theorem dependencies_eq_nil :
    n.dependencies = [] ↔ n.inputs = [] ∧ n.anchor = none ∧ n.guard = none ∧ n.memory = none := by
  simp [dependencies]

namespace MayBecome

theorem refl (E : Extent) (id : NodeId) (n : Node) : n.MayBecome E id n :=
  ⟨fun h => h, rfl, rfl, .same _, fun _ _ => Or.inl, fun _ h => ⟨rfl, h⟩⟩

theorem trans (h : n.MayBecome E id m) (h' : m.MayBecome E id k) : n.MayBecome E id k := by
  refine ⟨fun hn => h'.removed (h.removed hn), h'.stamp.trans h.stamp, h'.synthetic.trans h.synthetic,
    h.kind.trans h'.kind, fun hk s hs => ?_, fun hid hn => ?_⟩
  · rcases h'.successors hk s hs with hs | hs
    · exact h.successors (eq_false_of_ne_true fun hm => by simp [h'.removed hm] at hk) s hs
    · exact Or.inr hs
  · obtain ⟨hm, hbare⟩ := h.bare hid hn
    obtain ⟨hk, hbare⟩ := h'.bare hid hbare
    exact ⟨hk.trans hm, hbare⟩

/-- The node stays what it is, and control leads on from it to nothing new. -/
theorem of_update (hkind : m.kind = n.kind) (hstamp : m.stamp = n.stamp) (hsynthetic : m.synthetic = n.synthetic)
    (hremoved : m.removed = n.removed) (hsuccessors : ∀ s ∈ m.successors, s ∈ n.successors ∨ E.passes s)
    (hbare : n.dependencies = [] → m.dependencies = []) : n.MayBecome E id m := by
  refine ⟨fun h => hremoved.trans h, hstamp, hsynthetic, ?_, fun _ => hsuccessors, fun _ h => ⟨hremoved, ?_, hbare h.2⟩⟩
  · rw [hkind]
    exact .same _
  · rw [hkind]
    exact h.1

theorem setKind {kind : Kind} {inputs : List NodeId} (hkind : n.kind.MayBecome kind)
    (hne : ∀ index, kind ≠ .parameter index) : n.MayBecome E id { n with kind, inputs } := by
  refine ⟨fun h => h, rfl, rfl, hkind, fun _ _ => Or.inl, ?_⟩
  rintro _ ⟨⟨index, hn⟩, _⟩
  exact absurd (hn ▸ hkind).of_parameter (hne index)

theorem cleared (h : n.removed = false → E.passes id ∨ ¬n.IsBare) : n.MayBecome E id n.cleared := by
  refine ⟨fun _ => rfl, rfl, rfl, .same _, by simp [Node.cleared], fun hid hbare => ⟨?_, hbare.1, rfl⟩⟩
  cases hr : n.removed with
  | true => rfl
  | false => exact ((h hr).resolve_left hid hbare).elim

end MayBecome

end Node

namespace Graph

/-- The graph `h` is what became of `g`. -/
structure MayBecome (E : Extent) (g h : Graph) : Prop where
  classes : h.classes = g.classes
  slot : ∀ (id : NodeId) (n : Node), g.nodes[id]? = some n → ∃ m, h.nodes[id]? = some m ∧ n.MayBecome E id m
  fresh : ∀ (id : NodeId) (m : Node), h.nodes[id]? = some m → g.capacity ≤ id → m.synthetic = true ∧
    (∃ reason, E.reasons reason ∧ m.kind = .deoptimize reason) ∧ (m.removed = false → ∀ s ∈ m.successors, E.passes s)

variable {E : Extent} {g h k : Graph} {id : NodeId} {n m : Node}

theorem slot_eq_none_iff : g.nodes[id]? = none ↔ g.capacity ≤ id := by
  simp [capacity]

theorem slot_lt (hn : g.nodes[id]? = some n) : id < g.capacity := by
  by_contra hle
  rw [slot_eq_none_iff.mpr (Nat.not_lt.mp hle)] at hn
  cases hn

theorem exists_slot (hid : id < g.capacity) : ∃ n, g.nodes[id]? = some n := by
  cases hn : g.nodes[id]? with
  | none => exact absurd (slot_eq_none_iff.mp hn) (Nat.not_le.mpr hid)
  | some n => exact ⟨n, rfl⟩

theorem get?_eq_some_iff : g.get? id = some n ↔ g.nodes[id]? = some n ∧ n.removed = false := by
  simp [get?, Option.filter_eq_some_iff]

theorem capacity_add (g : Graph) (n : Node) : (g.add n).2.capacity = g.capacity + 1 := by
  simp [capacity, add]

theorem slot_mapLive (g : Graph) (f : Node → Node) (id : NodeId) :
    (g.mapLive f).nodes[id]? = g.nodes[id]?.map fun n => if n.removed then n else f n := by
  simp [mapLive]

namespace MayBecome

theorem refl (E : Extent) (g : Graph) : g.MayBecome E g := by
  refine ⟨rfl, fun id n hn => ⟨n, hn, .refl E id n⟩, fun id m hm hid => ?_⟩
  exact absurd (slot_lt hm) (Nat.not_lt.mpr hid)

theorem capacity_le (A : g.MayBecome E h) : g.capacity ≤ h.capacity := by
  by_contra hlt
  obtain ⟨n, hn⟩ := exists_slot (Nat.not_le.mp hlt)
  obtain ⟨m, hm, _⟩ := A.slot _ n hn
  exact absurd (slot_lt hm) (Nat.lt_irrefl _)

theorem trans (A : g.MayBecome E h) (B : h.MayBecome E k) : g.MayBecome E k := by
  refine ⟨B.classes.trans A.classes, fun id n hn => ?_, fun id l hl hid => ?_⟩
  · obtain ⟨m, hm, hnm⟩ := A.slot id n hn
    obtain ⟨l, hl, hml⟩ := B.slot id m hm
    exact ⟨l, hl, hnm.trans hml⟩
  · by_cases hlt : id < h.capacity
    · obtain ⟨m, hm⟩ := exists_slot hlt
      obtain ⟨hsynthetic, ⟨reason, hreason, hkind⟩, hsuccessors⟩ := A.fresh id m hm hid
      obtain ⟨l', hl', hml⟩ := B.slot id m hm
      cases hl.symm.trans hl'
      refine ⟨hml.synthetic.trans hsynthetic, ⟨reason, hreason, (hkind ▸ hml.kind).of_deoptimize⟩, fun hlive s hs => ?_⟩
      rcases hml.successors hlive s hs with hs | hs
      · exact hsuccessors (eq_false_of_ne_true fun hm => by simp [hml.removed hm] at hlive) s hs
      · exact hs
    · exact B.fresh id l hl (Nat.not_lt.mp hlt)

/-- A live node was alive before, or it is new. -/
theorem live (A : g.MayBecome E h) (hm : h.get? id = some m) (hid : id < g.capacity) :
    ∃ n, g.get? id = some n ∧ n.MayBecome E id m := by
  obtain ⟨hslot, hlive⟩ := get?_eq_some_iff.mp hm
  obtain ⟨n, hn⟩ := exists_slot hid
  obtain ⟨m', hm', hnm⟩ := A.slot id n hn
  cases hslot.symm.trans hm'
  exact ⟨n, get?_eq_some_iff.mpr ⟨hn, eq_false_of_ne_true fun hr => by simp [hnm.removed hr] at hlive⟩, hnm⟩

theorem guard (A : g.MayBecome E h) {negated : Bool} {reason : Reason} (hm : h.get? id = some m)
    (hk : m.kind = .guard negated reason) : ∃ n negated', g.get? id = some n ∧ n.kind = .guard negated' reason := by
  by_cases hid : id < g.capacity
  · obtain ⟨n, hn, hnm⟩ := A.live hm hid
    obtain ⟨negated', hk'⟩ := (hk ▸ hnm.kind).of_guard
    exact ⟨n, negated', hn, hk'⟩
  · obtain ⟨_, ⟨_, _, hk'⟩, _⟩ := A.fresh id m (slot_of_get? hm) (Nat.not_lt.mp hid)
    cases hk.symm.trans hk'

theorem not_back_of_removed (A : g.MayBecome E h) (hn : g.get? id = some n) (hgone : h.get? id = none) :
    ¬h.MayBecome E g := by
  intro B
  obtain ⟨hslot, hlive⟩ := get?_eq_some_iff.mp hn
  obtain ⟨m, hm, _⟩ := A.slot id n hslot
  obtain ⟨n', hn', hmn⟩ := B.slot id m hm
  cases hslot.symm.trans hn'
  have hm' : m.removed = true := by
    by_contra hr
    rw [get?_eq_some_iff.mpr ⟨hm, eq_false_of_ne_true hr⟩] at hgone
    cases hgone
  simp [hmn.removed hm'] at hlive

theorem not_back_of_capacity (hlt : g.capacity < h.capacity) : ¬h.MayBecome E g :=
  fun B => absurd B.capacity_le (Nat.not_le.mpr hlt)

theorem not_back_of_kind (hn : g.nodes[id]? = some n) (hm : h.nodes[id]? = some m) (hk : ¬m.kind.MayBecome n.kind) :
    ¬h.MayBecome E g := by
  intro B
  obtain ⟨n', hn', hmn⟩ := B.slot id m hm
  cases hn.symm.trans hn'
  exact hk hmn.kind

end MayBecome

namespace MayBecome

theorem of_slots (hclasses : h.classes = g.classes) (hcapacity : h.capacity = g.capacity)
    (hslot : ∀ (id : NodeId) (n : Node), g.nodes[id]? = some n → ∃ m, h.nodes[id]? = some m ∧ n.MayBecome E id m) :
    g.MayBecome E h := by
  refine ⟨hclasses, hslot, fun id m hm hid => ?_⟩
  exact absurd (slot_lt hm) (Nat.not_lt.mpr (hcapacity ▸ hid))

theorem modify {f : Node → Node} (hf : ∀ n, g.nodes[id]? = some n → n.MayBecome E id (f n)) :
    g.MayBecome E (g.modify id f) := by
  refine of_slots rfl (capacity_modify ..) fun j n hn => ?_
  rw [slot_modify, hn]
  by_cases hj : j = id
  · subst hj
    exact ⟨f n, by simp, hf n hn⟩
  · exact ⟨n, by simp [hj], .refl E j n⟩

theorem mapLive {f : Node → Node} (hf : ∀ (id : NodeId) (n : Node), n.MayBecome E id (f n)) :
    g.MayBecome E (g.mapLive f) := by
  refine of_slots rfl (capacity_mapLive ..) fun id n hn => ?_
  rw [slot_mapLive, hn]
  refine ⟨_, rfl, ?_⟩
  dsimp only
  split
  · exact .refl E id n
  · exact hf id n

theorem addTrap {reason : Reason} (hreason : E.reasons reason) :
    g.MayBecome E (g.add { kind := .deoptimize reason, synthetic := true }).2 := by
  refine ⟨rfl, fun id n hn => ⟨n, ?_, .refl E id n⟩, fun id m hm hid => ?_⟩
  · have hne : id ≠ g.nodes.size := Nat.ne_of_lt (slot_lt hn)
    rw [add, Array.getElem?_push, if_neg hne]
    exact hn
  · rw [add, Array.getElem?_push] at hm
    split at hm
    · cases hm
      exact ⟨rfl, ⟨reason, hreason, rfl⟩, by simp⟩
    · exact absurd (slot_lt hm) (Nat.not_lt.mpr hid)

/-- Anything may go but a bare parameter that control cannot lead to. -/
theorem delete (h : ∀ n, g.get? id = some n → E.passes id ∨ ¬n.IsBare) : g.MayBecome E (g.delete id) :=
  modify fun n hn => .cleared fun hr => h n (get?_eq_some_iff.mpr ⟨hn, hr⟩)

theorem foldl_delete {ids : List NodeId} (h : ∀ id ∈ ids, ∀ n, g.get? id = some n → E.passes id ∨ ¬n.IsBare) :
    g.MayBecome E (ids.foldl Graph.delete g) := by
  induction ids generalizing g with
  | nil => exact .refl E g
  | cons id ids ih =>
    obtain ⟨hid, hids⟩ := List.forall_mem_cons.mp h
    exact (delete hid).trans (ih fun j hj n hn => hids j hj n (get?_of_delete hn))

theorem replaceGuard (g : Graph) (old : NodeId) (new : Option NodeId) : g.MayBecome E (g.replaceGuard old new) := by
  refine mapLive fun id n => ?_
  split
  next hg => exact .of_update rfl rfl rfl rfl (fun _ => Or.inl) (by simp [Node.dependencies_eq_nil, hg])
  next => exact .refl E id n

theorem replaceMemory (g : Graph) (old new : NodeId) : g.MayBecome E (g.replaceMemory old new) := by
  refine mapLive fun id n => ?_
  split
  next hm => exact .of_update rfl rfl rfl rfl (fun _ => Or.inl) (by simp [Node.dependencies_eq_nil, hm])
  next => exact .refl E id n

theorem replaceInput (g : Graph) (old new : NodeId) : g.MayBecome E (g.replaceInput old new) :=
  mapLive fun id n => .of_update rfl rfl rfl rfl (fun _ => Or.inl) (by simp [Node.dependencies_eq_nil])

theorem setKind {kind : Kind} {inputs : List NodeId} (h : ∀ n, g.nodes[id]? = some n → n.kind.MayBecome kind)
    (hne : ∀ index, kind ≠ .parameter index) : g.MayBecome E (g.setKind id kind inputs) :=
  modify fun n hn => .setKind (h n hn) hne

variable {source target old new : NodeId} {index? : Option Nat}

theorem setSuccessors {f : Node → List NodeId} (hf : ∀ n, ∀ s ∈ f n, s ∈ n.successors ∨ E.passes s) :
    g.MayBecome E (g.modify id fun n => { n with successors := f n }) :=
  modify fun n _ => .of_update rfl rfl rfl rfl (hf n) fun h => h

theorem setPredecessors {f : Node → List NodeId} :
    g.MayBecome E (g.modify id fun n => { n with predecessors := f n }) :=
  modify fun _ _ => .of_update rfl rfl rfl rfl (fun _ => Or.inl) fun h => h

theorem dropPhiInput (g : Graph) (merge : NodeId) (index : Nat) : g.MayBecome E (g.dropPhiInput merge index) := by
  unfold Graph.dropPhiInput
  generalize g.phisOf merge = phis
  induction phis generalizing g with
  | nil => exact .refl E g
  | cons phi phis ih =>
    refine .trans (modify fun n _ => ?_) (ih _)
    exact .of_update rfl rfl rfl rfl (fun _ => Or.inl) (by simp +contextual [Node.dependencies_eq_nil])

theorem removeEdge (h : g.removeEdge source target = .ok (index?, k)) : g.MayBecome E k := by
  obtain ⟨n, _, ⟨_, _, rfl⟩ | ⟨_, _, rfl⟩⟩ := removeEdge_cases h
  · exact .trans (setSuccessors fun l s hs => Or.inl (List.mem_of_mem_erase hs)) setPredecessors
  · exact .refl E k

theorem detachEdge (h : g.detachEdge source target = .ok k) : g.MayBecome E k := by
  obtain ⟨⟨index?, g₁⟩, hremove, h⟩ := except_bind_ok.mp h
  have A : g.MayBecome E g₁ := removeEdge hremove
  cases index? with
  | none => exact Except.ok.inj h ▸ A
  | some index => exact Except.ok.inj h ▸ A.trans (dropPhiInput g₁ target index)

theorem addEdge (htarget : E.passes target) (h : g.addEdge source target = .ok k) : g.MayBecome E k := by
  obtain ⟨_, _, _, _, rfl⟩ := addEdge_cases h
  refine .trans (setSuccessors fun l s hs => ?_) setPredecessors
  rcases List.mem_append.mp hs with hs | hs
  · exact Or.inl hs
  · exact Or.inr (List.mem_singleton.mp hs ▸ htarget)

theorem redirectEdge (hnew : E.passes new) (h : g.redirectEdge source old new = .ok k) : g.MayBecome E k := by
  obtain ⟨_, _, position, _, _, _, rfl⟩ := redirectEdge_cases h
  have A : g.MayBecome E (g.setSuccessor source position new) := by
    refine setSuccessors fun n s hs => ?_
    rcases List.mem_or_eq_of_mem_set hs with hs | rfl
    · exact Or.inl hs
    · exact Or.inr hnew
  refine A.trans (.trans ?_ setPredecessors)
  cases g.predecessorIndex? source old with
  | none => exact setPredecessors
  | some index => exact .trans setPredecessors (dropPhiInput ..)

theorem deleteGuards {ids : List NodeId} (h : ∀ id ∈ ids, ∃ n, g.get? id = some n ∧ n.kind.isGuard = true) :
    g.MayBecome E (ids.foldl Graph.delete g) := by
  refine foldl_delete fun id hid n hn => Or.inr ?_
  obtain ⟨n', hn', hk⟩ := h id hid
  cases hn.symm.trans hn'
  exact Node.not_isBare_of_isGuard hk

theorem dropGuard (hn : g.get? id = some n) (hk : n.kind.isGuard = true) (new : NodeId) :
    g.MayBecome E ((g.replaceGuard id (some new)).delete id) := by
  refine (replaceGuard g id (some new)).trans (delete fun m hm => Or.inr (Node.not_isBare_of_isGuard ?_))
  rw [get?_replaceGuard, hn, Option.map_some] at hm
  obtain rfl := Option.some.inj hm
  exact hk

theorem moveTest {carrier weaker : NodeId} {negated negated' : Bool} {reason : Reason}
    (hn : g.get? carrier = some n) (hk : n.kind = .guard negated reason) (hm : g.get? weaker = some m)
    (hk' : m.kind = .guard negated' reason) (h : Walk.moveTest g carrier weaker = .ok k) : g.MayBecome E k := by
  obtain ⟨n', hn', h⟩ := except_bind_ok.mp h
  cases hn.symm.trans (node_eq_ok_iff.mp hn')
  obtain rfl := Except.ok.inj h
  have A : g.MayBecome E (g.setKind weaker n.kind n.inputs) := by
    refine setKind (fun l hl => ?_) (by simp [hk])
    cases (slot_of_get? hm).symm.trans hl
    rw [hk, hk']
    exact .guard ..
  have hcarrier : (g.setKind weaker n.kind n.inputs).get? carrier = some n := by
    rw [get?_setKind, hn, Option.map_some]
    split <;> rfl
  exact A.trans (dropGuard hcarrier (by rw [hk]; rfl) weaker)

theorem decide {value : Bool} (hn : g.get? id = some n) (hk : n.kind.MayBecome (.logicConstant value)) :
    g.MayBecome E (g.setKind id (.logicConstant value) []) := by
  refine setKind (fun m hm => ?_) (by simp)
  cases (slot_of_get? hn).symm.trans hm
  exact hk

theorem begins (A : g.MayBecome E h) (hn : g.get? id = some n) (hk : n.kind.MayBecome .begin) :
    ∀ m, h.nodes[id]? = some m → m.kind.MayBecome .begin := by
  intro m hm
  obtain ⟨m', hm', hnm⟩ := A.slot id n (slot_of_get? hn)
  cases hm.symm.trans hm'
  exact hk.begin_of_begin hnm.kind

theorem foldBranch {split : NodeId} {truth : Bool} {folded : FoldedBranch}
    (h : g.foldBranch split truth = .ok (folded, k)) : g.MayBecome E k := by
  obtain ⟨n, hn, h⟩ := except_bind_ok.mp h
  obtain ⟨_, hk, h⟩ := except_bind_ok.mp h
  have hk : n.kind = .branch := of_decide_eq_true (ensure_ok.mp hk)
  split at h
  next yes no _ =>
    obtain ⟨⟨index?, g₁⟩, hremove, h⟩ := except_bind_ok.mp h
    obtain ⟨-, rfl⟩ := Prod.mk.inj (Except.ok.inj h)
    have A : g.MayBecome E g₁ := removeEdge hremove
    exact A.trans (setKind (A.begins (node_eq_ok_iff.mp hn) (hk ▸ .branch)) (by simp))
  next => cases h

theorem strengthenGuard {anchor guard : NodeId} {reason : Reason} {s : Strengthened} (htrap : E.passes g.capacity)
    (hreason : E.reasons reason) (h : g.strengthenGuard anchor guard reason = .ok (s, k)) : g.MayBecome E k := by
  obtain ⟨g₁, hedge, hremoved, rfl⟩ := strengthenGuard_steps h
  have A : g.MayBecome E g₁ := by
    rcases hedge with ⟨old, hedge⟩ | hedge
    · exact (addTrap hreason).trans (redirectEdge htrap hedge)
    · exact (addTrap hreason).trans (addEdge htrap hedge)
  refine A.trans (deleteGuards fun id hid => ?_)
  rw [hremoved] at hid
  obtain ⟨m, hm, hk, _⟩ := mem_guardsAt.mp (List.mem_filter.mp hid).1
  exact ⟨m, hm, hk⟩

theorem not_back_of_foldBranch {split : NodeId} {truth : Bool} {folded : FoldedBranch}
    (h : g.foldBranch split truth = .ok (folded, k)) : ¬k.MayBecome E g := by
  obtain ⟨n, _, _, hn, hk, _, _, _, _, hget⟩ := foldBranch_ok h
  have hfolded := hget split
  rw [hn, Option.map_some] at hfolded
  refine not_back_of_kind (slot_of_get? hn) (slot_of_get? hfolded) ?_
  rw [hk]
  simpa using Kind.MayBecome.not_begin_branch

theorem not_back_of_strengthenGuard {anchor guard : NodeId} {reason : Reason} {s : Strengthened}
    (h : g.strengthenGuard anchor guard reason = .ok (s, k)) : ¬k.MayBecome E g := by
  refine not_back_of_capacity ?_
  obtain ⟨g₁, hedge, _, rfl⟩ := strengthenGuard_steps h
  have hcapacity : g₁.capacity = g.capacity + 1 := by
    rw [← capacity_add g { kind := .deoptimize reason, synthetic := true }]
    rcases hedge with ⟨old, hedge⟩ | hedge
    · obtain ⟨_, _, _, _, _, hcapacity, _⟩ := redirectEdge_ok hedge
      exact hcapacity
    · exact (addEdge_ok hedge).2.1
  rw [capacity_foldl_delete, hcapacity]
  exact Nat.lt_succ_self _

theorem resolve (hn : ∀ n, g.get? id = some n → n.kind = .phi) (value : NodeId) :
    g.MayBecome E ((g.replaceInput id value).delete id) := by
  refine (replaceInput g id value).trans (delete fun m hm => Or.inr (Node.not_isBare fun index hk => ?_))
  rw [get?_replaceInput] at hm
  obtain ⟨n, hn', rfl⟩ := Option.map_eq_some_iff.mp hm
  cases (hn n hn').symm.trans hk

theorem flatten (A : g.MayBecome E h) (hn : g.get? id = some n) (hk : n.kind.isMerge = true) (memory : NodeId) :
    g.MayBecome E ((h.replaceMemory id memory).modify id ({ · with kind := .begin })) := by
  have B : g.MayBecome E (h.replaceMemory id memory) := A.trans (replaceMemory h id memory)
  exact B.trans (modify fun m hm => .setKind (B.begins hn (.of_isMerge hk) m hm) (by simp))

end MayBecome

/-- The graph stays within what a run may touch: control leads to nothing else, and guards have no other
reasons. -/
structure Within (E : Extent) (g : Graph) : Prop where
  base : E.base ≤ g.capacity
  control : ∀ id n, g.get? id = some n → n.kind.isControl = true → E.passes id
  successors : ∀ id n, g.get? id = some n → E.passes id → ∀ s ∈ n.successors, E.passes s
  reasons : ∀ id n negated reason, g.get? id = some n → n.kind = .guard negated reason → E.reasons reason

theorem within_all (g : Graph) : g.Within .all :=
  ⟨Nat.zero_le _, fun _ _ _ _ => trivial, fun _ _ _ _ _ _ => trivial, fun _ _ _ _ _ _ => trivial⟩

theorem Within.passes_new (W : g.Within E) (hid : g.capacity ≤ id) : E.passes id :=
  E.passes_new id (Nat.le_trans W.base hid)

/-- An aged graph stays within the same bounds. -/
theorem MayBecome.within (A : g.MayBecome E h) (W : g.Within E) : h.Within E := by
  refine ⟨Nat.le_trans W.base A.capacity_le, fun id m hm hk => ?_, fun id m hm hid s hs => ?_,
    fun id m negated reason hm hk => ?_⟩
  · by_cases hlt : id < g.capacity
    · obtain ⟨n, hn, hnm⟩ := A.live hm hlt
      exact W.control id n hn (hnm.kind.isControl ▸ hk)
    · exact W.passes_new (Nat.not_lt.mp hlt)
  · by_cases hlt : id < g.capacity
    · obtain ⟨n, hn, hnm⟩ := A.live hm hlt
      exact (hnm.successors (not_removed hm) s hs).elim (W.successors id n hn hid s) fun h => h
    · exact (A.fresh id m (slot_of_get? hm) (Nat.not_lt.mp hlt)).2.2 (not_removed hm) s hs
  · obtain ⟨n, negated', hn, hk'⟩ := A.guard hm hk
    exact W.reasons id n negated' reason hn hk'

end Graph

end GuardElision
