import GuardElision.Cleanup.Changes
import GuardElision.Proofs.Attempt
import Mathlib.Data.List.Nodup
import Mathlib.Data.List.Sort

namespace GuardElision

theorem eq_nil_or_singleton {α : Type} {l : List α} (h : l.length ≤ 1) : l = [] ∨ ∃ a, l = [a] := by
  cases l with
  | nil => exact .inl rfl
  | cons a l =>
    obtain rfl : l = [] := List.length_eq_zero_iff.mp (Nat.le_zero.mp (Nat.le_of_succ_le_succ h))
    exact .inr ⟨a, rfl⟩

theorem eq_singleton_of_mem {α : Type} {l : List α} {a : α} (h : l.length ≤ 1) (ha : a ∈ l) : l = [a] := by
  obtain rfl | ⟨b, rfl⟩ := eq_nil_or_singleton h
  · cases ha
  · rw [List.mem_singleton.mp ha]

namespace Kind

theorem isControl_of_isGuard {k : Kind} (hk : k.isGuard = true) : k.isControl = false := by
  cases k <;> simp_all [isGuard, isControl]

theorem isGuard_of_isControl {k : Kind} (hk : k.isControl = true) : k.isGuard = false := by
  cases k <;> simp_all [isGuard, isControl]

theorem isControl_of_killsMemory {k : Kind} (hk : k.killsMemory = true) : k.isControl = true := by
  cases k <;> simp_all [killsMemory, isControl]

theorem isControl_of_isMerge {k : Kind} (hk : k.isMerge = true) : k.isControl = true := by
  cases k <;> simp_all [isMerge, isControl]

theorem isControl_of_isTerminal {k : Kind} (hk : k.isTerminal = true) : k.isControl = true := by
  cases k <;> simp_all [isTerminal, isControl]

theorem isControl_of_isAnchor {k : Kind} (hk : k.isAnchor = true) : k.isControl = true := by
  cases k <;> simp_all [isAnchor, isControl]

theorem isAnchor_of_isMerge {k : Kind} (hk : k.isMerge = true) : k.isAnchor = true := by
  cases k <;> simp_all [isMerge, isAnchor]

theorem isControl_of_isLogic {k : Kind} (hk : k.isLogic = true) : k.isControl = false := by
  cases k <;> simp_all [isLogic, isControl]

theorem isControl_of_isPure {k : Kind} (hk : k.isPure = true) : k.isControl = false := by
  cases k <;> simp_all [isPure, isControl]

theorem isGuard_of_isLogic {k : Kind} (hk : k.isLogic = true) : k.isGuard = false := by
  cases k <;> simp_all [isLogic, isGuard]

end Kind

namespace Graph

variable {g : Graph} {id j : NodeId} {n : Node}

theorem lt_capacity (h : g.get? id = some n) : id < g.capacity := by
  obtain ⟨hn, _⟩ := Option.filter_eq_some_iff.mp h
  exact (Array.getElem?_eq_some_iff.mp hn).1

theorem not_removed (h : g.get? id = some n) : n.removed = false := by
  obtain ⟨_, hn⟩ := Option.filter_eq_some_iff.mp h
  simpa using hn

theorem slot_of_get? (h : g.get? id = some n) : g.nodes[id]? = some n :=
  (Option.filter_eq_some_iff.mp h).1

theorem node_eq_ok_iff : g.node id = .ok n ↔ g.get? id = some n := by
  unfold node
  cases g.get? id <;> simp

theorem isLive_iff : g.isLive id = true ↔ ∃ n, g.get? id = some n := by
  simp [isLive, Option.isSome_iff_exists]

theorem kind?_eq_some_iff {k : Kind} : g.kind? id = some k ↔ ∃ n, g.get? id = some n ∧ n.kind = k := by
  simp [kind?, Option.map_eq_some_iff]

theorem isControl_of_get? {id : NodeId} {n : Node} (hn : g.get? id = some n) : g.isControl id = n.kind.isControl := by
  simp [isControl, kind?, hn]

theorem mem_select {p : Node → Bool} : id ∈ g.select p ↔ ∃ n, g.get? id = some n ∧ p n = true := by
  unfold select
  rw [List.mem_filter, List.mem_range, Option.any_eq_true]
  constructor
  · exact fun h => h.2
  · rintro ⟨n, hn, hp⟩
    exact ⟨lt_capacity hn, n, hn, hp⟩

theorem select_sorted (g : Graph) (p : Node → Bool) : (g.select p).Pairwise (· < ·) :=
  List.pairwise_lt_range.filter _

theorem mem_guardsAt {a : NodeId} :
    id ∈ g.guardsAt a ↔ ∃ n, g.get? id = some n ∧ n.kind.isGuard = true ∧ n.anchor = some a := by
  simp [guardsAt, mem_select]

theorem mem_phisOf {m : NodeId} :
    id ∈ g.phisOf m ↔ ∃ n, g.get? id = some n ∧ n.kind = .phi ∧ n.anchor = some m := by
  simp [phisOf, mem_select]

theorem mem_usages {d : NodeId} :
    id ∈ g.usages d ↔ ∃ n, g.get? id = some n ∧ d ∈ n.dependencies := by
  simp [usages, mem_select, Node.dependsOn]

theorem capacity_modify (g : Graph) (id : NodeId) (f : Node → Node) :
    (g.modify id f).capacity = g.capacity := by
  simp [capacity, modify]

theorem slot_modify (g : Graph) (id : NodeId) (f : Node → Node) (j : NodeId) :
    (g.modify id f).nodes[j]? = if j = id then g.nodes[j]?.map f else g.nodes[j]? := by
  simp only [modify, Array.getElem?_modify, eq_comm]

theorem get?_modify {f : Node → Node} (hf : ∀ n, (f n).removed = n.removed) (g : Graph) (id j : NodeId) :
    (g.modify id f).get? j = (g.get? j).map fun n => if j = id then f n else n := by
  unfold get?
  rw [slot_modify]
  by_cases hj : j = id
  · subst hj
    simp only [↓reduceIte]
    cases hn : g.nodes[j]? with
    | none => rfl
    | some n => cases hr : n.removed <;> simp [Option.filter, hf, hr]
  · simp [hj]

theorem get?_modify_of_ne (g : Graph) (f : Node → Node) (hj : j ≠ id) :
    (g.modify id f).get? j = g.get? j := by
  unfold get?
  rw [slot_modify]
  simp [hj]

theorem get?_delete (g : Graph) (id j : NodeId) :
    (g.delete id).get? j = if j = id then none else g.get? j := by
  by_cases hj : j = id
  · subst hj
    unfold get? delete
    rw [slot_modify]
    simp only [↓reduceIte]
    cases g.nodes[j]? <;> simp [Node.cleared, Option.filter]
  · simp [hj, delete, get?_modify_of_ne]

theorem get?_of_delete {g : Graph} {x y : NodeId} {n : Node} (hn : (g.delete y).get? x = some n) : g.get? x = some n := by
  rw [get?_delete] at hn
  split at hn
  · cases hn
  · exact hn

theorem capacity_delete (g : Graph) (id : NodeId) : (g.delete id).capacity = g.capacity :=
  capacity_modify g id _

theorem get?_mapLive {f : Node → Node} (hf : ∀ n, (f n).removed = n.removed) (g : Graph) (j : NodeId) :
    (g.mapLive f).get? j = (g.get? j).map f := by
  unfold get? mapLive
  rw [Array.getElem?_map]
  cases hn : g.nodes[j]? with
  | none => rfl
  | some n => cases hr : n.removed <;> simp [Option.filter, hf, hr]

theorem capacity_mapLive (g : Graph) (f : Node → Node) : (g.mapLive f).capacity = g.capacity := by
  simp [capacity, mapLive]

theorem get?_setKind (g : Graph) (id j : NodeId) (kind : Kind) (inputs : List NodeId) :
    (g.setKind id kind inputs).get? j =
      (g.get? j).map fun n => if j = id then { n with kind, inputs } else n :=
  get?_modify (by simp) g id j

theorem get?_replaceInput (g : Graph) (old new j : NodeId) :
    (g.replaceInput old new).get? j =
      (g.get? j).map fun n => { n with inputs := n.inputs.map fun i => if i = old then new else i } :=
  get?_mapLive (by simp) g j

theorem get?_replaceGuard (g : Graph) (old : NodeId) (new : Option NodeId) (j : NodeId) :
    (g.replaceGuard old new).get? j =
      (g.get? j).map fun n => { n with guard := if n.guard = some old then new else n.guard } := by
  rw [replaceGuard, get?_mapLive]
  · congr 1
    funext n
    split <;> simp [*]
  · intro n
    split <;> rfl

theorem get?_replaceMemory (g : Graph) (old new j : NodeId) :
    (g.replaceMemory old new).get? j =
      (g.get? j).map fun n => { n with memory := if n.memory = some old then some new else n.memory } := by
  rw [replaceMemory, get?_mapLive]
  · congr 1
    funext n
    split <;> simp [*]
  · intro n
    split <;> rfl

theorem get?_add (g : Graph) (n : Node) (hn : n.removed = false) (j : NodeId) :
    (g.add n).2.get? j = if j = g.capacity then some n else g.get? j := by
  unfold get? add capacity
  rw [Array.getElem?_push]
  split <;> simp [*, Option.filter]

theorem get?_capacity (g : Graph) : g.get? g.capacity = none := by
  by_contra h
  obtain ⟨n, hn⟩ := Option.ne_none_iff_exists'.mp h
  exact absurd (lt_capacity hn) (Nat.lt_irrefl _)

theorem get?_foldl_delete (ids : List NodeId) (g : Graph) (j : NodeId) :
    (ids.foldl delete g).get? j = if j ∈ ids then none else g.get? j := by
  induction ids generalizing g with
  | nil => simp
  | cons id ids ih =>
    rw [List.foldl_cons, ih, get?_delete]
    by_cases hj : j ∈ ids
    · simp [hj]
    · by_cases he : j = id <;> simp [hj, he]

theorem capacity_foldl_delete (ids : List NodeId) (g : Graph) :
    (ids.foldl delete g).capacity = g.capacity := by
  induction ids generalizing g with
  | nil => rfl
  | cons id ids ih => rw [List.foldl_cons, ih, capacity_delete]

theorem classes_foldl_delete (ids : List NodeId) (g : Graph) :
    (ids.foldl delete g).classes = g.classes := by
  induction ids generalizing g with
  | nil => rfl
  | cons id ids ih => rw [List.foldl_cons, ih]; rfl

theorem get?_foldl_modify {f : Node → Node} (hf : ∀ n, (f n).removed = n.removed) {ids : List NodeId}
    (hnd : ids.Nodup) (g : Graph) (j : NodeId) :
    (ids.foldl (fun g id => g.modify id f) g).get? j =
      (g.get? j).map fun n => if j ∈ ids then f n else n := by
  induction ids generalizing g with
  | nil => simp
  | cons id ids ih =>
    obtain ⟨hid, hnd⟩ := List.nodup_cons.mp hnd
    rw [List.foldl_cons, ih hnd, get?_modify hf, Option.map_map]
    congr 1
    funext n
    by_cases he : j = id
    · subst he
      simp [hid]
    · simp [he]

theorem get?_dropPhiInput (g : Graph) (merge : NodeId) (index : Nat) (j : NodeId) :
    (g.dropPhiInput merge index).get? j = (g.get? j).map fun n =>
      { n with inputs :=
          if n.kind = .phi ∧ n.anchor = some merge then n.inputs.eraseIdx index else n.inputs } := by
  have hnd : (g.phisOf merge).Nodup := (select_sorted g _).imp fun h => Nat.ne_of_lt h
  rw [dropPhiInput, get?_foldl_modify (f := fun n => { n with inputs := n.inputs.eraseIdx index })
    (by simp) hnd]
  cases hn : g.get? j with
  | none => rfl
  | some n =>
    by_cases hphi : n.kind = .phi ∧ n.anchor = some merge
    · have hm : j ∈ g.phisOf merge := mem_phisOf.mpr ⟨n, hn, hphi⟩
      simp [hm, hphi]
    · have hm : j ∉ g.phisOf merge := by
        intro hm
        obtain ⟨n', hn', hp⟩ := mem_phisOf.mp hm
        cases hn.symm.trans hn'
        exact hphi hp
      simp [hm, hphi]

theorem capacity_dropPhiInput (g : Graph) (merge : NodeId) (index : Nat) :
    (g.dropPhiInput merge index).capacity = g.capacity := by
  unfold dropPhiInput
  generalize g.phisOf merge = ids
  induction ids generalizing g with
  | nil => rfl
  | cons id ids ih => rw [List.foldl_cons, ih, capacity_modify]

theorem classes_dropPhiInput (g : Graph) (merge : NodeId) (index : Nat) :
    (g.dropPhiInput merge index).classes = g.classes := by
  unfold dropPhiInput
  generalize g.phisOf merge = ids
  induction ids generalizing g with
  | nil => rfl
  | cons id ids ih => rw [List.foldl_cons, ih]; rfl

/-- A node once the edge from `source` to `target` is gone, which stood at position `index?` among the
predecessors of its target. -/
def withoutEdge (source target : NodeId) (index? : Option Nat) (id : NodeId) (n : Node) : Node :=
  { n with
    successors := if id = source then n.successors.erase target else n.successors
    predecessors := if id = target then n.predecessors.erase source else n.predecessors
    inputs := match index? with
      | some index =>
        if n.kind = .phi ∧ n.anchor = some target then n.inputs.eraseIdx index else n.inputs
      | none => n.inputs }

/-- The inputs of a phi of the target lose the one that belongs to the edge. -/
theorem inputs_withoutEdge_phi {source target : NodeId} (hk : n.kind = .phi) (ha : n.anchor = some target)
    (index : Nat) : (withoutEdge source target (some index) id n).inputs = n.inputs.eraseIdx index := by
  simp [withoutEdge, hk, ha]

theorem inputs_withoutEdge {source target : NodeId} {index? : Option Nat}
    (h : n.kind ≠ .phi ∨ n.anchor ≠ some target ∨ index? = none) :
    (withoutEdge source target index? id n).inputs = n.inputs := by
  cases index? with
  | none => rfl
  | some index =>
    refine if_neg ?_
    rintro ⟨hk, ha⟩
    rcases h with h | h | h
    · exact h hk
    · exact h ha
    · cases h

theorem predecessorIndex?_of_get? (h : g.get? id = some n) (source : NodeId) :
    g.predecessorIndex? source id = n.predecessors.idxOf? source := by
  simp [predecessorIndex?, slot_of_get? h]

theorem predecessorIndex?_modify {f : Node → Node} (hf : ∀ n, (f n).predecessors = n.predecessors) (g : Graph)
    (id source target : NodeId) : (g.modify id f).predecessorIndex? source target = g.predecessorIndex? source target := by
  unfold predecessorIndex?
  rw [slot_modify]
  split
  · cases g.nodes[target]? <;> simp [hf]
  · rfl

theorem predecessorIndex?_of_mem (h : g.get? id = some n) {source : NodeId} (hs : source ∈ n.predecessors) :
    g.predecessorIndex? source id = some (n.predecessors.idxOf source) := by
  rw [predecessorIndex?_of_get? h]
  generalize n.predecessors = sources at hs ⊢
  induction sources with
  | nil => simp at hs
  | cons p ps ih =>
    simp only [List.idxOf?_cons, List.idxOf_cons]
    grind

theorem fetch_of_get? (hn : g.get? id = some n) : fetch id g = .ok n g := by
  simp [fetch, Attempt.ask, node, hn]

theorem fetch_of_none (hn : g.get? id = none) : fetch id g = .error (.invalidNode id) g := by
  simp [fetch, Attempt.ask, node, hn]

theorem edit_of_get? (hn : g.get? id = some n) (f : Node → Node) : edit id f g = .ok () (g.modify id f) := by
  rw [edit, Attempt.bind_of_ok (fetch_of_get? hn)]
  rfl

theorem edit_of_none (hn : g.get? id = none) (f : Node → Node) : edit id f g = .error (.invalidNode id) g := by
  rw [edit, Attempt.bind_of_error (fetch_of_none hn)]

section Link

variable {source target : NodeId} {m : Node}

theorem link_of_get? (hn : g.get? source = some n) (hm : g.get? target = some m) :
    link source target g = .ok ()
      ((g.modify source fun n => { n with successors := n.successors ++ [target] }).modify target fun n =>
        { n with predecessors := n.predecessors ++ [source] }) := by
  have hstill := get?_modify (f := fun n => { n with successors := n.successors ++ [target] }) (fun _ => rfl) g
    source target
  rw [hm, Option.map_some] at hstill
  rw [link, Attempt.bind_of_ok (fetch_of_get? hm), Attempt.bind_of_ok (edit_of_get? hn _), edit_of_get? hstill]

theorem link_of_none (hm : g.get? target = none) : link source target g = .error (.invalidNode target) g := by
  rw [link, Attempt.bind_of_error (fetch_of_none hm)]

theorem link_of_source_none (hn : g.get? source = none) (hm : g.get? target = some m) :
    link source target g = .error (.invalidNode source) g := by
  rw [link, Attempt.bind_of_ok (fetch_of_get? hm), Attempt.bind_of_error (edit_of_none hn _)]

theorem unlink_of_mem (hn : g.get? source = some n) (ht : target ∈ n.successors) :
    unlink source target g = .ok (g.predecessorIndex? source target)
      ((g.modify source fun n => { n with successors := n.successors.erase target }).dropPredecessor source
        target) := by
  have hindex := predecessorIndex?_modify (f := fun n => { n with successors := n.successors.erase target })
    (fun _ => rfl) g source source target
  rw [unlink, Attempt.bind_of_ok (fetch_of_get? hn), if_pos (by simpa using ht), ← hindex]
  rfl

theorem unlink_of_not_mem (hn : g.get? source = some n) (ht : target ∉ n.successors) :
    unlink source target g = .ok none g := by
  rw [unlink, Attempt.bind_of_ok (fetch_of_get? hn), if_neg (by simpa using ht)]
  rfl

theorem unlink_of_none (hn : g.get? source = none) : unlink source target g = .error (.invalidNode source) g := by
  rw [unlink, Attempt.bind_of_error (fetch_of_none hn)]

theorem link_error {e : Fault} {g' : Graph} (h : link source target g = .error e g') :
    g' = g ∧ ∃ id, e = .invalidNode id := by
  cases hm : g.get? target with
  | none =>
    cases (link_of_none hm).symm.trans h
    exact ⟨rfl, _, rfl⟩
  | some m =>
    cases hn : g.get? source with
    | none =>
      cases (link_of_source_none hn hm).symm.trans h
      exact ⟨rfl, _, rfl⟩
    | some n => cases (link_of_get? hn hm).symm.trans h

theorem unlink_error {e : Fault} {g' : Graph} (h : unlink source target g = .error e g') :
    g' = g ∧ ∃ id, e = .invalidNode id := by
  cases hn : g.get? source with
  | none =>
    cases (unlink_of_none hn).symm.trans h
    exact ⟨rfl, _, rfl⟩
  | some n =>
    by_cases ht : target ∈ n.successors
    · cases (unlink_of_mem hn ht).symm.trans h
    · cases (unlink_of_not_mem hn ht).symm.trans h

end Link

section Relink

variable {source old new : NodeId} {m : Node}

/-- The graph once the edge at a position among the successors of `source` leads from `old` to `new`. -/
def redirected (g : Graph) (source old new : NodeId) (position : Nat) : Graph :=
  let moved := (g.setSuccessor source position new).dropPredecessor source old
  ((g.predecessorIndex? source old).elim moved (moved.dropPhiInput old)).modify new fun n =>
    { n with predecessors := n.predecessors ++ [source] }

theorem get?_redirected (g : Graph) (source old new : NodeId) (position : Nat) (j : NodeId) :
    (g.redirected source old new position).get? j = (g.get? j).map fun n =>
      let w := withoutEdge source old (g.predecessorIndex? source old) j n
      { w with
        successors := if j = source then n.successors.set position new else n.successors
        predecessors := if j = new then w.predecessors ++ [source] else w.predecessors } := by
  unfold redirected setSuccessor dropPredecessor
  rw [get?_modify (by simp)]
  cases g.predecessorIndex? source old with
  | none =>
    rw [Option.elim_none, get?_modify (by simp), get?_modify (by simp), Option.map_map, Option.map_map]
    congr 1
    funext n
    simp only [Function.comp_apply, withoutEdge]
    split_ifs <;> rfl
  | some i =>
    rw [Option.elim_some, get?_dropPhiInput, get?_modify (by simp), get?_modify (by simp), Option.map_map,
      Option.map_map, Option.map_map]
    congr 1
    funext n
    simp only [Function.comp_apply, withoutEdge]
    split_ifs <;> simp_all

theorem classes_redirected (g : Graph) (source old new : NodeId) (position : Nat) :
    (g.redirected source old new position).classes = g.classes := by
  have helim : ∀ h : Graph, ((g.predecessorIndex? source old).elim h (h.dropPhiInput old)).classes = h.classes := by
    intro h
    cases g.predecessorIndex? source old with
    | none => rfl
    | some i => exact classes_dropPhiInput h old i
  exact helim ((g.setSuccessor source position new).dropPredecessor source old)

theorem capacity_redirected (g : Graph) (source old new : NodeId) (position : Nat) :
    (g.redirected source old new position).capacity = g.capacity := by
  unfold redirected
  cases g.predecessorIndex? source old with
  | none => simp [capacity_modify, setSuccessor, dropPredecessor]
  | some i => simp [capacity_modify, setSuccessor, dropPredecessor, capacity_dropPhiInput]

theorem relink_of_idxOf? (hm : g.get? new = some m) (hn : g.get? source = some n) {position : Nat}
    (hp : n.successors.idxOf? old = some position) :
    relink source old new g = .ok () (g.redirected source old new position) := by
  have hindex : (g.setSuccessor source position new).predecessorIndex? source old = g.predecessorIndex? source old := by
    rw [setSuccessor, predecessorIndex?_modify (by simp)]
  rw [relink, Attempt.bind_of_ok (fetch_of_get? hm), Attempt.bind_of_ok (fetch_of_get? hn)]
  simp only [hp]
  rw [Attempt.bind_of_ok (x := Attempt.update _) rfl, Attempt.bind_of_ok (x := get) rfl,
    Attempt.bind_of_ok (x := Attempt.update _) rfl, hindex]
  have hmoved : ∃ k, ((g.setSuccessor source position new).dropPredecessor source old).get? new = some k := by
    rw [dropPredecessor, setSuccessor, get?_modify (by simp), get?_modify (by simp), hm]
    exact ⟨_, rfl⟩
  obtain ⟨k, hk⟩ := hmoved
  unfold redirected
  cases g.predecessorIndex? source old with
  | none =>
    rw [Attempt.bind_of_ok (x := Option.forM none _) rfl, edit_of_get? hk]
    rfl
  | some index =>
    have hdropped := get?_dropPhiInput ((g.setSuccessor source position new).dropPredecessor source old) old index new
    rw [hk, Option.map_some] at hdropped
    rw [Attempt.bind_of_ok (x := Option.forM (some index) _) rfl, edit_of_get? hdropped]
    rfl

theorem relink_of_none (hm : g.get? new = none) : relink source old new g = .error (.invalidNode new) g := by
  rw [relink, Attempt.bind_of_error (fetch_of_none hm)]

theorem relink_of_source_none (hm : g.get? new = some m) (hn : g.get? source = none) :
    relink source old new g = .error (.invalidNode source) g := by
  rw [relink, Attempt.bind_of_ok (fetch_of_get? hm), Attempt.bind_of_error (fetch_of_none hn)]

theorem relink_of_not_mem (hm : g.get? new = some m) (hn : g.get? source = some n) (hold : old ∉ n.successors) :
    relink source old new g = .error (.internal (.notSuccessor old source)) g := by
  have hnone : n.successors.idxOf? old = none := List.idxOf?_eq_none_iff.mpr hold
  rw [relink, Attempt.bind_of_ok (fetch_of_get? hm), Attempt.bind_of_ok (fetch_of_get? hn)]
  simp only [hnone]
  rfl

theorem relink_error {e : Fault} {g' : Graph} (h : relink source old new g = .error e g') :
    g' = g ∧ ((∃ id, e = .invalidNode id) ∨ e = .internal (.notSuccessor old source)) := by
  cases hm : g.get? new with
  | none =>
    cases (relink_of_none hm).symm.trans h
    exact ⟨rfl, Or.inl ⟨_, rfl⟩⟩
  | some m =>
    cases hn : g.get? source with
    | none =>
      cases (relink_of_source_none hm hn).symm.trans h
      exact ⟨rfl, Or.inl ⟨_, rfl⟩⟩
    | some n =>
      cases hp : n.successors.idxOf? old with
      | none =>
        cases (relink_of_not_mem hm hn (List.idxOf?_eq_none_iff.mp hp)).symm.trans h
        exact ⟨rfl, Or.inr rfl⟩
      | some position => cases (relink_of_idxOf? hm hn hp).symm.trans h

end Relink

theorem removeEdge_cases {source target : NodeId} {index? : Option Nat} {g' : Graph}
    (h : g.removeEdge source target = .ok (index?, g')) :
    ∃ n, g.get? source = some n ∧
      (target ∈ n.successors ∧ index? = g.predecessorIndex? source target ∧
        g' = (g.modify source fun n => { n with successors := n.successors.erase target }).dropPredecessor source
          target ∨
      target ∉ n.successors ∧ index? = none ∧ g' = g) := by
  have h := Attempt.finalWith_ok.mp h
  cases hn : g.get? source with
  | none => cases (unlink_of_none hn).symm.trans h
  | some n =>
    by_cases ht : target ∈ n.successors
    · cases (unlink_of_mem hn ht).symm.trans h
      exact ⟨n, rfl, Or.inl ⟨ht, rfl, rfl⟩⟩
    · cases (unlink_of_not_mem hn ht).symm.trans h
      exact ⟨n, rfl, Or.inr ⟨ht, rfl, rfl⟩⟩

/-- An edge is taken out at both ends, or there was none. -/
theorem removeEdge_ok {source target : NodeId} {index? : Option Nat} {g' : Graph}
    (h : g.removeEdge source target = .ok (index?, g')) :
    ∃ n, g.get? source = some n ∧ g'.classes = g.classes ∧ g'.capacity = g.capacity ∧
      (target ∈ n.successors ∧ index? = g.predecessorIndex? source target ∧
        (∀ j, g'.get? j = (g.get? j).map (withoutEdge source target none j)) ∨
      target ∉ n.successors ∧ index? = none ∧ g' = g) := by
  obtain ⟨n, hn, ⟨ht, hi, rfl⟩ | ⟨ht, hi, rfl⟩⟩ := removeEdge_cases h
  · refine ⟨n, hn, rfl, by simp [dropPredecessor, capacity_modify], Or.inl ⟨ht, hi, fun j => ?_⟩⟩
    rw [dropPredecessor, get?_modify (by simp), get?_modify (by simp), Option.map_map]
    congr 1
    funext m
    simp only [withoutEdge, Function.comp_apply]
    split_ifs <;> rfl
  · exact ⟨n, hn, rfl, rfl, Or.inr ⟨ht, hi, rfl⟩⟩

theorem detachEdge_ok {source target : NodeId} {g' : Graph} (h : g.detachEdge source target = .ok g') :
    ∃ n, g.get? source = some n ∧ g'.classes = g.classes ∧ g'.capacity = g.capacity ∧
      (target ∈ n.successors ∧
        (∀ j, g'.get? j = (g.get? j).map (withoutEdge source target (g.predecessorIndex? source target) j)) ∨
      target ∉ n.successors ∧ g' = g) := by
  unfold detachEdge at h
  cases hr : g.removeEdge source target with
  | error e => simp [hr, bind, Except.bind] at h
  | ok r =>
    obtain ⟨index?, g₁⟩ := r
    simp only [hr, bind, Except.bind] at h
    obtain ⟨n, hn, hclasses, hcap, ⟨hm, hi, hget⟩ | ⟨hm, hi, hg⟩⟩ := removeEdge_ok hr
    · cases index? with
      | none =>
        simp only [pure, Except.pure, Except.ok.injEq] at h
        subst h
        exact ⟨n, hn, hclasses, hcap, Or.inl ⟨hm, by rw [← hi]; exact hget⟩⟩
      | some index =>
        simp only [pure, Except.pure, Except.ok.injEq] at h
        subst h
        refine ⟨n, hn, (classes_dropPhiInput _ _ _).trans hclasses,
          (capacity_dropPhiInput _ _ _).trans hcap, Or.inl ⟨hm, fun j => ?_⟩⟩
        rw [← hi, get?_dropPhiInput, hget, Option.map_map]
        rfl
    · subst hi hg
      simp only [pure, Except.pure, Except.ok.injEq] at h
      subst h
      exact ⟨n, hn, rfl, rfl, Or.inr ⟨hm, rfl⟩⟩

theorem addEdge_cases {source target : NodeId} {g' : Graph} (h : g.addEdge source target = .ok g') :
    ∃ n m, g.get? source = some n ∧ g.get? target = some m ∧
      g' = (g.modify source fun n => { n with successors := n.successors ++ [target] }).modify target fun n =>
        { n with predecessors := n.predecessors ++ [source] } := by
  have h := Attempt.final_ok.mp h
  cases hm : g.get? target with
  | none => cases (link_of_none hm).symm.trans h
  | some m =>
    cases hn : g.get? source with
    | none => cases (link_of_source_none hn hm).symm.trans h
    | some n =>
      cases (link_of_get? hn hm).symm.trans h
      exact ⟨n, m, rfl, rfl, rfl⟩

theorem addEdge_ok {source target : NodeId} {g' : Graph} (h : g.addEdge source target = .ok g') :
    g'.classes = g.classes ∧ g'.capacity = g.capacity ∧ ∀ j, g'.get? j = (g.get? j).map fun n =>
      { n with
        successors := if j = source then n.successors ++ [target] else n.successors
        predecessors := if j = target then n.predecessors ++ [source] else n.predecessors } := by
  obtain ⟨n, m, _, _, rfl⟩ := addEdge_cases h
  refine ⟨rfl, by simp [capacity_modify], fun j => ?_⟩
  rw [get?_modify (by simp), get?_modify (by simp), Option.map_map]
  congr 1
  funext n
  simp only [Function.comp_apply]
  split_ifs <;> rfl

theorem redirectEdge_cases {source old new : NodeId} {g' : Graph} (h : g.redirectEdge source old new = .ok g') :
    ∃ n m position, g.get? source = some n ∧ g.get? new = some m ∧ n.successors.idxOf? old = some position ∧
      g' = g.redirected source old new position := by
  have h := Attempt.final_ok.mp h
  cases hm : g.get? new with
  | none => cases (relink_of_none hm).symm.trans h
  | some m =>
    cases hn : g.get? source with
    | none => cases (relink_of_source_none hm hn).symm.trans h
    | some n =>
      cases hp : n.successors.idxOf? old with
      | none => cases (relink_of_not_mem hm hn (List.idxOf?_eq_none_iff.mp hp)).symm.trans h
      | some position =>
        cases (relink_of_idxOf? hm hn hp).symm.trans h
        exact ⟨n, m, position, rfl, rfl, hp, rfl⟩

theorem redirectEdge_ok {source old new : NodeId} {g' : Graph}
    (h : g.redirectEdge source old new = .ok g') :
    ∃ n position, g.get? source = some n ∧ n.successors.idxOf? old = some position ∧
      g'.classes = g.classes ∧ g'.capacity = g.capacity ∧
      ∀ j, g'.get? j = (g.get? j).map fun n =>
        let w := withoutEdge source old (g.predecessorIndex? source old) j n
        { w with
          successors := if j = source then n.successors.set position new else n.successors
          predecessors := if j = new then w.predecessors ++ [source] else w.predecessors } := by
  obtain ⟨n, m, position, hn, _, hp, rfl⟩ := redirectEdge_cases h
  exact ⟨n, position, hn, hp, g.classes_redirected .., g.capacity_redirected .., g.get?_redirected source old new position⟩

theorem foldBranch_ok {split : NodeId} {truth : Bool} {folded : FoldedBranch} {g' : Graph}
    (h : g.foldBranch split truth = .ok (folded, g')) :
    ∃ n yes no, g.get? split = some n ∧ n.kind = .branch ∧ n.successors = [yes, no] ∧
      folded = (if truth then ⟨yes, no⟩ else ⟨no, yes⟩) ∧
      g'.classes = g.classes ∧ g'.capacity = g.capacity ∧
      ∀ j, g'.get? j = (g.get? j).map fun m =>
        let w := withoutEdge split folded.dead none j m
        { w with
          kind := if j = split then .begin else m.kind
          inputs := if j = split then [] else m.inputs } := by
  unfold foldBranch at h
  cases hn : g.node split with
  | error e => simp [hn, bind, Except.bind] at h
  | ok n =>
    simp only [hn, bind, Except.bind] at h
    have hget := node_eq_ok_iff.mp hn
    by_cases hk : n.kind = .branch
    · simp only [hk, ensure, decide_true, ↓reduceIte] at h
      split at h
      next yes no hs =>
        split at h
        next e he => cases h
        next r hr =>
          obtain ⟨index?, g₁⟩ := r
          simp only [pure, Except.pure, Except.ok.injEq, Prod.mk.injEq] at h
          obtain ⟨hfold, rfl⟩ := h
          rw [hfold] at hr
          obtain ⟨m, hm, hclasses, hcap, ⟨_, _, hview⟩ | ⟨hno, _, _⟩⟩ := removeEdge_ok hr
          · refine ⟨n, yes, no, hget, hk, hs, hfold.symm, hclasses, ?_, fun j => ?_⟩
            · simpa [setKind, capacity_modify] using hcap
            · rw [get?_setKind, hview, Option.map_map]
              congr 1
              funext m
              simp only [Function.comp_apply, withoutEdge]
              split_ifs <;> rfl
          · cases hget.symm.trans hm
            refine absurd ?_ hno
            rw [hs, ← hfold]
            cases truth <;> simp
      next => cases h
    · simp [hk, ensure] at h

theorem strengthenGuard_ok {anchor guard : NodeId} {reason : Reason} {s : Strengthened} {g' : Graph}
    (hsucc : ∀ n, g.get? anchor = some n → ∀ t ∈ n.successors, t < g.capacity)
    (h : g.strengthenGuard anchor guard reason = .ok (s, g')) :
    ∃ n, g.get? anchor = some n ∧ s.trap = g.capacity ∧ s.detached = n.successors.head? ∧
      (∀ j, j ∈ s.removed ↔ j ∈ g.guardsAt anchor ∧ guard ≤ j) ∧
      g'.classes = g.classes ∧ g'.capacity = g.capacity + 1 ∧
      ∀ j, g'.get? j = if j ∈ s.removed then none
        else if j = g.capacity then
          some { kind := .deoptimize reason, synthetic := true, predecessors := [anchor] }
        else (g.get? j).map fun m =>
          let w := match s.detached with
            | some old => withoutEdge anchor old (g.predecessorIndex? anchor old) j m
            | none => m
          { w with
            successors := if j = anchor then g.capacity :: m.successors.tail else m.successors } := by
  unfold strengthenGuard at h
  cases hn : g.node anchor with
  | error e => simp [hn, bind, Except.bind] at h
  | ok n =>
    have hget := node_eq_ok_iff.mp hn
    have hlt := lt_capacity hget
    have hne : anchor ≠ g.capacity := Nat.ne_of_lt hlt
    set trap : Node := { kind := .deoptimize reason, synthetic := true } with htrap
    have hadd := get?_add g trap rfl
    simp only [hn, bind, Except.bind] at h
    cases hd : n.successors.head? with
    | none =>
      have hs : n.successors = [] := List.head?_eq_none_iff.mp hd
      simp only [hd] at h
      split at h
      next e he => cases h
      next g₁ hedge =>
        obtain ⟨hclasses, hcap, hview⟩ := addEdge_ok hedge
        simp only [pure, Except.pure, Except.ok.injEq, Prod.mk.injEq] at h
        obtain ⟨rfl, rfl⟩ := h
        have hguards : ∀ j, j ∈ g₁.guardsAt anchor ↔ j ∈ g.guardsAt anchor := by
          intro j
          simp only [mem_guardsAt, hview, hadd]
          by_cases hj : j = g.capacity
          · subst hj
            simp [htrap, Kind.isGuard, get?_capacity]
          · simp [hj]
        refine ⟨n, hget, rfl, hd.symm, fun j => by simp [hguards], ?_, ?_, fun j => ?_⟩
        · rw [classes_foldl_delete, hclasses]
          rfl
        · rw [capacity_foldl_delete, hcap]
          simp [add, capacity]
        · rw [get?_foldl_delete, hview, hadd]
          refine if_congr Iff.rfl rfl ?_
          by_cases hj : j = g.capacity
          · subst hj
            simp [htrap, add, hne.symm]
          · simp only [hj, ↓reduceIte, add]
            cases hm : g.get? j with
            | none => rfl
            | some m =>
              by_cases ha : j = anchor
              · subst ha
                cases hget.symm.trans hm
                simp [hs]
              · simp [ha]
    | some old =>
      obtain ⟨rest, hs⟩ : ∃ rest, n.successors = old :: rest := by
        cases hl : n.successors with
        | nil => simp [hl] at hd
        | cons x rest => simp_all
      simp only [hd] at h
      split at h
      next e he => cases h
      next g₁ hedge =>
        obtain ⟨n', position, hn', hpos, hclasses, hcap, hview⟩ := redirectEdge_ok hedge
        rw [hadd, if_neg hne] at hn'
        cases hget.symm.trans hn'
        have hzero : position = 0 := by simpa [hs, List.idxOf?_cons] using hpos.symm
        subst hzero
        simp only [pure, Except.pure, Except.ok.injEq, Prod.mk.injEq] at h
        obtain ⟨rfl, rfl⟩ := h
        have hguards : ∀ j, j ∈ g₁.guardsAt anchor ↔ j ∈ g.guardsAt anchor := by
          intro j
          simp only [mem_guardsAt, hview, hadd]
          by_cases hj : j = g.capacity
          · subst hj
            simp [htrap, Kind.isGuard, get?_capacity, withoutEdge]
          · simp [hj, withoutEdge]
        have ho : old ≠ g.capacity := Nat.ne_of_lt (hsucc n hget old (by simp [hs]))
        have hindex : (g.add trap).2.predecessorIndex? anchor old = g.predecessorIndex? anchor old := by
          unfold predecessorIndex? add
          simp only [Array.getElem?_push]
          split
          next he => exact absurd he ho
          next => rfl
        refine ⟨n, hget, rfl, hd.symm, fun j => by simp [hguards], ?_, ?_, fun j => ?_⟩
        · rw [classes_foldl_delete, hclasses]
          rfl
        · rw [capacity_foldl_delete, hcap]
          simp [add, capacity]
        · rw [get?_foldl_delete, hview, hadd, hindex]
          refine if_congr Iff.rfl rfl ?_
          by_cases hj : j = g.capacity
          · subst hj
            simp only [↓reduceIte, Option.map_some, Option.some.injEq, add, htrap, withoutEdge, hne.symm,
              ho.symm]
            cases g.predecessorIndex? anchor old <;> simp
          · simp only [hj, ↓reduceIte, add]
            cases hm : g.get? j with
            | none => rfl
            | some m =>
              by_cases ha : j = anchor
              · subst ha
                cases hget.symm.trans hm
                simp [hs, withoutEdge]
              · simp [ha, withoutEdge]

end Graph

end GuardElision
