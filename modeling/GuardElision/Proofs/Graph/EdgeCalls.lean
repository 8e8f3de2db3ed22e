import GuardElision.Proofs.Graph.Lookup

namespace GuardElision

/-- No edge leads to or from the node, and it is not the phi of a merge. -/
def Node.Unconnected (n : Node) : Prop :=
  n.successors = [] ∧ n.predecessors = [] ∧ (n.kind = .phi → n.anchor = none)

instance (n : Node) : Decidable n.Unconnected :=
  inferInstanceAs (Decidable (_ ∧ _ ∧ (_ → _)))

namespace Graph

/-- An edge between live nodes stands equally often in the lists of both. -/
def EdgesAgree (g : Graph) : Prop :=
  ∀ u v n m, g.get? u = some n → g.get? v = some m → n.successors.count v = m.predecessors.count u

/-- The phis of a live merge have one input for each of its predecessors. -/
def PhisFit (g : Graph) : Prop :=
  ∀ x v n m, g.get? x = some n → n.kind = .phi → n.anchor = some v → g.get? v = some m → m.kind.isMerge = true →
    n.inputs.length = m.predecessors.length

/-- The ends of edges, and the merges of phis, have ids that were handed out. -/
def EndsKnown (g : Graph) : Prop :=
  ∀ x n, g.get? x = some n → (∀ v ∈ n.successors, v < g.capacity) ∧ (∀ v ∈ n.predecessors, v < g.capacity) ∧
    ∀ v, n.kind = .phi → n.anchor = some v → v < g.capacity

structure Coherent (g : Graph) : Prop where
  edges : g.EdgesAgree
  phis : g.PhisFit
  ends : g.EndsKnown

theorem mem_liveIds {g : Graph} {id : NodeId} : id ∈ g.liveIds ↔ ∃ n, g.get? id = some n := by
  simp [liveIds, mem_select]

instance (g : Graph) : Decidable g.EdgesAgree :=
  decidable_of_iff (∀ u ∈ g.liveIds, ∀ v ∈ g.liveIds, ∀ n ∈ g.get? u, ∀ m ∈ g.get? v,
      n.successors.count v = m.predecessors.count u) <| by
    refine ⟨fun h u v n m hn hm => h u ?_ v ?_ n hn m hm, fun h u _ v _ n hn m hm => h u v n m hn hm⟩
    · exact mem_liveIds.mpr ⟨n, hn⟩
    · exact mem_liveIds.mpr ⟨m, hm⟩

instance (g : Graph) : Decidable g.PhisFit :=
  decidable_of_iff (∀ x ∈ g.liveIds, ∀ n ∈ g.get? x, n.kind = .phi → ∀ v ∈ n.anchor, ∀ m ∈ g.get? v,
      m.kind.isMerge = true → n.inputs.length = m.predecessors.length) <| by
    refine ⟨fun h x v n m hn hk hv => h x ?_ n hn hk v hv m, fun h x _ n hn hk v hv m => h x v n m hn hk hv⟩
    exact mem_liveIds.mpr ⟨n, hn⟩

instance (g : Graph) : Decidable g.EndsKnown :=
  decidable_of_iff (∀ x ∈ g.liveIds, ∀ n ∈ g.get? x, (∀ v ∈ n.successors, v < g.capacity) ∧
      (∀ v ∈ n.predecessors, v < g.capacity) ∧ ∀ v ∈ n.anchor, n.kind = .phi → v < g.capacity) <| by
    refine ⟨fun h x n hn => ?_, fun h x _ n hn => ?_⟩
    · obtain ⟨hs, hp, ha⟩ := h x (mem_liveIds.mpr ⟨n, hn⟩) n hn
      exact ⟨hs, hp, fun v hk hv => ha v hv hk⟩
    · obtain ⟨hs, hp, ha⟩ := h x n hn
      exact ⟨hs, hp, fun v hv hk => ha v hk hv⟩

variable {g g' : Graph}

theorem get?_of_add {n m : Node} {j : NodeId} (h : (g.add n).2.get? j = some m) :
    g.get? j = some m ∨ j = g.capacity ∧ m = n := by
  have hslot := slot_of_get? h
  by_cases hj : j = g.capacity
  · subst hj
    simp only [add, capacity, Array.getElem?_push_size, Option.some.injEq] at hslot
    exact .inr ⟨rfl, hslot.symm⟩
  · refine .inl ?_
    simp only [add, Array.getElem?_push, if_neg (show ¬ j = g.nodes.size from hj)] at hslot
    simp [get?, hslot, not_removed h]

theorem Coherent.add (hg : g.Coherent) {n : Node} (hn : n.Unconnected) : (g.add n).2.Coherent := by
  obtain ⟨hsucc, hpred, hanchor⟩ := hn
  have hgrown : (g.add n).2.capacity = g.capacity + 1 := by simp [Graph.add, capacity]
  refine ⟨fun u v m k hm hk => ?_, fun x v m k hm hkind hv hk hmerge => ?_, fun x m hm => ?_⟩
  · rcases get?_of_add hm with hold | ⟨rfl, rfl⟩
    · rcases get?_of_add hk with hk | ⟨rfl, rfl⟩
      · exact hg.edges u v m k hold hk
      · have hnot : g.capacity ∉ m.successors := fun h => Nat.lt_irrefl _ ((hg.ends u m hold).1 _ h)
        rw [hpred, List.count_eq_zero_of_not_mem hnot, List.count_nil]
    · rw [hsucc, List.count_nil, eq_comm, List.count_eq_zero]
      rcases get?_of_add hk with hold | ⟨rfl, rfl⟩
      · exact fun h => Nat.lt_irrefl _ ((hg.ends v k hold).2.1 _ h)
      · simp [hpred]
  · rcases get?_of_add hm with hold | ⟨rfl, rfl⟩
    · rcases get?_of_add hk with hk | ⟨rfl, rfl⟩
      · exact hg.phis x v m k hold hkind hv hk hmerge
      · exact absurd ((hg.ends x m hold).2.2 _ hkind hv) (Nat.lt_irrefl _)
    · rw [hanchor hkind] at hv
      cases hv
  · rw [hgrown]
    rcases get?_of_add hm with hold | ⟨rfl, rfl⟩
    · obtain ⟨hs, hp, ha⟩ := hg.ends x m hold
      exact ⟨fun v hv => Nat.lt_succ_of_lt (hs v hv), fun v hv => Nat.lt_succ_of_lt (hp v hv),
        fun v hk hv => Nat.lt_succ_of_lt (ha v hk hv)⟩
    · refine ⟨by simp [hsucc], by simp [hpred], fun v hk hv => ?_⟩
      rw [hanchor hk] at hv
      cases hv

section Count

variable {l : List NodeId} {a b x : NodeId} {c : Prop} [Decidable c]

theorem count_ite_append : (if c then l ++ [a] else l).count x = l.count x + if c ∧ x = a then 1 else 0 := by
  by_cases hc : c <;> simp [hc, List.count_append, List.count_singleton, beq_iff_eq, eq_comm (a := a)]

theorem count_ite_erase : (if c then l.erase a else l).count x = l.count x - if c ∧ x = a then 1 else 0 := by
  by_cases hc : c <;> simp [hc, List.count_erase, beq_iff_eq, eq_comm (a := a)]

theorem count_ite_set {i : Nat} (h : c → l.idxOf? b = some i) :
    (if c then l.set i a else l).count x =
      (l.count x - if c ∧ x = b then 1 else 0) + if c ∧ x = a then 1 else 0 := by
  by_cases hc : c
  · obtain ⟨hi, rfl, -⟩ := List.idxOf?_eq_some_iff.mp (h hc)
    simp [hc, List.count_set hi, eq_comm (b := x)]
  · simp [hc]

theorem mem_of_ite_append (h : x ∈ if c then l ++ [a] else l) : x ∈ l ∨ x = a := by
  split at h
  · simpa using h
  · exact .inl h

theorem mem_of_ite_erase (h : x ∈ if c then l.erase a else l) : x ∈ l := by
  split at h
  · exact List.mem_of_mem_erase h
  · exact h

end Count

/-- A change of edge lists and inputs that keeps kinds and anchors, seen at live nodes. -/
structure Rewires (g : Graph) (f : NodeId → Node → Node) (g' : Graph) : Prop where
  view : ∀ j, g'.get? j = (g.get? j).map (f j)
  kind : ∀ j n, (f j n).kind = n.kind
  anchor : ∀ j n, (f j n).anchor = n.anchor
  capacity : g'.capacity = g.capacity

namespace Rewires

variable {f : NodeId → Node → Node}

theorem get? (h : g.Rewires f g') {j : NodeId} {n : Node} (hn : g'.get? j = some n) :
    ∃ m, g.get? j = some m ∧ f j m = n := by
  rw [h.view] at hn
  exact Option.map_eq_some_iff.mp hn

theorem edgesAgree (h : g.Rewires f g')
    (hcount : ∀ u v n m, g.get? u = some n → g.get? v = some m →
      (f u n).successors.count v = (f v m).predecessors.count u) : g'.EdgesAgree := by
  intro u v _ _ hu hv
  obtain ⟨n, hn, rfl⟩ := h.get? hu
  obtain ⟨m, hm, rfl⟩ := h.get? hv
  exact hcount u v n m hn hm

theorem phisFit (h : g.Rewires f g')
    (hlength : ∀ x v n m, g.get? x = some n → n.kind = .phi → n.anchor = some v → g.get? v = some m →
      m.kind.isMerge = true → (f x n).inputs.length = (f v m).predecessors.length) : g'.PhisFit := by
  intro x v _ _ hx hk ha hv hmerge
  obtain ⟨n, hn, rfl⟩ := h.get? hx
  obtain ⟨m, hm, rfl⟩ := h.get? hv
  rw [h.kind] at hk hmerge
  rw [h.anchor] at ha
  exact hlength x v n m hn hk ha hm hmerge

/-- Edges that are new lead between nodes that were handed out. -/
theorem endsKnown (h : g.Rewires f g') (hg : g.EndsKnown) {source target : NodeId} (hs : source < g.capacity)
    (ht : target < g.capacity) (hsucc : ∀ j n, ∀ v ∈ (f j n).successors, v ∈ n.successors ∨ v = target)
    (hpred : ∀ j n, ∀ v ∈ (f j n).predecessors, v ∈ n.predecessors ∨ v = source) : g'.EndsKnown := by
  intro x _ hx
  obtain ⟨n, hn, rfl⟩ := h.get? hx
  obtain ⟨hsn, hpn, han⟩ := hg x n hn
  rw [h.kind, h.anchor, h.capacity]
  refine ⟨fun v hv => ?_, fun v hv => ?_, han⟩
  · rcases hsucc x n v hv with hv | rfl
    · exact hsn v hv
    · exact ht
  · rcases hpred x n v hv with hv | rfl
    · exact hpn v hv
    · exact hs

end Rewires

theorem anchor_ne_of_phisOf {target x v : NodeId} {n : Node} (hphis : g.phisOf target = []) (hn : g.get? x = some n)
    (hk : n.kind = .phi) (ha : n.anchor = some v) : v ≠ target := by
  rintro rfl
  have hx : x ∈ g.phisOf v := mem_phisOf.mpr ⟨n, hn, hk, ha⟩
  rw [hphis] at hx
  cases hx

theorem Coherent.addEdge (hg : g.Coherent) {source target : NodeId} (hphis : g.phisOf target = [])
    (h : g.addEdge source target = .ok g') : g'.Coherent := by
  obtain ⟨n, m, hn, hm, -⟩ := addEdge_cases h
  obtain ⟨-, hcap, hview⟩ := addEdge_ok h
  have hrewires : g.Rewires _ g' := ⟨hview, fun _ _ => rfl, fun _ _ => rfl, hcap⟩
  refine ⟨hrewires.edgesAgree fun u v n m hn hm => ?_, hrewires.phisFit fun x v n m hn hk ha hm hmerge => ?_,
    hrewires.endsKnown hg.ends (lt_capacity hn) (lt_capacity hm) (fun j n v hv => ?_) (fun j n v hv => ?_)⟩
  · simp only [count_ite_append, hg.edges u v n m hn hm, and_comm]
  · simp only [if_neg (anchor_ne_of_phisOf hphis hn hk ha)]
    exact hg.phis x v n m hn hk ha hm hmerge
  · exact mem_of_ite_append hv
  · exact mem_of_ite_append hv

theorem Coherent.removeEdge (hg : g.Coherent) {source target : NodeId} {index? : Option Nat}
    (hphis : g.phisOf target = []) (h : g.removeEdge source target = .ok (index?, g')) : g'.Coherent := by
  obtain ⟨n, hn, -, hcap, ⟨-, -, hview⟩ | ⟨-, -, rfl⟩⟩ := removeEdge_ok h
  · have hrewires : g.Rewires _ g' := ⟨hview, fun _ _ => rfl, fun _ _ => rfl, hcap⟩
    have hknown := lt_capacity hn
    refine ⟨hrewires.edgesAgree fun u v n m hn hm => ?_, hrewires.phisFit fun x v n m hn hk ha hm hmerge => ?_,
      hrewires.endsKnown hg.ends hknown hknown (fun j n v hv => ?_) (fun j n v hv => ?_)⟩
    · simp only [withoutEdge, count_ite_erase, hg.edges u v n m hn hm, and_comm]
    · simp only [withoutEdge, if_neg (anchor_ne_of_phisOf hphis hn hk ha)]
      exact hg.phis x v n m hn hk ha hm hmerge
    · exact .inl (mem_of_ite_erase hv)
    · exact .inl (mem_of_ite_erase hv)
  · exact hg

theorem EdgesAgree.exists_index (hg : g.EdgesAgree) {source target : NodeId} {n m : Node}
    (hn : g.get? source = some n) (hm : g.get? target = some m) (ht : target ∈ n.successors) :
    ∃ index, g.predecessorIndex? source target = some index ∧ m.predecessors.idxOf? source = some index := by
  have hs : source ∈ m.predecessors := by
    rw [← List.count_pos_iff, ← hg source target n m hn hm]
    exact List.count_pos_iff.mpr ht
  have hindex := predecessorIndex?_of_mem hm hs
  exact ⟨_, hindex, by rw [← predecessorIndex?_of_get? hm, hindex]⟩

theorem mem_of_idxOf? {l : List NodeId} {a : NodeId} {i : Nat} (h : l.idxOf? a = some i) : a ∈ l := by
  obtain ⟨hi, rfl, -⟩ := List.idxOf?_eq_some_iff.mp h
  exact List.getElem_mem hi

theorem erase_eq_of_idxOf? {l : List NodeId} {a : NodeId} {i : Nat} (h : l.idxOf? a = some i) :
    l.erase a = l.eraseIdx i := by
  rw [List.erase_eq_eraseIdx, h]

theorem Coherent.redirectEdge (hg : g.Coherent) {source old new : NodeId} (hphis : g.phisOf new = [])
    (h : g.redirectEdge source old new = .ok g') : g'.Coherent := by
  obtain ⟨n, m, position, hn, hm, hposition, rfl⟩ := redirectEdge_cases h
  have hrewires : g.Rewires _ (g.redirected source old new position) :=
    ⟨g.get?_redirected source old new position, fun _ _ => rfl, fun _ _ => rfl, g.capacity_redirected ..⟩
  have hsource : ∀ u k, g.get? u = some k → u = source → k.successors.idxOf? old = some position := by
    rintro u k hk rfl
    cases hn.symm.trans hk
    exact hposition
  refine ⟨hrewires.edgesAgree fun u v k l hk hl => ?_, hrewires.phisFit fun x v k l hk hkind ha hl hmerge => ?_,
    hrewires.endsKnown hg.ends (lt_capacity hn) (lt_capacity hm) (fun j k v hv => ?_) (fun j k v hv => ?_)⟩
  · simp only [withoutEdge, count_ite_set (hsource u k hk), count_ite_append, count_ite_erase,
      hg.edges u v k l hk hl, and_comm]
  · simp only [if_neg (anchor_ne_of_phisOf hphis hk hkind ha)]
    have hfit := hg.phis x v k l hk hkind ha hl hmerge
    by_cases hv : v = old
    · subst hv
      obtain ⟨index, hindex, hidx⟩ := hg.edges.exists_index hn hl (mem_of_idxOf? hposition)
      rw [hindex, inputs_withoutEdge_phi hkind ha]
      simp only [withoutEdge, ↓reduceIte, erase_eq_of_idxOf? hidx, List.length_eraseIdx, hfit]
    · rw [inputs_withoutEdge (.inr (.inl (by simpa [ha] using hv)))]
      simpa only [withoutEdge, if_neg hv] using hfit
  · simp only at hv
    split at hv
    · exact List.mem_or_eq_of_mem_set hv
    · exact .inl hv
  · exact (mem_of_ite_append hv).imp_left mem_of_ite_erase

/-- What it means that an edge of `source` leads to `new` in place of `old`. -/
structure EdgeMoved (g : Graph) (source old new : NodeId) (g' : Graph) : Prop where
  /-- The edge is the first one to the old target and keeps its place among the successors. No other node has
  other successors than before. -/
  place : ∃ n position, g.get? source = some n ∧ n.successors.idxOf? old = some position ∧
    ∀ x, (g'.get? x).map (·.successors) = (g.get? x).map fun m =>
      if x = source then n.successors.set position new else m.successors
  /-- A live old target loses the first entry of the source among its predecessors. If it is a merge, all its phis
  have an input there. -/
  dropped : ∀ m, g.get? old = some m → ∃ index, g.predecessorIndex? source old = some index ∧
    m.predecessors.idxOf? source = some index ∧
    (old ≠ new → (g'.get? old).map (·.predecessors) = some (m.predecessors.eraseIdx index)) ∧
    (m.kind.isMerge = true → ∀ x p, g.get? x = some p → x ∈ g.phisOf old → index < p.inputs.length)
  /-- The phis of the old target lose the input where it loses the predecessor. No other input changes. -/
  inputs : ∀ x, (g'.get? x).map (·.inputs) = (g.get? x).map fun m =>
    if x ∈ g.phisOf old then (g.predecessorIndex? source old).elim m.inputs m.inputs.eraseIdx else m.inputs

theorem Coherent.edgeMoved (hg : g.Coherent) {source old new : NodeId}
    (h : g.redirectEdge source old new = .ok g') : g.EdgeMoved source old new g' := by
  obtain ⟨n, position, hn, hposition, -, -, hview⟩ := redirectEdge_ok h
  refine ⟨⟨n, position, hn, hposition, fun x => ?_⟩, fun m hm => ?_, fun x => ?_⟩
  · rw [hview, Option.map_map]
    refine Option.map_congr fun m hm => ?_
    by_cases hx : x = source
    · subst hx
      cases hn.symm.trans hm
      simp
    · simp [hx]
  · obtain ⟨index, hindex, hidx⟩ := hg.edges.exists_index hn hm (mem_of_idxOf? hposition)
    refine ⟨index, hindex, hidx, fun hne => ?_, fun hmerge x p hp hx => ?_⟩
    · simp only [hview, hm, Option.map_some, withoutEdge, ↓reduceIte, if_neg hne, erase_eq_of_idxOf? hidx]
    · obtain ⟨q, hq, hkind, ha⟩ := mem_phisOf.mp hx
      cases hp.symm.trans hq
      obtain ⟨hlt, -⟩ := List.idxOf?_eq_some_iff.mp hidx
      rwa [hg.phis x old p m hp hkind ha hm hmerge]
  · rw [hview, Option.map_map]
    refine Option.map_congr fun m hm => ?_
    have hx : x ∈ g.phisOf old ↔ m.kind = .phi ∧ m.anchor = some old := by
      simp [mem_phisOf, hm]
    simp only [Function.comp_apply, withoutEdge, hx]
    cases g.predecessorIndex? source old <;> simp

inductive EdgeCall where
  | add (n : Node)
  | link (source target : NodeId)
  | unlink (source target : NodeId)
  | relink (source old new : NodeId)

namespace EdgeCall

def perform : EdgeCall → Attempt Graph Unit
  | add n => Attempt.update fun g : Graph => (g.add n).2
  | link source target => Graph.link source target
  | unlink source target => do let _ ← Graph.unlink source target
  | relink source old new => Graph.relink source old new

/-- Nodes are added without edges. Edges arrive at nodes without phis, and are removed from such nodes only. -/
def Allowed (g : Graph) : EdgeCall → Prop
  | add n => n.Unconnected
  | link _ target => g.phisOf target = []
  | unlink _ target => g.phisOf target = []
  | relink _ _ new => g.phisOf new = []

instance (g : Graph) : DecidablePred (Allowed g) := fun call =>
  match call with
  | add n => inferInstanceAs (Decidable n.Unconnected)
  | link _ target => inferInstanceAs (Decidable (g.phisOf target = []))
  | unlink _ target => inferInstanceAs (Decidable (g.phisOf target = []))
  | relink _ _ new => inferInstanceAs (Decidable (g.phisOf new = []))

theorem perform_error {call : EdgeCall} {e : Fault} (h : call.perform g = .error e g') : g' = g := by
  cases call with
  | add n => cases h
  | link source target => exact (link_error h).1
  | unlink source target =>
    cases hu : Graph.unlink source target g with
    | ok index? g₁ => cases (Attempt.bind_of_ok hu).symm.trans h
    | error e₁ g₁ =>
      cases (Attempt.bind_of_error hu).symm.trans h
      exact (unlink_error hu).1
  | relink source old new => exact (relink_error h).1

theorem perform_ok {call : EdgeCall} (hg : g.Coherent) (hcall : call.Allowed g) (h : call.perform g = .ok () g') :
    g'.Coherent := by
  cases call with
  | add n =>
    cases h
    exact hg.add hcall
  | link source target => exact hg.addEdge hcall (Attempt.final_ok.mpr h)
  | unlink source target =>
    obtain ⟨index?, g₁, hu, hpure⟩ := Attempt.bind_ok.mp h
    obtain ⟨-, rfl⟩ := Attempt.pure_ok.mp hpure
    exact hg.removeEdge hcall (Attempt.finalWith_ok.mpr hu)
  | relink source old new => exact hg.redirectEdge hcall (Attempt.final_ok.mpr h)

theorem state_coherent {call : EdgeCall} (hg : g.Coherent) (hcall : call.Allowed g) :
    (call.perform.state g).Coherent := by
  unfold Attempt.state
  cases h : call.perform g with
  | ok _ g₁ => exact perform_ok hg hcall h
  | error e g₁ => exact perform_error h ▸ hg

/-- The graph after a series of calls, whether or not they succeed. -/
def run (g : Graph) (calls : List EdgeCall) : Graph :=
  calls.foldl (fun g call => call.perform.state g) g

/-- Each call is allowed on the graph that the calls before it leave. -/
def Permitted : Graph → List EdgeCall → Prop
  | _, [] => True
  | g, call :: calls => call.Allowed g ∧ Permitted (call.perform.state g) calls

instance instDecidablePermitted : (g : Graph) → (calls : List EdgeCall) → Decidable (Permitted g calls)
  | _, [] => .isTrue trivial
  | g, call :: calls =>
    have := instDecidablePermitted (call.perform.state g) calls
    inferInstanceAs (Decidable (call.Allowed g ∧ Permitted (call.perform.state g) calls))

/-- What holds before a series of calls holds between any two of them. -/
theorem run_coherent {past rest : List EdgeCall} (hg : g.Coherent) (h : Permitted g (past ++ rest)) :
    (run g past).Coherent ∧ Permitted (run g past) rest := by
  induction past generalizing g with
  | nil => exact ⟨hg, h⟩
  | cons call past ih =>
    obtain ⟨hcall, h⟩ := h
    exact ih (state_coherent hg hcall) h

/-- In a series of allowed calls on a coherent graph, a call that fails leaves the graph as it was, and one that
succeeds leaves a coherent graph. An edge that is redirected keeps its place among the successors, and the phis of
its old target lose just the input at the place of the predecessor that the target loses. -/
theorem calls_keep_coherent {g : Graph} (hg : g.Coherent) (past : List EdgeCall) (call : EdgeCall)
    (rest : List EdgeCall) (h : Permitted g (past ++ call :: rest)) :
    (∀ e after, call.perform (run g past) = .error e after → after = run g past) ∧
    ∀ after, call.perform (run g past) = .ok () after →
      after.Coherent ∧
      ∀ source old new, call = .relink source old new → (run g past).EdgeMoved source old new after := by
  obtain ⟨hbefore, hcall, -⟩ := run_coherent hg h
  refine ⟨fun e after he => perform_error he, fun after ha => ⟨perform_ok hbefore hcall ha, ?_⟩⟩
  rintro source old new rfl
  exact hbefore.edgeMoved (Attempt.final_ok.mpr ha)

/-- A merge with a phi of two inputs loses its first predecessor to a trap that was added. The phi keeps
its second input, and to redirect the same edge again fails. -/
theorem calls_keep_coherent_at_phi :
    let g : Graph := ⟨#[{ kind := .start, successors := [1, 2] },
      { kind := .begin, successors := [3], predecessors := [0] },
      { kind := .begin, successors := [3], predecessors := [0] }, { kind := .merge, predecessors := [1, 2] },
      { kind := .parameter 0, stamp := .int .full }, { kind := .parameter 1, stamp := .int .full },
      { kind := .phi, stamp := .int .full, inputs := [4, 5], anchor := some 3 }], .root⟩
    let grow : EdgeCall := .add { kind := .deoptimize .unreached }
    let move : EdgeCall := .relink 1 3 7
    g.Coherent ∧ Permitted g [grow, move, move] ∧
      ∃ after, move.perform (run g [grow]) = .ok () after ∧ after.Coherent ∧
        (after.get? 6).map (·.inputs) = some [5] ∧
        ∃ e, move.perform (run g [grow, move]) = .error e (run g [grow, move]) := by
  intro g grow move
  have hg : g.Coherent := ⟨by decide, by decide, by decide⟩
  have hcalls : Permitted g [grow, move, move] := by decide
  have hmoved : move.perform (run g [grow]) = .ok () ((run g [grow]).redirected 1 3 7 0) :=
    relink_of_idxOf? (m := { kind := .deoptimize .unreached })
      (n := { kind := .begin, successors := [3], predecessors := [0] }) (by decide) (by decide) (by decide)
  have hfailed : move.perform (run g [grow, move]) =
      .error (.internal (.notSuccessor 3 1)) (run g [grow, move]) :=
    relink_of_not_mem (m := { kind := .deoptimize .unreached, predecessors := [1] })
      (n := { kind := .begin, successors := [7], predecessors := [0] }) (by decide) (by decide) (by decide)
  have hspec := (calls_keep_coherent hg [grow] move [move] hcalls).2 _ hmoved
  have hinputs := (hspec.2 1 3 7 rfl).inputs 6
  exact ⟨hg, hcalls, _, hmoved, hspec.1, hinputs.trans (by decide), _, hfailed⟩

/-- A node lists a successor that is not there yet. When a node is added, it is there, without predecessor. -/
theorem not_edgesAgree_add :
    let g : Graph := ⟨#[{ kind := .start }, { kind := .begin, successors := [2] }], .root⟩
    let grow : EdgeCall := .add { kind := .ret }
    g.EdgesAgree ∧ g.PhisFit ∧ grow.Allowed g ∧ ¬ (run g [grow]).EdgesAgree := by
  decide

end EdgeCall

end Graph

end GuardElision
