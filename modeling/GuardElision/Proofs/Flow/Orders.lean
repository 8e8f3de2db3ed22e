import GuardElision.Proofs.Flow.Search

namespace GuardElision

namespace Digraph

/-- Every edge from a listed node leads to a node further on, unless there is a way back. -/
def FollowsEdges (g : Digraph) (order : List Nat) : Prop :=
  ∀ x ∈ order, ∀ w ∈ g.succ x, w < g.size → [x, w].Sublist order ∨ g.Reaches w x

/-- From every node that is entered and not yet left there is a way to `v`. -/
def OpenTo (g : Digraph) (s : Search) (v : Nat) : Prop :=
  ∀ u < g.size, s.seen.has u = true → u ∈ s.order ∨ g.Reaches u v

variable {g : Digraph} {s t : Search} {u v : Nat}

namespace OpenTo

theorem enter (h : g.OpenTo s v) (hv : v < g.size) : g.OpenTo { s with seen := s.seen.add v } v := by
  intro u hu hseen
  rw [Marks.has_add, Bool.or_eq_true, decide_eq_true_eq] at hseen
  rcases hseen with rfl | hseen
  · exact Or.inr ⟨_, .nil hv⟩
  · exact h u hu hseen

/-- What a search enters it leaves again. -/
theorem explores {roots new : List Nat} (h : g.OpenTo s v) (k : g.Explores roots s t new) : g.OpenTo t v := by
  intro u hu hseen
  rw [k.order, List.mem_append]
  rcases (k.has_iff u).mp hseen with hnew | hold
  · exact Or.inl (Or.inl hnew)
  · exact (h u hu hold).imp_left Or.inr

theorem succ (h : g.OpenTo s v) (hm : u ∈ g.succ v) (hu : u < g.size) : g.OpenTo s u :=
  fun x hx hseen => (h x hx hseen).imp_right fun hr => hr.snoc hm hu

end OpenTo

theorem FollowsEdges.leave (h : g.FollowsEdges t.order) (hopen : g.OpenTo t v)
    (hsucc : ∀ w ∈ g.succ v, t.seen.has w = true) : g.FollowsEdges (v :: t.order) := by
  intro x hx w hw hlt
  rcases List.mem_cons.mp hx with rfl | hx
  · exact (hopen w hlt (hsucc w hw)).imp_left fun hm => (List.singleton_sublist.mpr hm).cons_cons x
  · exact (h x hx w hw hlt).imp_left fun hsub => hsub.cons v

/-- While the successors of a node are searched one after the other, the nodes still open are the node and
those above it, and from all of these there is a way to the next successor. -/
theorem foldr_visit_followsEdges {bound : Nat}
    (hvisit : ∀ u s, s.seen.bits.size = g.size → s.seen.free.card ≤ bound → (u < g.size → g.OpenTo s u) →
      g.FollowsEdges s.order → g.FollowsEdges (g.visit bound u s).order)
    (us : List Nat) (hus : ∀ u ∈ us, u ∈ g.succ v) (hs : s.seen.bits.size = g.size) (hb : s.seen.free.card ≤ bound)
    (hopen : g.OpenTo s v) (hf : g.FollowsEdges s.order) :
    g.FollowsEdges (us.foldr (fun u s => g.visit bound u s) s).order := by
  induction us with
  | nil => exact hf
  | cons u us ih =>
    obtain ⟨hu, hrest⟩ := List.forall_mem_cons.mp hus
    obtain ⟨new, hnew⟩ := g.foldr_visit_explores (g.visit_explores bound) us hs hb
    have hfree := Marks.card_free_le (m := s.seen) fun w hw => hnew.mono hw
    apply hvisit u _ (hnew.size.trans hs) (by omega)
    · intro hlt
      exact (hopen.explores hnew).succ hu hlt
    · exact ih hrest

theorem visit_followsEdges (g : Digraph) (bound v : Nat) (s : Search) (hs : s.seen.bits.size = g.size)
    (hb : s.seen.free.card ≤ bound) (hopen : v < g.size → g.OpenTo s v) (hf : g.FollowsEdges s.order) :
    g.FollowsEdges (g.visit bound v s).order := by
  induction bound generalizing v s with
  | zero => exact hf
  | succ bound ih =>
    unfold visit
    split
    next => exact hf
    next hseen =>
      have hv : s.seen.has v = false := by simpa using hseen
      have hlt : v < g.size := hs ▸ Marks.lt_of_has_eq_false hv
      have hsize := (Marks.size_add s.seen v).trans hs
      have hroom := Nat.le_of_lt_succ ((Marks.card_free_add_lt hv).trans_le hb)
      have hinside := (hopen hlt).enter hlt
      have hbelow := foldr_visit_followsEdges (s := { s with seen := s.seen.add v }) ih (g.succ v) (fun _ hu => hu)
        hsize hroom hinside hf
      obtain ⟨new, hnew⟩ := g.foldr_visit_explores (g.visit_explores bound) (g.succ v)
        (s := { s with seen := s.seen.add v }) hsize hroom
      exact hbelow.leave (hinside.explores hnew) hnew.roots_seen

theorem reversePostorder_followsEdges (g : Digraph) (start : Nat) :
    g.FollowsEdges (g.reversePostorder start) := by
  have hempty : g.FollowsEdges [] := by simp [FollowsEdges]
  rw [reversePostorder, postorder, List.reverse_reverse, search_eq]
  refine g.visit_followsEdges g.size start ⟨.none g.size, []⟩ (size_none _) (card_free_none_le _) ?_ hempty
  intro _ u hu hseen
  rw [has_none_eq_false hu] at hseen
  cases hseen

theorem head?_reversePostorder {start : Nat} (hstart : start < g.size) :
    (g.reversePostorder start).head? = some start := by
  cases hlist : g.reversePostorder start with
  | nil =>
    have hmem := (g.mem_reversePostorder start start).mpr ⟨_, .nil hstart⟩
    simp [hlist] at hmem
  | cons x rest =>
    obtain ⟨p, hp, hall⟩ := g.path_of_reversePostorder (show g.reversePostorder start = [] ++ x :: rest from hlist)
    have hx : start = x := (hall start hp.source_mem).resolve_right (by simp)
    rw [hx, List.head?_cons]

theorem foldl_mark (us : List Nat) (w : List Nat × Marks) :
    (us.foldl mark w).2.bits.size = w.2.bits.size ∧
    (∀ x, (us.foldl mark w).2.has x = true ↔ x ∈ us ∨ w.2.has x = true) ∧
    (∀ x, x ∈ (us.foldl mark w).1 ↔ x ∈ w.1 ∨ x ∈ us ∧ w.2.has x = false) ∧
    (us.foldl mark w).1.length + (us.foldl mark w).2.free.card = w.1.length + w.2.free.card := by
  induction us generalizing w with
  | nil => simp
  | cons u us ih =>
    obtain ⟨hsize, hhas, hmem, hcount⟩ := ih (mark w u)
    rw [List.foldl_cons, hsize, hcount]
    simp only [hhas, hmem, List.mem_cons]
    unfold mark
    split
    next hu =>
      refine ⟨rfl, fun x => ?_, fun x => ?_, rfl⟩ <;> by_cases hx : x = u <;> simp_all
    next hu =>
      have hcard := Finset.card_erase_add_one (Marks.mem_free.mpr (Bool.eq_false_iff.mpr hu))
      refine ⟨Marks.size_add _ _, fun x => ?_, fun x => ?_, ?_⟩
      · rw [Marks.has_add, Bool.or_eq_true, decide_eq_true_eq]
        tauto
      · rw [Marks.has_add, Bool.or_eq_false_iff, decide_eq_false_iff_not, List.mem_cons]
        by_cases hx : x = u <;> simp_all
      · rw [Marks.free_add, List.length_cons]
        omega

/-- What is marked is reachable, and what is marked and no longer on the stack leads to marked nodes only. -/
structure Spreading (g : Digraph) (start : Nat) (w : List Nat × Marks) : Prop where
  size : w.2.bits.size = g.size
  start_seen : w.2.has start = true
  reached : ∀ v < g.size, w.2.has v = true → g.Reaches start v
  waiting : ∀ v ∈ w.1, v < g.size ∧ w.2.has v = true
  closed : ∀ v < g.size, w.2.has v = true → v ∉ w.1 → ∀ u ∈ g.succ v, w.2.has u = true

namespace Spreading

variable {start : Nat} {w w' : List Nat × Marks} {seen : Marks}

theorem begin (hstart : start < g.size) : g.Spreading start ([start], (Marks.none g.size).add start) where
  size := (Marks.size_add _ _).trans (size_none _)
  start_seen := by simp [Marks.has_add]
  reached v hv h := by
    obtain rfl : v = start := by simpa [Marks.has_add, has_none_eq_false hv] using h
    exact ⟨_, .nil hstart⟩
  waiting v hv := by
    obtain rfl := List.mem_singleton.mp hv
    exact ⟨hstart, by simp [Marks.has_add]⟩
  closed v hv h hnot := by
    have hvs : v = start := by simpa [Marks.has_add, has_none_eq_false hv] using h
    simp [hvs] at hnot

theorem step (h : g.Spreading start w) (hstep : g.spreadStep w = .inl w') :
    g.Spreading start w' ∧ w'.1.length + w'.2.free.card < w.1.length + w.2.free.card := by
  obtain ⟨_ | ⟨v, stack⟩, seen⟩ := w
  · cases hstep
  · cases hstep
    obtain ⟨hlt, hseen⟩ := h.waiting v List.mem_cons_self
    obtain ⟨hsize, hhas, hmem, hcount⟩ := foldl_mark (g.succ v) (stack, seen)
    refine ⟨⟨hsize.trans h.size, (hhas _).mpr (Or.inr h.start_seen), fun x hx hm => ?_, fun x hx => ?_,
      fun x hx hm hnot u hu => ?_⟩, ?_⟩
    · rcases (hhas x).mp hm with hm | hm
      · exact (h.reached v hlt hseen).snoc hm hx
      · exact h.reached x hx hm
    · rcases (hmem x).mp hx with hx | ⟨hx, hfree⟩
      · exact (h.waiting x (List.mem_cons_of_mem v hx)).imp_right fun hm => (hhas x).mpr (Or.inr hm)
      · exact ⟨h.size ▸ Marks.lt_of_has_eq_false hfree, (hhas x).mpr (Or.inl hx)⟩
    · refine (hhas u).mpr ?_
      by_cases hxv : x = v
      · exact Or.inl (hxv ▸ hu)
      · rw [hmem, not_or] at hnot
        have hold : seen.has x = true := ((hhas x).mp hm).elim (fun hs => by simpa using mt (And.intro hs) hnot.2) id
        exact Or.inr (h.closed x hx hold (by simp [hxv, hnot.1]) u hu)
    · rw [hcount]
      simp

theorem has_iff (h : g.Spreading start ([], seen)) (v : Nat) :
    seen.has v = true ↔ g.size ≤ v ∨ g.Reaches start v := by
  constructor
  · intro hv
    by_cases hlt : v < g.size
    · exact Or.inr (h.reached v hlt hv)
    · exact Or.inl (Nat.le_of_not_lt hlt)
  · rintro (hv | ⟨p, hp⟩)
    · have hout : ¬v < seen.bits.size := by rw [h.size]; omega
      simp [Marks.has, Array.getD, hout]
    · induction hp with
      | nil => exact h.start_seen
      | snoc hp hm _ ih => exact h.closed _ hp.target_lt ih List.not_mem_nil _ hm

end Spreading

theorem reachable_eq (g : Digraph) (start : Nat) :
    ∃ seen : Marks, g.reachable start = seen.bits ∧ seen.bits.size = g.size ∧
      ∀ v, seen.has v = true ↔ g.size ≤ v ∨ g.Reaches start v := by
  unfold reachable
  split
  next hstart =>
    have hcard := Marks.card_free_add_lt (has_none_eq_false hstart)
    have hfree := card_free_none_le g.size
    obtain ⟨seen, hrun, hspread⟩ := Loop.exists_run g.spreadStep (g.Spreading start)
      (fun seen => g.Spreading start ([], seen)) (fun w => w.1.length + w.2.free.card) (g.size + 1)
      (fun w w' hw hstep => hw.step hstep)
      (fun w seen hw hstep => by
        obtain ⟨_ | _, _⟩ := w <;> cases hstep
        exact hw)
      (.begin hstart) (by simp; omega)
    exact ⟨seen, by rw [hrun]; rfl, hspread.size, hspread.has_iff⟩
  next hstart =>
    refine ⟨.none g.size, rfl, size_none _, fun v => ?_⟩
    have hnone : ¬g.Reaches start v := fun ⟨_, hp⟩ => hstart hp.source_lt
    simp [Marks.has_none, hnone]

theorem toList_reachable (g : Digraph) (start : Nat) :
    (g.reachable start).toList = (List.range g.size).map fun v => decide (v ∈ g.postorder start) := by
  obtain ⟨seen, hbits, hsize, hhas⟩ := g.reachable_eq start
  rw [hbits]
  apply List.ext_getElem
  · simpa using hsize
  · intro v hv _
    have hin : v < seen.bits.size := hv
    have hbit : seen.has v = seen.bits.toList[v] := by simp [Marks.has, Array.getD, hin]
    rw [← hbit, List.getElem_map, List.getElem_range, Bool.eq_iff_iff, hhas, decide_eq_true_eq, ← List.mem_reverse]
    change _ ↔ v ∈ g.reversePostorder start
    rw [mem_reversePostorder]
    exact or_iff_right (by omega)

/-- The orders of any graph from any of its nodes. The postorder lists what is reachable, each node once,
and the marks agree with it. An edge between two listed nodes goes back in it, or else there is a way from
its target to its source; so without cycles the reverse is a topological order. The start stands last. -/
theorem traversal_orders_exact (g : Digraph) {start : Nat} (hstart : start < g.size) :
    (g.postorder start).Nodup ∧
    (∀ v, v ∈ g.postorder start ↔ g.Reaches start v) ∧
    (g.reachable start).toList = (List.range g.size).map (fun v => decide (v ∈ g.postorder start)) ∧
    (∀ v ∈ g.postorder start, ∀ u ∈ g.postorder start, u ∈ g.succ v →
      [u, v].Sublist (g.postorder start) ∨ g.Reaches u v) ∧
    ((∀ v u, g.Reaches start v → u ∈ g.succ v → ¬g.Reaches u v) →
      ∀ v ∈ g.reversePostorder start, ∀ u ∈ g.succ v, u < g.size → [v, u].Sublist (g.reversePostorder start)) ∧
    (g.postorder start).getLast? = some start := by
  have hmem : ∀ v, v ∈ g.postorder start ↔ g.Reaches start v := by
    intro v
    rw [← mem_reversePostorder, reversePostorder, List.mem_reverse]
  have hedges := g.reversePostorder_followsEdges start
  refine ⟨List.nodup_reverse.mp (g.nodup_reversePostorder start), hmem, g.toList_reachable start, ?_, ?_, ?_⟩
  · intro v hv u hu hsucc
    have hlt := ((hmem u).mp hu).lt
    have hlisted := (g.mem_reversePostorder start v).mpr ((hmem v).mp hv)
    exact (hedges v hlisted u hsucc hlt).imp_left fun hsub => List.reverse_sublist.mp hsub
  · intro hacyclic v hv u hsucc hlt
    have hreach := (g.mem_reversePostorder start v).mp hv
    exact (hedges v hv u hsucc hlt).resolve_right (hacyclic v u hreach hsucc)
  · rw [← List.head?_reverse]
    exact head?_reversePostorder hstart

/-- With a cycle of two nodes, a loop at one of them, an edge given twice and two nodes out of reach. -/
theorem traversal_orders_exact_looping :
    let g : Digraph := ⟨6, fun v => [[1, 2, 1], [3], [3], [1, 3], [0], []].getD v []⟩
    0 < g.size ∧ g.postorder 0 = [3, 1, 2, 0] ∧ (g.postorder 0).Nodup ∧ (∀ v, v ∈ [3, 1, 2, 0] ↔ g.Reaches 0 v) ∧
      (g.reachable 0).toList = [true, true, true, true, false, false] ∧ 1 ∈ g.succ 3 ∧ g.Reaches 1 3 ∧
      (g.postorder 0).getLast? = some 0 := by
  intro g
  have hstart : 0 < g.size := by decide
  have horder : g.postorder 0 = [3, 1, 2, 0] := by decide +kernel
  obtain ⟨hnodup, hmem, hmarks, hedges, _, hlast⟩ := g.traversal_orders_exact hstart
  -- The edge from 3 to 1 does not go back in the postorder, so it closes a cycle.
  have hback : g.Reaches 1 3 := by
    refine (hedges 3 (by simp [horder]) 1 (by simp [horder]) (by decide)).resolve_left ?_
    rw [horder]
    decide
  rw [horder] at hmem hmarks
  exact ⟨hstart, horder, hnodup, hmem, hmarks.trans (by decide), by decide, hback, hlast⟩

end Digraph

end GuardElision
