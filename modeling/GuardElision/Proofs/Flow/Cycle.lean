import Mathlib.Algebra.GroupWithZero.Nat
import GuardElision.Flow.Cycle
import GuardElision.Proofs.Flow.Search

namespace GuardElision

namespace Digraph

section

variable (g : Digraph)

/-- Explores from the unseen node `v`, later successors first, and fails with the first cycle
found. `path` leads from the start to just before `v`, nearest node first. -/
def descend : Nat → List Nat → Nat → Marks → Except (List Nat) Marks
  | 0, _, _, seen => .ok seen
  | bound + 1, path, v, seen =>
    (g.succ v).foldrM
      (fun u seen =>
        if (v :: path).contains u then .error (closedCycle (v :: path) u)
        else if seen.has u then .ok seen
        else descend bound (v :: path) u seen)
      (seen.add v)

/-- Goes on to one successor of the node on top of the path. -/
def descendTo (bound : Nat) (path : List Nat) (u : Nat) (seen : Marks) : Except (List Nat) Marks :=
  if path.contains u then .error (closedCycle path u)
  else if seen.has u then .ok seen
  else g.descend bound path u seen

theorem descend_succ (bound : Nat) (path : List Nat) (v : Nat) (seen : Marks) :
    g.descend (bound + 1) path v seen = (g.succ v).foldrM (g.descendTo bound (v :: path)) (seen.add v) :=
  rfl

variable {g}

theorem foldrM_descendTo_keeps {bound : Nat}
    (hdescend : ∀ path v seen seen', g.descend bound path v seen = .ok seen' → ∀ w, seen.has w = true → seen'.has w = true)
    {path us : List Nat} {seen seen' : Marks} (h : us.foldrM (g.descendTo bound path) seen = .ok seen') {w : Nat}
    (hw : seen.has w = true) : seen'.has w = true := by
  induction us generalizing seen' with
  | nil =>
    cases h
    exact hw
  | cons u us ih =>
    rw [List.foldrM_cons] at h
    cases hrest : us.foldrM (g.descendTo bound path) seen with
    | error =>
      rw [hrest] at h
      cases h
    | ok seen₁ =>
      rw [hrest] at h
      change g.descendTo bound path u seen₁ = .ok seen' at h
      unfold descendTo at h
      split at h
      next => cases h
      next =>
        split at h
        next =>
          cases h
          exact ih hrest
        next => exact hdescend _ _ _ _ h w (ih hrest)

theorem descend_keeps (bound : Nat) (path : List Nat) (v : Nat) (seen seen' : Marks)
    (h : g.descend bound path v seen = .ok seen') (w : Nat) (hw : seen.has w = true) : seen'.has w = true := by
  induction bound generalizing path v seen seen' w with
  | zero =>
    cases h
    exact hw
  | succ bound ih =>
    rw [descend_succ] at h
    exact foldrM_descendTo_keeps ih h (by simp [Marks.has_add, hw])

theorem foldrM_descendTo_succ_bound {bound : Nat}
    (hdescend : ∀ path v seen, seen.has v = false → seen.free.card ≤ bound →
      g.descend (bound + 1) path v seen = g.descend bound path v seen)
    (path us : List Nat) {seen : Marks} (hbound : seen.free.card ≤ bound) :
    us.foldrM (g.descendTo (bound + 1) path) seen = us.foldrM (g.descendTo bound path) seen := by
  induction us with
  | nil => rfl
  | cons u us ih =>
    rw [List.foldrM_cons, ih, List.foldrM_cons]
    cases hrest : us.foldrM (g.descendTo bound path) seen with
    | error => rfl
    | ok seen₁ =>
      have hfree := Marks.card_free_le fun w hw => foldrM_descendTo_keeps (descend_keeps bound) hrest hw
      change g.descendTo (bound + 1) path u seen₁ = g.descendTo bound path u seen₁
      unfold descendTo
      split
      next => rfl
      next =>
        split
        next => rfl
        next hu => exact hdescend path u seen₁ (Bool.eq_false_iff.mpr hu) (hfree.trans hbound)

/-- More room than there are unseen nodes makes no difference. -/
theorem descend_succ_bound (bound : Nat) (path : List Nat) (v : Nat) (seen : Marks) (hv : seen.has v = false)
    (hbound : seen.free.card ≤ bound) : g.descend (bound + 1) path v seen = g.descend bound path v seen := by
  induction bound generalizing path v seen with
  | zero =>
    have hless := Marks.card_free_add_lt hv
    omega
  | succ bound ih =>
    have hroom := Nat.le_of_lt_succ ((Marks.card_free_add_lt hv).trans_le hbound)
    rw [descend_succ, foldrM_descendTo_succ_bound ih (v :: path) (g.succ v) hroom, descend_succ]

variable (g)

/-- Goes on with what is still to be explored, from the top of the path down to the start. -/
def resume : List (Nat × List Nat) → List Nat → Marks → Except (List Nat) Marks
  | [], _, seen => .ok seen
  | (_, pending) :: stack, path, seen => do
    let seen ← pending.foldlM (fun seen u => g.descendTo g.size path u seen) seen
    resume stack path.tail seen

/-- What a search comes to, as far as its caller is told. -/
def foundCycle? : Except (List Nat) Marks → Option (List Nat)
  | .error cycle => some cycle
  | .ok _ => none

variable {g}

/-- To explore from an unseen node is to go on with all its successors. -/
theorem descend_eq_foldlM {path : List Nat} {seen : Marks} {v : Nat} (hsize : seen.bits.size = g.size)
    (hv : seen.has v = false) : g.descend g.size path v seen =
      (g.succ v).reverse.foldlM (fun seen u => g.descendTo g.size (v :: path) u seen) (seen.add v) := by
  have hless := (Marks.card_free_add_lt hv).trans_le (seen.card_free_le_size.trans_eq hsize)
  obtain ⟨bound, hbound⟩ : ∃ bound, g.size = bound + 1 := ⟨g.size - 1, by omega⟩
  rw [hbound, descend_succ, ← foldrM_descendTo_succ_bound (descend_succ_bound bound) (v :: path) (g.succ v) (by omega)]
  rfl

theorem resume_enter {stack : List (Nat × List Nat)} {path pending : List Nat} {seen : Marks} {u v : Nat}
    (hsize : seen.bits.size = g.size) (hpath : path.contains u = false) (hu : seen.has u = false) :
    g.resume ((u, (g.succ u).reverse) :: (v, pending) :: stack) (u :: path) (seen.add u) =
      g.resume ((v, u :: pending) :: stack) path seen := by
  have hto : g.descendTo g.size path u seen = g.descend g.size path u seen := by
    rw [descendTo, hpath, hu]
    rfl
  rw [resume, ← descend_eq_foldlM hsize hu, ← hto, resume, List.foldlM_cons, bind_assoc]
  rfl

end

namespace CycleSearch

/-- The path is recorded in three ways that agree. -/
structure Coherent (g : Digraph) (s : CycleSearch) : Prop where
  size : s.seen.bits.size = g.size
  size_onPath : s.onPath.size = g.size
  onPath : ∀ u, s.onPath.getD u false = s.path.contains u
  path : s.path = s.stack.map Prod.fst
  nodup : s.path.Nodup
  seen : ∀ u ∈ s.path, s.seen.has u = true ∧ u < g.size

/-- The steps that are left at most: one for each successor still to be explored and one for each node. -/
def measure (g : Digraph) (s : CycleSearch) : Nat :=
  (s.stack.map (·.2.length + 1)).sum + g.roomOf s.seen.free

theorem getD_setIfInBounds {bits : Array Bool} {v : Nat} (hv : v < bits.size) (b : Bool) (u : Nat) :
    (bits.setIfInBounds v b).getD u false = if u = v then b else bits.getD u false := by
  by_cases h : u = v
  · simp [h, hv, Array.getD]
  · simp [h, Ne.symm h, Array.getD_eq_getD_getElem?]

namespace Coherent

variable {g : Digraph} {s s' : CycleSearch} {v : Nat}

theorem enter (h : Coherent g s) (hv : s.seen.has v = false) : Coherent g (s.enter g v) where
  size := (Marks.size_add s.seen v).trans h.size
  size_onPath := by simpa [CycleSearch.enter] using h.size_onPath
  onPath u := by
    have hlt := Marks.lt_of_has_eq_false hv
    rw [CycleSearch.enter, getD_setIfInBounds (by rw [h.size_onPath, ← h.size]; exact hlt), h.onPath]
    by_cases hu : u = v <;> simp [hu]
  path := by simp [CycleSearch.enter, h.path]
  nodup := by
    refine List.nodup_cons.mpr ⟨fun hm => ?_, h.nodup⟩
    have hseen := (h.seen v hm).1
    simp [hv] at hseen
  seen := by
    refine List.forall_mem_cons.mpr ⟨⟨by simp [CycleSearch.enter, Marks.has_add], ?_⟩, fun u hu => ?_⟩
    · exact h.size ▸ Marks.lt_of_has_eq_false hv
    · exact (h.seen u hu).imp_left fun hs => by simp [CycleSearch.enter, Marks.has_add, hs]

theorem measure_enter (hv : s.seen.has v = false) : (s.enter g v).measure g = s.measure g := by
  have hroom := roomOf_erase (g := g) (Marks.mem_free.mpr hv)
  simp only [measure, CycleSearch.enter, List.map_cons, List.length_reverse, List.sum_cons, Marks.free_add]
  omega

/-- No step changes what the search comes to in the end, and each makes its measure smaller. -/
theorem step_inl (h : Coherent g s) (hstep : step g s = .inl s') :
    Coherent g s' ∧ g.resume s'.stack s'.path s'.seen = g.resume s.stack s.path s.seen ∧ s'.measure g < s.measure g := by
  obtain ⟨seen, onPath, path, stack⟩ := s
  unfold step at hstep
  split at hstep
  next => cases hstep
  next v stack hstack =>
    cases hstep
    obtain rfl := hstack
    obtain ⟨rfl⟩ := h.path
    obtain ⟨hnot, hnodup⟩ := List.nodup_cons.mp h.nodup
    refine ⟨⟨h.size, by simpa using h.size_onPath, fun u => ?_, rfl, hnodup,
        fun u hu => h.seen u (List.mem_cons_of_mem v hu)⟩,
      rfl, by simp [measure]⟩
    have hlt := (h.seen v List.mem_cons_self).2
    rw [getD_setIfInBounds (by rw [h.size_onPath]; exact hlt), h.onPath]
    by_cases hu : u = v <;> simp_all
  next v u pending stack hstack =>
    obtain rfl := hstack
    split at hstep
    next => cases hstep
    next hnotPath =>
      cases hstep
      have hrest : Coherent g ⟨seen, onPath, path, (v, pending) :: stack⟩ :=
        ⟨h.size, h.size_onPath, h.onPath, h.path, h.nodup, h.seen⟩
      have hpath : path.contains u = false := by simpa [h.onPath] using hnotPath
      split
      next hu =>
        refine ⟨hrest, ?_, by simp [measure]⟩
        rw [resume, resume, List.foldlM_cons, descendTo, hpath, hu]
        rfl
      next hu =>
        have hu : seen.has u = false := Bool.eq_false_iff.mpr hu
        refine ⟨hrest.enter hu, resume_enter h.size hpath hu, ?_⟩
        rw [measure_enter hu]
        simp [measure]

theorem step_inr {r : Option (List Nat)} (h : Coherent g s) (hstep : step g s = .inr r) :
    foundCycle? (g.resume s.stack s.path s.seen) = r := by
  obtain ⟨seen, onPath, path, stack⟩ := s
  unfold step at hstep
  split at hstep
  next hstack =>
    cases hstep
    obtain rfl := hstack
    rfl
  next => cases hstep
  next v u pending stack hstack =>
    obtain rfl := hstack
    split at hstep
    next hon =>
      cases hstep
      have hpath : path.contains u = true := by simpa [h.onPath] using hon
      rw [resume, List.foldlM_cons, descendTo, hpath]
      rfl
    next => cases hstep

end Coherent

end CycleSearch

theorem findCycle?_eq {g : Digraph} {start : Nat} (hstart : start < g.size) :
    g.findCycle? start = foundCycle? (g.descend g.size [] start (.none g.size)) := by
  let blank : CycleSearch := ⟨.none g.size, Array.replicate g.size false, [], []⟩
  have hblank : CycleSearch.Coherent g blank :=
    ⟨size_none _, by simp [blank], by simp [blank, Array.getD], rfl, .nil, by simp [blank]⟩
  have hfresh := has_none_eq_false hstart
  have hroom : blank.measure g ≤ g.room := by
    refine (Nat.zero_add _).trans_le (roomOf_le_room fun v hv => ?_)
    have hlt := Marks.lt_of_has_eq_false (Marks.mem_free.mp hv)
    rwa [size_none, ← Finset.mem_range] at hlt
  have hbegin : g.resume (blank.enter g start).stack (blank.enter g start).path (blank.enter g start).seen =
      g.descend g.size [] start (.none g.size) := by
    rw [descend_eq_foldlM (size_none _) hfresh]
    exact bind_pure _
  obtain ⟨r, hrun, hr⟩ := Loop.exists_run (CycleSearch.step g)
    (fun s => CycleSearch.Coherent g s ∧ g.resume s.stack s.path s.seen = g.descend g.size [] start (.none g.size))
    (foundCycle? (g.descend g.size [] start (.none g.size)) = ·) (CycleSearch.measure g) (g.room + 2)
    (fun s s' hs hstep => by
      obtain ⟨hcoherent, hsame, hless⟩ := hs.1.step_inl hstep
      exact ⟨⟨hcoherent, hsame.trans hs.2⟩, hless⟩)
    (fun s r hs hstep => by rw [← hs.2]; exact hs.1.step_inr hstep)
    ⟨hblank.enter hfresh, hbegin⟩ (by rw [CycleSearch.Coherent.measure_enter hfresh]; omega)
  rw [findCycle?, if_pos hstart]
  exact (congrArg (Option.getD · none) hrun).trans hr.symm

/-- A list of nodes, each before all that it leads to. -/
inductive Settled (g : Digraph) : List Nat → Prop where
  | nil : Settled g []
  | cons {x : Nat} {done : List Nat} (hnew : x ∉ done) (hahead : ∀ w ∈ g.succ x, w < g.size → w ∈ done)
    (hdone : Settled g done) : Settled g (x :: done)

theorem Settled.ahead {g : Digraph} {done : List Nat} (h : g.Settled done) {x w : Nat} (hx : x ∈ done)
    (hw : w ∈ g.succ x) (hlt : w < g.size) : w ∈ done ∧ done.idxOf x < done.idxOf w := by
  induction h with
  | nil => simp at hx
  | @cons y done hnew hahead _ ih =>
    have hmem : w ∈ done := by
      rcases List.mem_cons.mp hx with rfl | hx
      · exact hahead w hw hlt
      · exact (ih hx).1
    have hyw : y ≠ w := fun he => hnew (he ▸ hmem)
    refine ⟨List.mem_cons_of_mem y hmem, ?_⟩
    rw [List.idxOf_cons_ne _ hyw]
    rcases List.mem_cons.mp hx with rfl | hx
    · rw [List.idxOf_cons_self]
      exact Nat.succ_pos _
    · have hyx : y ≠ x := fun he => hnew (he ▸ hx)
      rw [List.idxOf_cons_ne _ hyx]
      exact Nat.succ_lt_succ (ih hx).2

/-- A search for a cycle has come down a path and has left the nodes in `done`. -/
structure Searched (g : Digraph) (path : List Nat) (seen : Marks) (done : List Nat) : Prop where
  size : seen.bits.size = g.size
  has_iff : ∀ u, seen.has u = true ↔ u ∈ done ∨ u ∈ path ∨ g.size ≤ u
  apart : ∀ u ∈ path, u ∉ done
  settled : g.Settled done

namespace Searched

variable {g : Digraph} {path done : List Nat} {seen seen' : Marks} {v : Nat}

theorem begin (g : Digraph) : g.Searched [] (.none g.size) [] where
  size := size_none _
  has_iff u := by simp [Marks.has_none]
  apart := by simp
  settled := .nil

theorem enter (h : g.Searched path seen done) (hv : seen.has v = false) :
    g.Searched (v :: path) (seen.add v) done where
  size := (Marks.size_add seen v).trans h.size
  has_iff u := by
    rw [Marks.has_add, Bool.or_eq_true, decide_eq_true_eq, h.has_iff, List.mem_cons]
    tauto
  apart := by
    refine List.forall_mem_cons.mpr ⟨fun hm => ?_, h.apart⟩
    simp [(h.has_iff v).mpr (Or.inl hm)] at hv
  settled := h.settled

theorem leave (h : g.Searched (v :: path) seen done) (hv : v ∉ path)
    (hahead : ∀ w ∈ g.succ v, w < g.size → w ∈ done) : g.Searched path seen (v :: done) where
  size := h.size
  has_iff u := by
    rw [h.has_iff, List.mem_cons, List.mem_cons]
    tauto
  apart u hu hm := by
    rcases List.mem_cons.mp hm with rfl | hm
    · exact hv hu
    · exact h.apart u (List.mem_cons_of_mem v hu) hm
  settled := .cons (h.apart v List.mem_cons_self) hahead h.settled

theorem card_free_le {newer : List Nat} (h : g.Searched path seen done)
    (h' : g.Searched path seen' (newer ++ done)) : seen'.free.card ≤ seen.free.card :=
  Marks.card_free_le fun w hw => (h'.has_iff w).mpr (((h.has_iff w).mp hw).imp_left (List.mem_append_right newer))

end Searched

section

variable (g : Digraph)

/-- With so much room, a search that meets no cycle leaves its node and all that the node leads to. -/
def Leaves (bound : Nat) : Prop :=
  ∀ path done v seen seen', g.Searched path seen done → seen.has v = false → seen.free.card ≤ bound →
    g.descend bound path v seen = .ok seen' → ∃ new, g.Searched path seen' (new ++ done) ∧ v ∈ new

end

variable {g : Digraph} {path done : List Nat} {seen seen' : Marks} {bound : Nat}

theorem Leaves.descendTo (hleaves : g.Leaves bound) {u : Nat} (h : g.Searched path seen done)
    (hbound : seen.free.card ≤ bound) (hok : g.descendTo bound path u seen = .ok seen') :
    ∃ new, g.Searched path seen' (new ++ done) ∧ (u < g.size → u ∈ new ++ done) := by
  unfold Digraph.descendTo at hok
  split at hok
  next => cases hok
  next hcontains =>
    split at hok
    next hseen =>
      cases hok
      refine ⟨[], h, fun hlt => ?_⟩
      rcases (h.has_iff u).mp hseen with hm | hm | hge
      · exact hm
      · exact absurd (List.contains_iff_mem.mpr hm) hcontains
      · omega
    next hseen =>
      obtain ⟨new, hnew, hm⟩ := hleaves path done u seen seen' h (by simpa using hseen) hbound hok
      exact ⟨new, hnew, fun _ => List.mem_append_left done hm⟩

/-- The successors are searched one after the other, the last one first. -/
theorem Leaves.foldrM (hleaves : g.Leaves bound) (us : List Nat) (h : g.Searched path seen done)
    (hbound : seen.free.card ≤ bound) (hok : us.foldrM (g.descendTo bound path) seen = .ok seen') :
    ∃ new, g.Searched path seen' (new ++ done) ∧ ∀ u ∈ us, u < g.size → u ∈ new ++ done := by
  induction us generalizing seen' with
  | nil =>
    rw [List.foldrM_nil] at hok
    cases hok
    exact ⟨[], h, by simp⟩
  | cons u us ih =>
    rw [List.foldrM_cons] at hok
    cases hrest : us.foldrM (g.descendTo bound path) seen with
    | error c =>
      rw [hrest] at hok
      cases hok
    | ok seen₁ =>
      obtain ⟨new, hnew, hus⟩ := ih hrest
      rw [hrest] at hok
      have hroom := h.card_free_le hnew
      obtain ⟨newer, hnewer, hu⟩ := hleaves.descendTo hnew (by omega) hok
      refine ⟨newer ++ new, ?_, ?_⟩ <;> rw [List.append_assoc]
      · exact hnewer
      · exact List.forall_mem_cons.mpr ⟨hu, fun w hw hlt => List.mem_append_right newer (hus w hw hlt)⟩

theorem leaves (g : Digraph) (bound : Nat) : g.Leaves bound := by
  induction bound with
  | zero =>
    intro path done v seen seen' _ hv hbound _
    have hfree : v ∈ seen.free := Marks.mem_free.mpr hv
    rw [Finset.card_eq_zero.mp (Nat.le_zero.mp hbound)] at hfree
    simp at hfree
  | succ bound ih =>
    intro path done v seen seen' h hv hbound hok
    have hroom := Marks.card_free_add_lt hv
    have hpath : v ∉ path := fun hm => by simp [(h.has_iff v).mpr (Or.inr (Or.inl hm))] at hv
    rw [descend_succ] at hok
    obtain ⟨new, hnew, hahead⟩ := ih.foldrM (g.succ v) (h.enter hv) (by omega) hok
    exact ⟨v :: new, hnew.leave hpath hahead, List.mem_cons_self⟩

/-- If no cycle is found, every edge of the reachable part goes up in some order. -/
theorem exists_rank_of_findCycle? {g : Digraph} {start : Nat} (h : g.findCycle? start = none) :
    ∃ rank : Nat → Nat, ∀ x y, g.Reaches start x → y ∈ g.succ x → y < g.size → rank x < rank y := by
  by_cases hstart : start < g.size
  · rw [findCycle?_eq hstart] at h
    cases hok : g.descend g.size [] start (.none g.size) with
    | error c =>
      rw [hok] at h
      cases h
    | ok seen =>
      obtain ⟨done, hdone, hmem⟩ := g.leaves g.size [] [] start _ seen (.begin g) (has_none_eq_false hstart)
        (card_free_none_le _) hok
      rw [List.append_nil] at hdone
      have hreached : ∀ x, g.Reaches start x → x ∈ done := by
        rintro x ⟨p, hp⟩
        induction hp with
        | nil _ => exact hmem
        | snoc _ hm hlt ih => exact (hdone.settled.ahead ih hm hlt).1
      exact ⟨done.idxOf, fun x y hx hy hlt => (hdone.settled.ahead (hreached x hx) hy hlt).2⟩
  · refine ⟨id, fun x y hx _ _ => ?_⟩
    obtain ⟨p, hp⟩ := hx
    exact absurd hp.source_lt hstart

end Digraph

end GuardElision
