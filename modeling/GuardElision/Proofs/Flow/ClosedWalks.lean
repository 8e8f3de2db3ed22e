import GuardElision.Proofs.Flow.Cycle
import Mathlib.Data.List.Chain

namespace GuardElision

namespace Digraph

/-- A walk inside the graph along at least one edge that ends where it began. -/
structure IsCycle (g : Digraph) (walk : List Nat) : Prop where
  two_le_length : 2 ≤ walk.length
  closed : walk.head? = walk.getLast?
  edges : walk.IsChain fun a b => b ∈ g.succ a
  within : ∀ x ∈ walk, x < g.size

/-- A cycle in reach of `start` that passes no node twice before it closes. -/
structure IsSimpleCycleFrom (g : Digraph) (start : Nat) (walk : List Nat) : Prop where
  cycle : g.IsCycle walk
  nodup : walk.dropLast.Nodup
  reached : ∀ x ∈ walk, g.Reaches start x

variable {g : Digraph} {start u v : Nat} {path done us walk : List Nat} {seen : Marks} {bound : Nat}

theorem Path.isChain (h : g.Path start v path) : path.IsChain fun a b => a ∈ g.succ b := by
  induction h with
  | nil => exact List.isChain_singleton _
  | @snoc b c p hp hm _ ih =>
    cases hp <;> exact List.isChain_cons_cons.mpr ⟨hm, ih⟩

theorem closedCycle_append {front back : List Nat} (hu : u ∉ front) :
    closedCycle (front ++ u :: back) u = u :: front.reverse ++ [u] := by
  have hfront : (front ++ u :: back).takeWhile (· ≠ u) = front := by
    rw [List.takeWhile_append_of_pos]
    · simp
    · intro x hx
      exact decide_eq_true fun he => hu (he ▸ hx)
  rw [closedCycle, hfront]

/-- An edge from the top of the path back onto it closes a cycle. -/
theorem Path.closedCycle_found (hp : g.Path start v path) (hnodup : path.Nodup) (hm : u ∈ g.succ v) (hu : u ∈ path) :
    g.IsSimpleCycleFrom start (closedCycle path u) := by
  obtain ⟨front, back, rfl, hfirst⟩ := List.eq_append_cons_of_mem hu
  rw [closedCycle_append hfirst]
  have hmem : ∀ x ∈ u :: front.reverse ++ [u], x ∈ front ++ u :: back := by
    intro x hx
    simp only [List.cons_append, List.mem_cons, List.mem_append, List.mem_reverse, List.not_mem_nil, or_false] at hx ⊢
    tauto
  refine ⟨⟨by simp, ?_, ?_, fun x hx => hp.lt_of_mem (hmem x hx)⟩, ?_, ?_⟩
  · rw [List.getLast?_concat, List.cons_append, List.head?_cons]
  · -- Read backwards, the cycle is the path with the edge on top, cut off below `u`.
    have hchain := (hp.snoc hm (hp.lt_of_mem hu)).isChain
    have hcut : (u :: (front ++ [u])).IsChain fun a b => a ∈ g.succ b :=
      hchain.prefix ⟨back, by simp⟩
    have hback : (u :: front.reverse ++ [u]) = (u :: (front ++ [u])).reverse := by simp
    rw [hback, List.isChain_reverse]
    exact hcut
  · have hfront : (front ++ [u]).Nodup := hnodup.sublist (by simp)
    have hdrop : (u :: front.reverse ++ [u]).dropLast = (front ++ [u]).reverse := by
      rw [List.dropLast_concat, List.reverse_append, List.reverse_singleton, List.singleton_append]
    rw [hdrop]
    exact List.nodup_reverse.mpr hfront
  · intro x hx
    obtain ⟨q, _, hq, _⟩ := hp.split (hmem x hx)
    exact ⟨q, hq⟩

section

variable (g)

/-- With so much room, a search that comes down a path from `start` fails with cycles only. -/
def Finds (start bound : Nat) : Prop :=
  ∀ path done v seen walk, g.Searched path seen done → seen.has v = false → seen.free.card ≤ bound →
    g.Path start v (v :: path) → (v :: path).Nodup → g.descend bound path v seen = .error walk →
      g.IsSimpleCycleFrom start walk

end

theorem Finds.descendTo (hfinds : g.Finds start bound) (h : g.Searched path seen done)
    (hbound : seen.free.card ≤ bound) (hp : g.Path start v path) (hnodup : path.Nodup) (hm : u ∈ g.succ v)
    (herror : g.descendTo bound path u seen = .error walk) : g.IsSimpleCycleFrom start walk := by
  unfold Digraph.descendTo at herror
  split at herror
  next hcontains =>
    cases herror
    exact hp.closedCycle_found hnodup hm (List.contains_iff_mem.mp hcontains)
  next hcontains =>
    split at herror
    next => cases herror
    next hseen =>
      have hunseen : seen.has u = false := by simpa using hseen
      have hlt : u < g.size := h.size ▸ Marks.lt_of_has_eq_false hunseen
      have hfresh : u ∉ path := fun hu => hcontains (List.contains_iff_mem.mpr hu)
      exact hfinds path done u seen walk h hunseen hbound (hp.snoc hm hlt) (List.nodup_cons.mpr ⟨hfresh, hnodup⟩) herror

/-- The first failure among the successors comes after searches that found nothing. -/
theorem Finds.foldrM (hfinds : g.Finds start bound) (h : g.Searched path seen done)
    (hbound : seen.free.card ≤ bound) (hp : g.Path start v path) (hnodup : path.Nodup) (hus : ∀ u ∈ us, u ∈ g.succ v)
    (herror : us.foldrM (g.descendTo bound path) seen = .error walk) : g.IsSimpleCycleFrom start walk := by
  induction us with
  | nil => cases herror
  | cons u us ih =>
    obtain ⟨hu, hrest⟩ := List.forall_mem_cons.mp hus
    rw [List.foldrM_cons] at herror
    cases hbefore : us.foldrM (g.descendTo bound path) seen with
    | error w =>
      rw [hbefore] at herror
      cases herror
      exact ih hrest hbefore
    | ok seen₁ =>
      rw [hbefore] at herror
      obtain ⟨new, hnew, _⟩ := (g.leaves bound).foldrM us h hbound hbefore
      have hroom := h.card_free_le hnew
      exact hfinds.descendTo hnew (by omega) hp hnodup hu herror

theorem finds (g : Digraph) (start bound : Nat) : g.Finds start bound := by
  induction bound with
  | zero =>
    intro path done v seen walk _ _ _ _ _ herror
    cases herror
  | succ bound ih =>
    intro path done v seen walk h hv hbound hp hnodup herror
    have hroom := Marks.card_free_add_lt hv
    rw [descend_succ] at herror
    exact ih.foldrM (h.enter hv) (by omega) hp hnodup (fun _ hu => hu) herror

theorem findCycle?_found (h : g.findCycle? start = some walk) : g.IsSimpleCycleFrom start walk := by
  by_cases hstart : start < g.size
  · rw [findCycle?_eq hstart] at h
    cases herror : g.descend g.size [] start (.none g.size) with
    | error cycle =>
      rw [herror] at h
      cases h
      exact g.finds start g.size [] [] start _ walk (.begin g) (has_none_eq_false hstart) (card_free_none_le g.size)
        (.nil hstart) (List.nodup_singleton start) herror
    | ok seen =>
      rw [herror] at h
      cases h
  · rw [findCycle?, if_neg hstart] at h
    cases h

theorem IsCycle.reached (h : g.IsCycle walk) {x : Nat} (hx : x ∈ walk) (hr : g.Reaches start x) :
    ∀ y ∈ walk, g.Reaches start y := by
  have hchain : walk.IsChain fun a b => b ∈ g.succ a ∧ b < g.size :=
    h.edges.imp_of_mem_imp fun a b _ hb hm => ⟨hm, h.within b hb⟩
  have hcarry : ∀ ⦃a b⦄, b ∈ g.succ a ∧ b < g.size → g.Reaches start a → g.Reaches start b :=
    fun a b hab ha => ha.snoc hab.1 hab.2
  obtain ⟨before, after, rfl⟩ := List.append_of_mem hx
  have hafter : ∀ y ∈ x :: after, g.Reaches start y :=
    hchain.right_of_append.induction _ _ hcarry fun _ => hr
  apply hchain.induction _ _ hcarry
  intro hne
  have hlast : (before ++ x :: after).getLast? = (x :: after).getLast? := by
    rw [List.getLast?_append_of_ne_nil _ (List.cons_ne_nil x after)]
  have hhead := h.closed.trans hlast
  rw [List.head?_eq_some_head hne] at hhead
  exact hafter _ (List.mem_of_getLast? hhead.symm)

theorem IsCycle.not_ascending (h : g.IsCycle walk) {rank : Nat → Nat}
    (hup : ∀ x ∈ walk, ∀ y ∈ g.succ x, y < g.size → rank x < rank y) : False := by
  have hchain : walk.IsChain fun a b => rank a < rank b :=
    h.edges.imp_of_mem_imp fun a b ha hb hm => hup a ha b hm (h.within b hb)
  have hsorted : (walk.map rank).Pairwise (· < ·) := List.isChain_iff_pairwise.mp ((List.isChain_map rank).mpr hchain)
  cases walk with
  | nil =>
    have hlength := h.two_le_length
    simp at hlength
  | cons a rest =>
    have hne : rest ≠ [] := by
      rintro rfl
      have hlength := h.two_le_length
      simp at hlength
    have hclosed := h.closed
    rw [List.head?_cons, List.getLast?_cons_of_ne_nil hne] at hclosed
    have hmem := List.mem_of_getLast? hclosed.symm
    have hlt := (List.pairwise_cons.mp hsorted).1 (rank a) (List.mem_map_of_mem hmem)
    omega

/-- The search for a cycle, on any graph and from any node: it finds one exactly if a cycle can be
reached, and the list that it returns is a cycle in reach that passes no node twice before it closes. -/
theorem findCycle?_exact (g : Digraph) (start : Nat) :
    ((g.findCycle? start).isSome = true ↔ ∃ walk, g.IsCycle walk ∧ ∃ x ∈ walk, g.Reaches start x) ∧
    ∀ walk, g.findCycle? start = some walk →
      2 ≤ walk.length ∧ walk.head? = walk.getLast? ∧ walk.dropLast.Nodup ∧
      walk.IsChain (fun a b => b ∈ g.succ a) ∧ ∀ x ∈ walk, g.Reaches start x := by
  refine ⟨⟨fun hsome => ?_, fun ⟨walk, hcycle, x, hx, hr⟩ => ?_⟩, fun walk hfound => ?_⟩
  · obtain ⟨walk, hfound⟩ := Option.isSome_iff_exists.mp hsome
    have hwalk := findCycle?_found hfound
    obtain ⟨x, hx⟩ := List.exists_mem_of_length_pos (Nat.lt_of_lt_of_le Nat.zero_lt_two hwalk.cycle.two_le_length)
    exact ⟨walk, hwalk.cycle, x, hx, hwalk.reached x hx⟩
  · by_contra hnone
    obtain ⟨rank, hrank⟩ := exists_rank_of_findCycle? (Option.not_isSome_iff_eq_none.mp hnone)
    exact hcycle.not_ascending fun y hy z => hrank y z (hcycle.reached hx hr y hy)
  · have hwalk := findCycle?_found hfound
    exact ⟨hwalk.cycle.two_le_length, hwalk.cycle.closed, hwalk.nodup, hwalk.cycle.edges, hwalk.reached⟩

end Digraph

end GuardElision
