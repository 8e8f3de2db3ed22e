import GuardElision.Cleanup.Whole
import GuardElision.Proofs.Cleanup.Orphans
import GuardElision.Proofs.Cleanup.Prune
import GuardElision.Proofs.Elimination.Rounds
import Mathlib.Data.Finset.Card

namespace GuardElision

section Loop

variable {σ ρ : Type} {step : σ → σ ⊕ ρ} {s : σ} {r r' : ρ} {n m : Nat}

/-- The loop that repeats `step` stops after `n` more repetitions, with the result `r`. -/
inductive StopsAfter (step : σ → σ ⊕ ρ) : Nat → σ → ρ → Prop
  | now {s : σ} {r : ρ} (h : step s = .inr r) : StopsAfter step 0 s r
  | later {n : Nat} {s s' : σ} {r : ρ} (h : step s = .inl s') (rest : StopsAfter step n s' r) :
    StopsAfter step (n + 1) s r

namespace StopsAfter

theorem unique (h : StopsAfter step n s r) (h' : StopsAfter step m s r') : n = m ∧ r = r' := by
  induction h generalizing m with
  | now hs =>
    cases h' with
    | now hs' => exact ⟨rfl, Sum.inr.inj (hs.symm.trans hs')⟩
    | later hs' => cases hs.symm.trans hs'
  | later hs _ ih =>
    cases h' with
    | now hs' => cases hs.symm.trans hs'
    | later hs' rest =>
      cases Sum.inl.inj (hs.symm.trans hs')
      obtain ⟨rfl, rfl⟩ := ih rest
      exact ⟨rfl, rfl⟩

theorem exists_last (h : StopsAfter step n s r) : ∃ t, step t = .inr r := by
  induction h with
  | now hs => exact ⟨_, hs⟩
  | later _ _ ih => exact ih

/-- A loop that stops is in no state twice, so it is short if the states it can be in are few. -/
theorem le_card [DecidableEq σ] {A : Finset σ} (hA : ∀ s s', step s = .inl s' → s ∈ A) (h : StopsAfter step n s r) :
    n ≤ A.card := by
  suffices hseen : ∃ B ⊆ A, B.card = n ∧ ∀ t ∈ B, ∃ k ≤ n, StopsAfter step k t r by
    obtain ⟨B, hsub, rfl, _⟩ := hseen
    exact Finset.card_le_card hsub
  induction h with
  | now => exact ⟨∅, by simp, rfl, by simp⟩
  | @later n s s' r hs rest ih =>
    obtain ⟨B, hsub, hcard, hB⟩ := ih
    have hs' : StopsAfter step (n + 1) s r := .later hs rest
    have hnew : s ∉ B := by
      intro hmem
      obtain ⟨k, hk, hstop⟩ := hB s hmem
      have heq := (hs'.unique hstop).1
      omega
    refine ⟨insert s B, Finset.insert_subset (hA s s' hs) hsub, by rw [Finset.card_insert_of_notMem hnew, hcard], ?_⟩
    intro t ht
    rcases Finset.mem_insert.mp ht with rfl | ht
    · exact ⟨n + 1, Nat.le_refl _, hs'⟩
    · obtain ⟨k, hk, hstop⟩ := hB t ht
      exact ⟨k, Nat.le_succ_of_le hk, hstop⟩

/-- A bounded loop whose measure falls with every repetition stops by itself, if the bound is no less than
the measure. -/
theorem of_bounded {f : Nat → σ → ρ} {measure : σ → Nat}
    (hzero : ∀ s, measure s = 0 → step s = .inr (f 0 s))
    (hsucc : ∀ bound s, f (bound + 1) s = Sum.elim (f bound) (fun r => r) (step s))
    (hless : ∀ s s', step s = .inl s' → measure s' < measure s) {bound : Nat} (hbound : measure s ≤ bound) :
    ∃ n ≤ bound, StopsAfter step n s (f bound s) := by
  induction bound generalizing s with
  | zero => exact ⟨0, Nat.le_refl _, .now (hzero s (Nat.le_zero.mp hbound))⟩
  | succ bound ih =>
    rw [hsucc]
    cases hs : step s with
    | inr r => exact ⟨0, Nat.zero_le _, .now hs⟩
    | inl s' =>
      have hlt := hless s s' hs
      obtain ⟨n, hn, hstop⟩ := ih (s := s') (by omega)
      exact ⟨n + 1, Nat.succ_le_succ hn, .later hs hstop⟩

end StopsAfter

end Loop

namespace Sweep

variable {g : Graph} {control id : NodeId}

def pruneStep : List NodeId × Sweep → (List NodeId × Sweep) ⊕ EStateM.Result Fault Sweep Unit
  | ([], s) => .inr (.ok () s)
  | (id :: rest, s) =>
    match pruneNode id s with
    | .ok next s' => .inl (next.reverse ++ rest, s')
    | .error e s' => .inr (.error e s')

theorem prune_succ (bound : Nat) (w : List NodeId × Sweep) :
    prune (bound + 1) w.1 w.2 = Sum.elim (fun w => prune bound w.1 w.2) (fun r => r) (pruneStep w) := by
  obtain ⟨_ | ⟨id, rest⟩, s⟩ := w
  · rfl
  · obtain ⟨next, s', hnode⟩ := pruneNode_succeeds id s
    simp only [pruneStep, hnode, Sum.elim_inl]
    exact Attempt.bind_of_ok hnode

/-- The stack of control nodes runs empty, whatever the graph is like. -/
theorem prune_stops (stack : List NodeId) (s : Sweep) :
    ∃ n ≤ stack.length + edgeCount s.graph,
      StopsAfter pruneStep n (stack, s) (prune (stack.length + edgeCount s.graph) stack s) := by
  let size : List NodeId × Sweep → Nat := fun w => w.1.length + edgeCount w.2.graph
  have hzero : ∀ w, size w = 0 → pruneStep w = .inr (prune 0 w.1 w.2) := by
    rintro ⟨_ | ⟨id, rest⟩, s⟩ hw
    · rfl
    · simp [size] at hw
  have hless : ∀ w w', pruneStep w = .inl w' → size w' < size w := by
    rintro ⟨_ | ⟨id, rest⟩, s⟩ w' hw
    · cases hw
    · obtain ⟨next, s', hnode⟩ := pruneNode_succeeds id s
      simp only [pruneStep, hnode] at hw
      cases hw
      exact pruneNode_less hnode rest
  exact StopsAfter.of_bounded (f := fun bound w => prune bound w.1 w.2) hzero prune_succ hless
    (Nat.le_refl (size (stack, s)))

def orphanStep : List NodeId × Sweep → (List NodeId × Sweep) ⊕ Sweep
  | ([], s) => .inr s
  | (id :: rest, s) =>
    let work := (if s.graph.isLive id then [id] else s.graph.usages id).foldl dropOrphan (s, rest)
    .inl (work.2, work.1)

theorem dropOrphans_succ (bound : Nat) (w : List NodeId × Sweep) :
    dropOrphans (bound + 1) w.1 w.2 = Sum.elim (fun w => dropOrphans bound w.1 w.2) (fun s => s) (orphanStep w) := by
  obtain ⟨_ | ⟨id, rest⟩, s⟩ := w <;> rfl

/-- The stack of removed nodes runs empty. -/
theorem dropOrphans_stops (stack : List NodeId) (s : Sweep) :
    ∃ n ≤ stack.length + s.graph.liveCount,
      StopsAfter orphanStep n (stack, s) (dropOrphans (stack.length + s.graph.liveCount) stack s) := by
  let size : List NodeId × Sweep → Nat := fun w => w.1.length + w.2.graph.liveCount
  have hzero : ∀ w, size w = 0 → orphanStep w = .inr (dropOrphans 0 w.1 w.2) := by
    rintro ⟨_ | ⟨id, rest⟩, s⟩ hw
    · rfl
    · simp [size] at hw
  have hless : ∀ w w', orphanStep w = .inl w' → size w' < size w := by
    rintro ⟨_ | ⟨id, rest⟩, s⟩ w' hw <;> cases hw
    refine Nat.lt_of_le_of_lt (foldl_dropOrphan_count _ (s, rest)) ?_
    simp only [size, List.length_cons]
    omega
  exact StopsAfter.of_bounded (f := fun bound w => dropOrphans bound w.1 w.2) hzero dropOrphans_succ hless
    (Nat.le_refl (size (stack, s)))

def memoryStep (g : Graph) (control id : NodeId) : NodeId ⊕ Except Fault NodeId :=
  match g.kind? id with
  | none => .inr (.error (.internal (.memoryWalkRemoved id)))
  | some kind =>
    if kind.killsMemory then .inr (.ok id)
    else
      match (g.forwardPredecessors id).head? with
      | none => .inr (.error (.internal (.noMemoryAbove control)))
      | some above => .inl above

theorem memoryAbove_succ (g : Graph) (control : NodeId) (bound : Nat) (id : NodeId) :
    memoryAbove g control (bound + 1) id =
      Sum.elim (memoryAbove g control bound) (fun r => r) (memoryStep g control id) := by
  unfold memoryStep
  rw [memoryAbove]
  cases g.kind? id with
  | none => rfl
  | some kind =>
    simp only [expect, bind, Except.bind]
    split
    next => rfl
    next =>
      cases (g.forwardPredecessors id).head? with
      | none => rfl
      | some above => rfl

theorem memoryAbove_of_stops {n bound : Nat} {r : Except Fault NodeId} (h : StopsAfter (memoryStep g control) n id r)
    (hbound : n < bound) : memoryAbove g control bound id = r := by
  induction h generalizing bound with
  | now hs =>
    obtain ⟨bound, rfl⟩ := Nat.exists_eq_add_one_of_ne_zero (Nat.ne_of_gt hbound)
    rw [memoryAbove_succ, hs, Sum.elim_inr]
  | later hs _ ih =>
    obtain ⟨bound, rfl⟩ := Nat.exists_eq_add_one_of_ne_zero (Nat.ne_of_gt (Nat.zero_lt_of_lt hbound))
    rw [memoryAbove_succ, hs]
    exact ih (Nat.lt_of_succ_lt_succ hbound)

theorem stops_of_memoryAbove {bound : Nat} (h : memoryAbove g control bound id ≠ .error (.endless control)) :
    ∃ n < bound, StopsAfter (memoryStep g control) n id (memoryAbove g control bound id) := by
  induction bound generalizing id with
  | zero => exact absurd rfl h
  | succ bound ih =>
    rw [memoryAbove_succ] at h ⊢
    cases hs : memoryStep g control id with
    | inr r => exact ⟨0, Nat.succ_pos _, .now hs⟩
    | inl above =>
      rw [hs] at h
      obtain ⟨n, hn, hstop⟩ := ih h
      exact ⟨n + 1, Nat.succ_lt_succ hn, .later hs hstop⟩

theorem not_endless_of_memoryStep {r : Except Fault NodeId} (h : memoryStep g control id = .inr r) (node : NodeId) :
    r ≠ .error (.endless node) := by
  unfold memoryStep at h
  split at h
  next => cases h; nofun
  next =>
    split at h
    next => cases h; nofun
    next =>
      split at h
      next => cases h; nofun
      next => cases h

theorem mem_of_memoryStep {above : NodeId} (h : memoryStep g control id = .inl above) :
    ∃ n, g.get? id = some n ∧ above ∈ g.forwardPredecessors id := by
  unfold memoryStep at h
  split at h
  next => cases h
  next kind hk =>
    obtain ⟨n, hn, _⟩ := Graph.kind?_eq_some_iff.mp hk
    split at h
    next => cases h
    next =>
      split at h
      next => cases h
      next hhead =>
        cases h
        exact ⟨n, hn, List.mem_of_head? hhead⟩

/-- The walk to a memory state stops with the result that is given, and if it is called endless it does not
stop. Nodes on the way are live, so a walk that stops takes no more steps than there are slots. -/
theorem memoryState_stops (g : Graph) (control : NodeId) :
    (∀ n r, StopsAfter (memoryStep g control) n control r → n ≤ g.capacity ∧ memoryState g control = r) ∧
      (memoryState g control = .error (.endless control) ↔ ∀ n r, ¬StopsAfter (memoryStep g control) n control r) := by
  have hforth : ∀ n r, StopsAfter (memoryStep g control) n control r → n ≤ g.capacity ∧ memoryState g control = r := by
    intro n r hstop
    have hle : n ≤ (Finset.range g.capacity).card :=
      hstop.le_card fun id above hs => by
        obtain ⟨n, hn, _⟩ := mem_of_memoryStep hs
        exact Finset.mem_range.mpr (Graph.lt_capacity hn)
    rw [Finset.card_range] at hle
    exact ⟨hle, memoryAbove_of_stops hstop (Nat.lt_succ_of_le hle)⟩
  refine ⟨hforth, fun hend n r hstop => ?_, fun hnever => ?_⟩
  · have hr := (hforth n r hstop).2.symm.trans hend
    obtain ⟨id, hs⟩ := hstop.exists_last
    exact not_endless_of_memoryStep hs control hr
  · by_contra hne
    obtain ⟨n, _, hstop⟩ := stops_of_memoryAbove hne
    exact hnever n _ hstop

end Sweep

namespace Round

def unusedStep (method : Option MethodId) (r : Round) : Round ⊕ Round :=
  if unused r.graph = [] then .inr r else .inl ((unused r.graph).foldl (dropUnused method) r)

theorem sweepUnused_succ (method : Option MethodId) (bound : Nat) (r : Round) :
    sweepUnused method (bound + 1) r = Sum.elim (sweepUnused method bound) (fun r => r) (unusedStep method r) := by
  rw [sweepUnused, unusedStep]
  split
  next hnone => rw [if_pos hnone, Sum.elim_inr]
  next hsome => rw [if_neg hsome, Sum.elim_inl]

/-- Some pass finds no unused value. -/
theorem sweepUnused_stops (method : Option MethodId) (r : Round) :
    ∃ n ≤ r.graph.liveCount, StopsAfter (unusedStep method) n r (sweepUnused method r.graph.liveCount r) := by
  have hless : ∀ r r', unusedStep method r = .inl r' → r'.graph.liveCount < r.graph.liveCount := by
    intro r r' hr
    rw [unusedStep] at hr
    split at hr
    next => cases hr
    next hsome =>
      cases hr
      obtain ⟨id, hid⟩ := List.exists_mem_of_ne_nil _ hsome
      obtain ⟨n, hn, _⟩ := exists_of_mem_unused hid
      rw [foldl_dropUnused_graph]
      exact Graph.liveCount_foldl_delete_lt hid hn
  have hzero : ∀ r : Round, r.graph.liveCount = 0 → unusedStep method r = .inr (sweepUnused method 0 r) := by
    intro r hr
    cases hs : unusedStep method r with
    | inl r' => exact absurd (hless r r' hs) (by omega)
    | inr r' =>
      rw [unusedStep] at hs
      split at hs
      next => exact hs.symm
      next => cases hs
  exact StopsAfter.of_bounded hzero (sweepUnused_succ method) hless (Nat.le_refl _)

end Round

end GuardElision
