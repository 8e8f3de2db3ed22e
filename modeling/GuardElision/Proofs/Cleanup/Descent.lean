import GuardElision.Proofs.Cleanup.Loops
import GuardElision.Proofs.Graph.Turns

/-!
Control nodes have ranks that grow along forward edges. A loop header that only loop ends lead to must not
become a plain step, since the way up from it would then go around the loop; it waits until it goes.
-/

namespace GuardElision

namespace Graph

variable {g h k : Graph} {rank : NodeId → Nat} {u t : NodeId} {waiting still : List NodeId}

/-- Ranks grow along forward control edges, which are listed at both ends; nodes that are added later have
the highest ranks. Only loop headers have loop ends among their predecessors, and no guard stands at a loop
end. -/
structure RankedBy (rank : NodeId → Nat) (g : Graph) : Prop where
  fresh : ∀ c s, g.capacity ≤ s → c < s → rank c < rank s
  loose : ∀ x n, g.get? x = some n → n.kind.isControl = false → n.successors = []
  below : ∀ c n, g.get? c = some n → ∀ s ∈ n.successors, s < g.capacity
  above : ∀ c n, g.get? c = some n → n.kind.isControl = true → ∀ p ∈ n.predecessors, p < g.capacity
  listed : ∀ c n p m, g.get? c = some n → n.kind.isControl = true → g.get? p = some m →
    n.predecessors.count p ≤ m.successors.count c
  forward : ∀ c n p m, g.get? c = some n → n.kind.isControl = true → g.get? p = some m → p ∈ n.predecessors →
    m.kind ≠ .loopEnd → rank p < rank c
  header : ∀ c n p m, g.get? c = some n → n.kind.isControl = true → g.get? p = some m → p ∈ n.predecessors →
    m.kind = .loopEnd → n.kind = .loopBegin
  post : ∀ q n a m, g.get? q = some n → n.kind.isGuard = true → n.anchor = some a → g.get? a = some m →
    m.kind.isControl = true ∧ m.kind ≠ .loopEnd

/-- Something other than a loop end leads to every merge, unless the merge waits to be looked at. -/
def MergesEntered (g : Graph) (waiting : List NodeId) : Prop :=
  ∀ c n, g.get? c = some n → n.kind.isMerge = true →
    (∃ p m, p ∈ n.predecessors ∧ g.get? p = some m ∧ m.kind ≠ .loopEnd) ∨ c ∈ waiting

namespace RankedBy

variable (F : g.RankedBy rank) {c p : NodeId} {n m : Node}

include F

theorem mem_successors (hn : g.get? c = some n) (hk : n.kind.isControl = true) (hm : g.get? p = some m)
    (hp : p ∈ n.predecessors) : c ∈ m.successors :=
  List.count_pos_iff.mp (Nat.lt_of_lt_of_le (List.count_pos_iff.mpr hp) (F.listed c n p m hn hk hm))

theorem isControl (hn : g.get? c = some n) (hk : n.kind.isControl = true) (hm : g.get? p = some m)
    (hp : p ∈ n.predecessors) : m.kind.isControl = true := by
  by_contra hfloat
  have hmem := F.mem_successors hn hk hm hp
  rw [F.loose p m hm (by simpa using hfloat)] at hmem
  cases hmem

/-- No loop end leads forward to a node. -/
theorem of_mem_forwardPredecessors (hn : g.get? c = some n) (hk : n.kind.isControl = true)
    (hp : p ∈ g.forwardPredecessors c) : p ∈ n.predecessors ∧ ∀ m, g.get? p = some m → m.kind ≠ .loopEnd := by
  simp only [forwardPredecessors, hn] at hp
  obtain ⟨hp, hno⟩ := List.mem_filter.mp hp
  refine ⟨hp, fun m hm hend => ?_⟩
  have hkind : g.kind? p = some .loopEnd := kind?_eq_some_iff.mpr ⟨m, hm, hend⟩
  simp [F.header c n p m hn hk hm hp hend, hkind] at hno

/-- The walk to a memory state goes down in rank, so it comes to an end. -/
theorem memoryStep_stops (control : NodeId) (hc : ∀ n, g.get? c = some n → n.kind.isControl = true) :
    ∃ k r, StopsAfter (Sweep.memoryStep g control) k c r := by
  induction hr : rank c using Nat.strong_induction_on generalizing c with
  | _ r ih =>
    cases hs : Sweep.memoryStep g control c with
    | inr r => exact ⟨0, r, .now hs⟩
    | inl above =>
      obtain ⟨n, hn, hmem⟩ := Sweep.mem_of_memoryStep hs
      obtain ⟨hp, hend⟩ := F.of_mem_forwardPredecessors hn (hc n hn) hmem
      cases hm : g.get? above with
      | none =>
        have hgone : g.kind? above = none := by simp [kind?, hm]
        refine ⟨1, .error (.internal (.memoryWalkRemoved above)), .later hs (.now ?_)⟩
        simp only [Sweep.memoryStep, hgone]
      | some m =>
        have hlt := F.forward c n above m hn (hc n hn) hm hp (hend m hm)
        have hk := F.isControl hn (hc n hn) hm hp
        obtain ⟨k, r, hstop⟩ := ih (rank above) (hr ▸ hlt) (c := above) (fun m' hm' => by cases hm.symm.trans hm'; exact hk) rfl
        exact ⟨k + 1, r, .later hs hstop⟩

end RankedBy

/-- A merge was a merge before, and a loop header stays one unless no loop end leads to it. -/
def Heads (g h : Graph) : Prop :=
  ∀ x n m, h.get? x = some n → g.get? x = some m → (n.kind.isMerge = true → m.kind.isMerge = true) ∧
    (m.kind = .loopBegin → n.kind = .loopBegin ∨ ∀ p ∈ m.predecessors, g.kind? p ≠ some .loopEnd)

theorem Heads.of_kind (hkind : ∀ x n m, h.get? x = some n → g.get? x = some m → n.kind = m.kind) : Heads g h := by
  intro x n m hn hm
  rw [hkind x n m hn hm]
  exact ⟨id, Or.inl⟩

/-- A kind that is set, in the place of one that is no merge. -/
theorem Heads.setKind {id : NodeId} {kind : Kind} {inputs : List NodeId} (hkind : kind.isMerge = false)
    (hid : ∀ n, g.get? id = some n → n.kind.isMerge = false) : Heads g (g.setKind id kind inputs) := by
  intro x n m hn hm
  rw [get?_setKind, hm, Option.map_some] at hn
  obtain rfl := Option.some.inj hn
  split
  next hx =>
    refine ⟨fun hmerge => by simp [hkind] at hmerge, fun hloop => ?_⟩
    have hno := hid m (hx ▸ hm)
    simp [hloop, Kind.isMerge] at hno
  next => exact ⟨fun hmerge => hmerge, Or.inl⟩

theorem RankedBy.lighter (F : g.RankedBy rank) (L : Lighter g h) (K : Heads g h) : h.RankedBy rank := by
  refine ⟨fun c s hs => F.fresh c s (L.capacity ▸ hs), fun x n hn hk => ?_, fun c n hn s hs => ?_, fun c n hn hk p hp => ?_,
    fun c n p m hn hk hm => ?_, fun c n p m hn hk hm hp hend => ?_, fun c n p m hn hk hm hp hend => ?_,
    fun q n a m hn hk ha hm => ?_⟩
  · obtain ⟨m, hm, hsort, _, hsucc, _⟩ := L.node x n hn
    exact hsucc.trans (F.loose x m hm (hsort.control ▸ hk))
  · obtain ⟨m, hm, _, _, hsucc, _⟩ := L.node c n hn
    exact L.capacity ▸ F.below c m hm s (hsucc ▸ hs)
  · obtain ⟨m, hm, hsort, _, _, hpred⟩ := L.node c n hn
    exact L.capacity ▸ F.above c m hm (hsort.control ▸ hk) p (hpred ▸ hp)
  · obtain ⟨n', hn', hsort, _, _, hpred⟩ := L.node c n hn
    obtain ⟨m', hm', _, _, hsucc, _⟩ := L.node p m hm
    rw [hpred, hsucc]
    exact F.listed c n' p m' hn' (hsort.control ▸ hk) hm'
  · obtain ⟨n', hn', hsort, _, _, hpred⟩ := L.node c n hn
    obtain ⟨m', hm', hsort', _⟩ := L.node p m hm
    exact F.forward c n' p m' hn' (hsort.control ▸ hk) hm' (hpred ▸ hp) fun he => hend (hsort'.loopEnd.mpr he)
  · obtain ⟨n', hn', hsort, _, _, hpred⟩ := L.node c n hn
    obtain ⟨m', hm', hsort', _⟩ := L.node p m hm
    have hend' := hsort'.loopEnd.mp hend
    have hloop := F.header c n' p m' hn' (hsort.control ▸ hk) hm' (hpred ▸ hp) hend'
    refine ((K c n n' hn hn').2 hloop).resolve_right fun hno => ?_
    exact hno p (hpred ▸ hp) (kind?_eq_some_iff.mpr ⟨m', hm', hend'⟩)
  · obtain ⟨n', hn', hsort, hanchor, _⟩ := L.node q n hn
    obtain ⟨m', hm', hsort', _⟩ := L.node a m hm
    obtain ⟨hctl, hno⟩ := F.post q n' a m' hn' (hsort.guard ▸ hk) (hanchor ▸ ha) hm'
    exact ⟨hsort'.control.trans hctl, fun he => hno (hsort'.loopEnd.mp he)⟩

theorem RankedBy.withoutEdge {index? : Option Nat} (F : g.RankedBy rank) (hcap : h.capacity = g.capacity)
    (hview : ∀ j, h.get? j = (g.get? j).map (Graph.withoutEdge u t index? j)) : h.RankedBy rank := by
  have hpred : ∀ c (n : Node), (Graph.withoutEdge u t index? c n).predecessors ⊆ n.predecessors := by
    intro c n p hp
    simp only [Graph.withoutEdge] at hp
    split at hp
    · exact List.mem_of_mem_erase hp
    · exact hp
  have hsucc : ∀ c (n : Node), (Graph.withoutEdge u t index? c n).successors ⊆ n.successors := by
    intro c n s hs
    simp only [Graph.withoutEdge] at hs
    split at hs
    · exact List.mem_of_mem_erase hs
    · exact hs
  refine ⟨fun c s hs => F.fresh c s (hcap ▸ hs), fun x n hn hk => ?_, fun c n hn s hs => ?_, fun c n hn hk p hp => ?_,
    fun c n p m hn hk hm => ?_, fun c n p m hn hk hm hp hend => ?_, fun c n p m hn hk hm hp hend => ?_,
    fun q n a m hn hk ha hm => ?_⟩
  · obtain ⟨n, hn', rfl⟩ := exists_of_withoutEdge hview hn
    exact List.subset_nil.mp (F.loose x n hn' hk ▸ hsucc x n)
  · obtain ⟨n, hn', rfl⟩ := exists_of_withoutEdge hview hn
    exact hcap ▸ F.below c n hn' s (hsucc c n hs)
  · obtain ⟨n, hn', rfl⟩ := exists_of_withoutEdge hview hn
    exact hcap ▸ F.above c n hn' hk p (hpred c n hp)
  · obtain ⟨n, hn', rfl⟩ := exists_of_withoutEdge hview hn
    obtain ⟨m, hm', rfl⟩ := exists_of_withoutEdge hview hm
    have hle := F.listed c n p m hn' hk hm'
    -- one entry goes at both ends of the edge, or one that no entry answers to
    simp only [Graph.withoutEdge]
    by_cases hc : c = t <;> by_cases hp : p = u
    · rw [if_pos hc, if_pos hp, hp, hc, List.count_erase_self, List.count_erase_self]
      rw [hp, hc] at hle
      omega
    · rw [if_pos hc, if_neg hp, List.count_erase_of_ne hp]
      exact hle
    · rw [if_neg hc, if_pos hp, List.count_erase_of_ne hc]
      exact hle
    · rw [if_neg hc, if_neg hp]
      exact hle
  · obtain ⟨n, hn', rfl⟩ := exists_of_withoutEdge hview hn
    obtain ⟨m, hm', rfl⟩ := exists_of_withoutEdge hview hm
    exact F.forward c n p m hn' hk hm' (hpred c n hp) hend
  · obtain ⟨n, hn', rfl⟩ := exists_of_withoutEdge hview hn
    obtain ⟨m, hm', rfl⟩ := exists_of_withoutEdge hview hm
    exact F.header c n p m hn' hk hm' (hpred c n hp) hend
  · obtain ⟨n, hn', rfl⟩ := exists_of_withoutEdge hview hn
    obtain ⟨m, hm', rfl⟩ := exists_of_withoutEdge hview hm
    exact F.post q n a m hn' hk ha hm'

theorem MergesEntered.mono (W : g.MergesEntered waiting)
    (hstill : ∀ c ∈ waiting, ∀ n, g.get? c = some n → n.kind.isMerge = true → c ∈ still) :
    g.MergesEntered still :=
  fun c n hn hk => (W c n hn hk).imp_right fun hc => hstill c hc n hn hk

theorem MergesEntered.lighter (W : g.MergesEntered waiting) (F : g.RankedBy rank) (L : Lighter g h) (K : Heads g h)
    (hgone : ∀ p m, g.get? p = some m → h.get? p = none → ∀ c ∈ m.successors, c ∈ waiting) :
    h.MergesEntered waiting := by
  intro c n hn hk
  obtain ⟨n', hn', _, _, _, hpred⟩ := L.node c n hn
  have hmerge := (K c n n' hn hn').1 hk
  refine (W c n' hn' hmerge).elim (fun ⟨p, m, hp, hm, hend⟩ => ?_) Or.inr
  cases hm' : h.get? p with
  | none => exact Or.inr (hgone p m hm hm' c (F.mem_successors hn' (Kind.isControl_of_isMerge hmerge) hm hp))
  | some l =>
    obtain ⟨m', hm'', hsort, _⟩ := L.node p l hm'
    cases hm.symm.trans hm''
    exact Or.inl ⟨p, l, hpred ▸ hp, hm', fun he => hend (hsort.loopEnd.mp he)⟩

theorem MergesEntered.aside (W : g.MergesEntered waiting) (F : g.RankedBy rank) (A : Aside g h) (K : Heads g h) :
    h.MergesEntered waiting := by
  refine W.lighter F A.toLighter K fun p m hm hgone c hc => ?_
  by_cases hk : m.kind.isControl = true
  · obtain ⟨n, hn⟩ := A.alive p m hm hk
    cases hgone.symm.trans hn
  · rw [F.loose p m hm (by simpa using hk)] at hc
    cases hc

theorem MergesEntered.withoutEdge {index? : Option Nat} (W : g.MergesEntered waiting) (ht : t ∈ waiting)
    (hview : ∀ j, h.get? j = (g.get? j).map (Graph.withoutEdge u t index? j)) : h.MergesEntered waiting := by
  intro c n hn hk
  by_cases hc : c = t
  · exact Or.inr (hc ▸ ht)
  · obtain ⟨n, hn', rfl⟩ := exists_of_withoutEdge hview hn
    refine (W c n hn' hk).imp_left fun ⟨p, m, hp, hm, hend⟩ => ⟨p, Graph.withoutEdge u t index? p m, ?_, ?_, hend⟩
    · simpa [Graph.withoutEdge, hc] using hp
    · rw [hview, hm]
      rfl

section Strengthen

variable {q : NodeId} {reason : Reason} {s : Strengthened} {n : Node}

theorem RankedBy.strengthened (F : g.RankedBy rank) (hs : g.strengthenGuard u q reason = .ok (s, h))
    (hn : g.get? u = some n) :
    h.capacity = g.capacity + 1 ∧ s.detached = n.successors.head? ∧
      (∀ j m, h.get? j = some m → (j = g.capacity ∧ m.kind = .deoptimize reason ∧ m.predecessors = [u] ∧ m.successors = []) ∨
        ∃ l, g.get? j = some l ∧ m.kind = l.kind ∧ m.anchor = l.anchor ∧
          m.successors = (if j = u then g.capacity :: l.successors.tail else l.successors) ∧
          m.predecessors = (if s.detached = some j then l.predecessors.erase u else l.predecessors)) ∧
      ∀ j l, g.get? j = some l → l.kind.isControl = true → ∃ m, h.get? j = some m := by
  obtain ⟨n', hn', _, hdetached, hremoved, _, hcap, hview⟩ := strengthenGuard_ok (fun m hm => F.below u m hm) hs
  cases hn.symm.trans hn'
  refine ⟨hcap, hdetached, fun j m hm => ?_, fun j l hl hk => ?_⟩
  · rw [hview] at hm
    split at hm
    next => cases hm
    next =>
      split at hm
      next hj =>
        obtain rfl := Option.some.inj hm
        exact Or.inl ⟨hj, rfl, rfl, rfl⟩
      next =>
        obtain ⟨l, hl, heq⟩ := Option.map_eq_some_iff.mp hm
        obtain ⟨hkind, _, hanchor, _, _, hsucc, hpred, _⟩ := strengthened_node heq.symm
        exact Or.inr ⟨l, hl, hkind, hanchor, hsucc, hpred⟩
  · have hlt := lt_capacity hl
    rw [hview, if_neg, if_neg (Nat.ne_of_lt hlt), hl]
    · exact ⟨_, rfl⟩
    · rw [hremoved, mem_guardsAt]
      rintro ⟨⟨l', hl', hguard, _⟩, _⟩
      cases hl.symm.trans hl'
      rw [Kind.isGuard_of_isControl hk] at hguard
      cases hguard

theorem subset_predecessors {detached : Option NodeId} {j : NodeId} {l m : Node}
    (he : m.predecessors = if detached = some j then l.predecessors.erase u else l.predecessors) :
    m.predecessors ⊆ l.predecessors := by
  intro p hp
  rw [he] at hp
  split at hp
  · exact List.mem_of_mem_erase hp
  · exact hp

variable (F : g.RankedBy rank) (hn : g.get? u = some n) (hs : g.strengthenGuard u q reason = .ok (s, h))

include F hn hs

theorem RankedBy.listed_strengthen {c p : NodeId} {m l : Node} (hm : h.get? c = some m) (hctl : m.kind.isControl = true)
    (hl : h.get? p = some l) : m.predecessors.count p ≤ l.successors.count c := by
  obtain ⟨_, hdetached, hnode, _⟩ := F.strengthened hs hn
  have hu := lt_capacity hn
  rcases hnode c m hm, hnode p l hl with ⟨⟨rfl, _, hm', _⟩ | ⟨m', hm', hkind, _, _, he⟩,
    ⟨rfl, _, _, hl'⟩ | ⟨l', hl', _, _, hsucc, _⟩⟩
  · rw [hm', List.count_singleton, if_neg (by simpa using Nat.ne_of_lt hu)]
    exact Nat.zero_le _
  · rw [hm', hsucc]
    by_cases hp : p = u
    · simp [hp]
    · rw [List.count_singleton, if_neg (by simpa using Ne.symm hp)]
      exact Nat.zero_le _
  · rw [List.count_eq_zero_of_not_mem fun hmem => ?_]
    · exact Nat.zero_le _
    · exact Nat.lt_irrefl _ (F.above c m' hm' (hkind ▸ hctl) _ (subset_predecessors he hmem))
  · have hle := F.listed c m' p l' hm' (hkind ▸ hctl) hl'
    have hc : g.capacity ≠ c := Nat.ne_of_gt (lt_capacity hm')
    rw [he, hsucc]
    by_cases hp : p = u
    · subst hp
      cases hn.symm.trans hl'
      rw [if_pos rfl, List.count_cons_of_ne hc]
      rw [hdetached]
      cases hsuccs : n.successors with
      | nil => simpa [hsuccs] using hle
      | cons old rest =>
        simp only [hsuccs, List.head?_cons, Option.some.injEq, List.tail_cons, List.count_cons, beq_iff_eq] at hle ⊢
        by_cases hold : old = c
        · rw [if_pos hold] at hle ⊢
          rw [List.count_erase_self]
          exact Nat.sub_le_of_le_add hle
        · rw [if_neg hold] at hle ⊢
          exact hle
    · rw [if_neg hp]
      split
      · rwa [List.count_erase_of_ne hp]
      · exact hle

/-- The trap is behind all nodes there are. -/
theorem RankedBy.strengthen (hk : n.kind.isControl = true) (hend : n.kind ≠ .loopEnd) : h.RankedBy rank := by
  obtain ⟨hcap, _, hnode, _⟩ := F.strengthened hs hn
  have hu := lt_capacity hn
  refine ⟨fun c t ht => F.fresh c t (by omega), fun x m hm hfloat => ?_, fun c m hm t ht => ?_, fun c m hm hctl p hp => ?_,
    fun c m p l hm hctl hl => ?_, fun c m p l hm hctl hl hp hno => ?_, fun c m p l hm hctl hl hp hloop => ?_,
    fun x m a l hm hg ha hl => ?_⟩
  · rcases hnode x m hm with ⟨_, _, _, hsucc⟩ | ⟨m', hm', hkind, _, hsucc, _⟩
    · exact hsucc
    · rw [hsucc, if_neg]
      · exact F.loose x m' hm' (hkind ▸ hfloat)
      · rintro rfl
        cases hn.symm.trans hm'
        rw [hkind, hk] at hfloat
        cases hfloat
  · rcases hnode c m hm with ⟨_, _, _, hsucc⟩ | ⟨m', hm', _, _, hsucc, _⟩
    · rw [hsucc] at ht
      cases ht
    · rw [hsucc] at ht
      split at ht
      · rcases List.mem_cons.mp ht with rfl | ht
        · exact hcap ▸ Nat.lt_succ_self _
        · exact hcap ▸ Nat.lt_succ_of_lt (F.below c m' hm' t (List.mem_of_mem_tail ht))
      · exact hcap ▸ Nat.lt_succ_of_lt (F.below c m' hm' t ht)
  · rcases hnode c m hm with ⟨_, _, hu', _⟩ | ⟨m', hm', hkind, _, _, he⟩
    · rw [hu', List.mem_singleton] at hp
      exact hcap ▸ hp ▸ Nat.lt_succ_of_lt hu
    · exact hcap ▸ Nat.lt_succ_of_lt (F.above c m' hm' (hkind ▸ hctl) p (subset_predecessors he hp))
  · exact F.listed_strengthen hn hs hm hctl hl
  · rcases hnode c m hm, hnode p l hl with ⟨⟨rfl, _, hm', _⟩ | ⟨m', hm', hkind, _, _, he⟩,
      ⟨rfl, _⟩ | ⟨l', hl', hkind', _⟩⟩
    · rw [hm', List.mem_singleton] at hp
      exact absurd hp (Nat.ne_of_gt hu)
    · exact F.fresh p _ (Nat.le_refl _) (lt_capacity hl')
    · exact absurd (F.above c m' hm' (hkind ▸ hctl) _ (subset_predecessors he hp)) (Nat.lt_irrefl _)
    · exact F.forward c m' p l' hm' (hkind ▸ hctl) hl' (subset_predecessors he hp) (hkind' ▸ hno)
  · rcases hnode c m hm, hnode p l hl with ⟨⟨rfl, _, hm', _⟩ | ⟨m', hm', hkind, _, _, he⟩,
      ⟨_, hl', _⟩ | ⟨l', hl', hkind', _⟩⟩
    · rw [hl'] at hloop
      cases hloop
    · rw [hm', List.mem_singleton] at hp
      subst hp
      cases hn.symm.trans hl'
      exact absurd (hkind' ▸ hloop) hend
    · rw [hl'] at hloop
      cases hloop
    · exact hkind ▸ F.header c m' p l' hm' (hkind ▸ hctl) hl' (subset_predecessors he hp) (hkind' ▸ hloop)
  · rcases hnode x m hm, hnode a l hl with ⟨⟨_, hm', _⟩ | ⟨m', hm', hkind, hanchor, _⟩,
      ⟨_, hl', _⟩ | ⟨l', hl', hkind', _⟩⟩
    · rw [hm'] at hg
      cases hg
    · rw [hm'] at hg
      cases hg
    · rw [hl']
      exact ⟨rfl, nofun⟩
    · rw [hkind']
      exact F.post x m' a l' hm' (hkind ▸ hg) (hanchor ▸ ha) hl'

theorem MergesEntered.strengthen (W : g.MergesEntered waiting) (hwaiting : ∀ c ∈ waiting, c ∈ still)
    (hdetached : ∀ c, s.detached = some c → c ∈ still) : h.MergesEntered still := by
  obtain ⟨_, _, hnode, hlive⟩ := F.strengthened hs hn
  intro c m hm hmerge
  rcases hnode c m hm with ⟨_, hkind, _⟩ | ⟨m', hm', hkind, _, _, he⟩
  · rw [hkind] at hmerge
    cases hmerge
  · by_cases hd : s.detached = some c
    · exact Or.inr (hdetached c hd)
    · rw [if_neg hd] at he
      refine (W c m' hm' (hkind ▸ hmerge)).elim (fun ⟨p, l, hp, hl, hend⟩ => Or.inl ?_) fun hc => Or.inr (hwaiting c hc)
      have hctl : m'.kind.isControl = true := Kind.isControl_of_isMerge (hkind ▸ hmerge)
      obtain ⟨l', hl'⟩ := hlive p l hl (F.isControl hm' hctl hl hp)
      refine ⟨p, l', he ▸ hp, hl', ?_⟩
      rcases hnode p l' hl' with ⟨_, hkind', _⟩ | ⟨l'', hl'', hkind', _⟩
      · rw [hkind']
        nofun
      · cases hl.symm.trans hl''
        exact hkind' ▸ hend

end Strengthen

section Descends

variable {n : Node}

/-- Walks up control flow go down in rank, and nothing but loop ends leads to a merge only if it waits. -/
structure Descends (rank : NodeId → Nat) (waiting : List NodeId) (g : Graph) : Prop where
  ranked : g.RankedBy rank
  entered : g.MergesEntered waiting

namespace Descends

variable (D : g.Descends rank waiting)

include D

theorem mono (hstill : ∀ c ∈ waiting, ∀ n, g.get? c = some n → n.kind.isMerge = true → c ∈ still) :
    g.Descends rank still :=
  ⟨D.ranked, D.entered.mono hstill⟩

theorem aside (A : Aside g h) (K : Heads g h) : h.Descends rank waiting :=
  ⟨D.ranked.lighter A.toLighter K, D.entered.aside D.ranked A K⟩

theorem delete {id : NodeId} (hid : ∀ n, g.get? id = some n → n.kind.isControl = false) :
    (g.delete id).Descends rank waiting := by
  refine D.aside (.delete hid) (.of_kind fun x n m hn hm => ?_)
  cases (get?_of_delete hn).symm.trans hm
  rfl

theorem withoutEdge {u t : NodeId} {index? : Option Nat} (ht : t ∈ waiting) (hcap : h.capacity = g.capacity)
    (hview : ∀ j, h.get? j = (g.get? j).map (Graph.withoutEdge u t index? j)) : h.Descends rank waiting :=
  ⟨D.ranked.withoutEdge hcap hview, D.entered.withoutEdge ht hview⟩

/-- A node may go, with its guards and phis, if what it leads to waits. -/
theorem remove {u : NodeId} (hled : ∀ n, g.get? u = some n → ∀ t ∈ n.successors, t ∈ waiting) :
    ((g.guardsAt u ++ g.phisOf u ++ [u]).foldl Graph.delete g).Descends rank waiting := by
  set ids := g.guardsAt u ++ g.phisOf u ++ [u] with hids
  have L := Lighter.foldl_delete ids g
  have K : Heads g (ids.foldl Graph.delete g) := .of_kind fun x n m hn hm => by
    rw [get?_foldl_delete] at hn
    split at hn
    · cases hn
    · cases hn.symm.trans hm
      rfl
  refine ⟨D.ranked.lighter L K, D.entered.lighter D.ranked L K fun p m hm hgone c hc => ?_⟩
  have hp : p ∈ ids := by
    by_contra hno
    rw [get?_foldl_delete, if_neg hno, hm] at hgone
    cases hgone
  rw [hids, List.mem_append, List.mem_append, mem_guardsAt, mem_phisOf, List.mem_singleton] at hp
  rcases hp with (⟨m', hm', hg, _⟩ | ⟨m', hm', hphi, _⟩) | rfl
  · cases hm.symm.trans hm'
    rw [D.ranked.loose p m hm (Kind.isControl_of_isGuard hg)] at hc
    cases hc
  · cases hm.symm.trans hm'
    rw [D.ranked.loose p m hm (by rw [hphi]; rfl)] at hc
    cases hc
  · exact hled m hm c hc

theorem fold {split : NodeId} {truth : Bool} {folded : FoldedBranch} (hdead : folded.dead ∈ waiting)
    (hfold : g.foldBranch split truth = .ok (folded, h)) : h.Descends rank waiting := by
  obtain ⟨b, k, hb, hbranch, _, hcap, hview, A, _⟩ := foldBranch_steps hfold
  obtain ⟨_, _, _, _, _, _, _, _, _, hview'⟩ := foldBranch_ok hfold
  refine (D.withoutEdge hdead hcap hview).aside A fun x n m hn hm => ?_
  obtain ⟨l, hl, rfl⟩ := exists_of_withoutEdge hview hm
  rw [hview', hl, Option.map_some] at hn
  obtain rfl := Option.some.inj hn
  by_cases hx : x = split
  · subst hx
    cases hb.symm.trans hl
    simp [Graph.withoutEdge, hbranch, Kind.isMerge]
  · rw [if_neg hx]
    exact ⟨fun h => h, Or.inl⟩

theorem strengthen {u q : NodeId} {reason : Reason} {s : Strengthened} (hq : g.get? q = some n)
    (hguard : n.kind.isGuard = true) (hu : n.anchor = some u) (hs : g.strengthenGuard u q reason = .ok (s, h))
    (hwaiting : ∀ c ∈ waiting, c ∈ still) (hdetached : ∀ c, s.detached = some c → c ∈ still) :
    h.Descends rank still := by
  obtain ⟨m, hm, _⟩ := except_bind_ok.mp hs
  have hm := node_eq_ok_iff.mp hm
  obtain ⟨hctl, hend⟩ := D.ranked.post q n u m hq hguard hu hm
  exact ⟨D.ranked.strengthen hm hs hctl hend, D.entered.strengthen D.ranked hm hs hwaiting hdetached⟩

end Descends

section Merge

variable {merge source : NodeId} (D : g.Descends rank []) (hn : g.get? merge = some n) (hk : n.kind.isMerge = true)
  (hpred : n.predecessors = [source])

include D hn hk hpred

/-- The last way to a merge is not the end of its loop. -/
theorem Descends.way_in : ∃ m, g.get? source = some m ∧ m.kind.isControl = true ∧ m.kind ≠ .loopEnd := by
  obtain ⟨p, m, hp, hm, hend⟩ := (D.entered merge n hn hk).resolve_right List.not_mem_nil
  have hctl := D.ranked.isControl hn (Kind.isControl_of_isMerge hk) hm hp
  rw [hpred, List.mem_singleton] at hp
  exact ⟨m, hp ▸ hm, hctl, hend⟩

theorem Descends.flatten : (g.modify merge ({ · with kind := .begin })).Descends rank [] := by
  obtain ⟨m, hm, _, hend⟩ := D.way_in hn hk hpred
  refine D.aside (Sweep.aside_begin fun n' hn' => ?_) fun x l l' hl hl' => ?_
  · cases hn.symm.trans hn'
    exact Sweep.sameSort_merge_begin hk
  · rw [get?_modify (f := fun n : Node => { n with kind := .begin }) (fun _ => rfl), hl', Option.map_some] at hl
    obtain rfl := Option.some.inj hl
    split
    next hx =>
      subst hx
      cases hn.symm.trans hl'
      refine ⟨nofun, fun _ => Or.inr fun p hp he => ?_⟩
      rw [hpred, List.mem_singleton] at hp
      obtain ⟨m', hm', he⟩ := kind?_eq_some_iff.mp he
      cases hm.symm.trans (hp ▸ hm')
      exact hend he
    next => exact ⟨fun h => h, Or.inl⟩

end Merge

end Descends

end Graph

end GuardElision
