import GuardElision.Proofs.Graph.Reach

namespace GuardElision

namespace Graph

/-- Control goes the same ways in both graphs; a merge with one way in may have become a plain step. -/
structure SameWays (g h : Graph) : Prop where
  capacity : h.capacity = g.capacity
  live : ∀ x n, h.get? x = some n → ∃ m, g.get? x = some m ∧ m.kind.isControl = n.kind.isControl
  forth : ∀ c m, g.get? c = some m → m.kind.isControl = true → ∃ n, h.get? c = some n ∧
    n.successors = m.successors ∧ n.predecessors = m.predecessors ∧
    (n.kind = m.kind ∨ n.kind = .begin ∧ m.kind.isMerge = true ∧ m.predecessors.length ≤ 1 ∧
      ∀ p ∈ m.predecessors, g.kind? p ≠ some .loopEnd)

variable {g h : Graph}

namespace SameWays

variable (C : SameWays g h)

include C

theorem back {c : NodeId} {n : Node} (hn : h.get? c = some n) (hk : n.kind.isControl = true) :
    ∃ m, g.get? c = some m ∧ m.kind.isControl = true ∧ n.successors = m.successors ∧
      n.predecessors = m.predecessors ∧
      (n.kind = m.kind ∨ n.kind = .begin ∧ m.kind.isMerge = true ∧ m.predecessors.length ≤ 1 ∧
        ∀ p ∈ m.predecessors, g.kind? p ≠ some .loopEnd) := by
  obtain ⟨m, hm, hc⟩ := C.live c n hn
  obtain ⟨n', hn', hsame⟩ := C.forth c m hm (hc.trans hk)
  cases hn.symm.trans hn'
  exact ⟨m, hm, hc.trans hk, hsame⟩

theorem step_iff (H : g.Shaped) {c s : NodeId} : h.Step c s ↔ g.Step c s := by
  constructor
  · rintro ⟨n, hn, hk, hl, hmem, k, hk'⟩
    obtain ⟨m, hm, hkm, hsucc, _, hkind⟩ := C.back hn hk
    obtain ⟨l, hl', _⟩ := C.live s k hk'
    refine ⟨m, hm, hkm, ?_, hsucc ▸ hmem, l, hl'⟩
    rcases hkind with he | ⟨_, hmerge, _⟩
    · exact he ▸ hl
    · intro he
      simp [he, Kind.isMerge] at hmerge
  · rintro ⟨m, hm, hk, hl, hmem, k, hk'⟩
    obtain ⟨n, hn, hsucc, _, hkind⟩ := C.forth c m hm hk
    rcases H.succ c m hm hk s hmem with ⟨l, hl', hlc, _⟩ | ⟨he, _⟩
    · obtain ⟨l', hl'', _⟩ := C.forth s l hl' hlc
      rcases hkind with he | ⟨he, _⟩
      · exact ⟨n, hn, he ▸ hk, he ▸ hl, hsucc ▸ hmem, l', hl''⟩
      · exact ⟨n, hn, by simp [he, Kind.isControl], by simp [he], hsucc ▸ hmem, l', hl''⟩
    · exact absurd he hl

theorem reach_iff (H : g.Shaped) {c : NodeId} : h.Reach c ↔ g.Reach c := by
  have hstart : Graph.start < h.capacity := C.capacity ▸ H.start_lt
  refine ⟨fun hc => hc.induct (.start H.start_lt) fun a b _ ha hs => ha.step ((C.step_iff H).mp hs),
    fun hc => hc.induct (.start hstart) fun a b _ ha hs => ha.step ((C.step_iff H).mpr hs)⟩

theorem dom (H : g.Shaped) {a c : NodeId} (hd : g.Dom a c) : h.Dom a c := by
  refine hd.of_sub H.start_lt (fun b s _ hs _ => ?_) ((C.reach_iff H).mpr hd.reach)
  have hstep := (C.step_iff H).mp hs
  obtain ⟨m, hm, _⟩ := id hstep
  exact ⟨lt_capacity hm, hstep⟩

theorem shaped (H : g.Shaped) : h.Shaped := by
  refine ⟨?_, ?_, ?_, ?_, ?_, ?_, ?_, ?_, ?_, ?_, ?_, ?_⟩
  · obtain ⟨m, hm, hk, hnil⟩ := H.start
    obtain ⟨n, hn, _, hpred, hkind⟩ := C.forth _ m hm (by simp [hk, Kind.isControl])
    refine ⟨n, hn, ?_, hpred.trans hnil⟩
    rcases hkind with he | ⟨_, hmerge, _⟩
    · exact he.trans hk
    · simp [hk, Kind.isMerge] at hmerge
  · intro c n hn hk
    obtain ⟨m, hm, _, _, _, hkind⟩ := C.back hn (by simp [hk, Kind.isControl])
    rcases hkind with he | ⟨he, _⟩
    · exact H.start_only c m hm (he ▸ hk)
    · simp [he] at hk
  · intro c n hn hk s hs
    obtain ⟨m, hm, hkm, hsucc, _, hkind⟩ := C.back hn hk
    rcases H.succ c m hm hkm s (hsucc ▸ hs) with ⟨l, hl, hlc, hmem⟩ | ⟨he, hlt, hnone⟩
    · obtain ⟨l', hl', _, hpred, hkind'⟩ := C.forth s l hl hlc
      refine Or.inl ⟨l', hl', ?_, hpred ▸ hmem⟩
      rcases hkind' with he | ⟨he, _⟩
      · exact he ▸ hlc
      · simp [he, Kind.isControl]
    · refine Or.inr ⟨?_, C.capacity ▸ hlt, ?_⟩
      · rcases hkind with he' | ⟨_, hmerge, _⟩
        · exact he'.trans he
        · simp [he, Kind.isMerge] at hmerge
      · by_contra hsome
        obtain ⟨l, hl⟩ := Option.ne_none_iff_exists'.mp hsome
        obtain ⟨l', hl', _⟩ := C.live s l hl
        cases hnone.symm.trans hl'
  · intro c n hn hk p hp
    obtain ⟨m, hm, hkm, _, hpred, _⟩ := C.back hn hk
    obtain ⟨l, hl, hlc, hs⟩ := H.pred c m hm hkm p (hpred ▸ hp)
    obtain ⟨l', hl', hsucc, _, hkind⟩ := C.forth p l hl hlc
    refine ⟨l', hl', ?_, hsucc ▸ hs⟩
    rcases hkind with he | ⟨he, _⟩
    · exact he ▸ hlc
    · simp [he, Kind.isControl]
  · intro c n hn hk
    obtain ⟨m, hm, hkm, _, hpred, _⟩ := C.back hn hk
    exact hpred ▸ H.nodup c m hm hkm
  · intro c n hn hk
    obtain ⟨m, hm, _, hsucc, _, hkind⟩ := C.back hn (by simp [hk, Kind.isControl])
    rcases hkind with he | ⟨he, _⟩
    · have harm : ∀ s, g.kind? s = some .begin → h.kind? s = some .begin := by
        intro s hs
        obtain ⟨l, hl, hkl⟩ := kind?_eq_some_iff.mp hs
        obtain ⟨l', hl', _, _, hkind'⟩ := C.forth s l hl (by simp [hkl, Kind.isControl])
        rcases hkind' with he' | ⟨_, hmerge, _⟩
        · exact kind?_eq_some_iff.mpr ⟨l', hl', he'.trans hkl⟩
        · simp [hkl, Kind.isMerge] at hmerge
      obtain ⟨yes, no, hs, hne, hyes, hno⟩ := H.branch c m hm (he ▸ hk)
      exact ⟨yes, no, hsucc.trans hs, hne, harm yes hyes, harm no hno⟩
    · simp [he] at hk
  · intro c n hn hk hb
    obtain ⟨m, hm, hkm, hsucc, _, hkind⟩ := C.back hn hk
    rw [hsucc]
    refine H.single c m hm hkm fun he => ?_
    rcases hkind with he' | ⟨_, hmerge, _⟩
    · exact hb (he'.trans he)
    · simp [he, Kind.isMerge] at hmerge
  · intro c n hn hk
    obtain ⟨m, hm, _, hsucc, _, hkind⟩ := C.back hn (Kind.isControl_of_isTerminal hk)
    rcases hkind with he | ⟨he, _⟩
    · exact hsucc.trans (H.terminal c m hm (he ▸ hk))
    · simp [he, Kind.isTerminal] at hk
  · intro c n hn hk s hs l hl
    obtain ⟨m, hm, hkm, hsucc, _, hkind⟩ := C.back hn (by simp [hk, Kind.isControl])
    have hkm' : m.kind = .loopEnd := by
      rcases hkind with he | ⟨he, _⟩
      · exact he ▸ hk
      · simp [he] at hk
    rcases H.succ c m hm hkm s (hsucc ▸ hs) with ⟨l', hl', hlc, hmem⟩ | ⟨_, _, hnone⟩
    · have hheader := H.loopEnd c m hm hkm' s (hsucc ▸ hs) l' hl'
      obtain ⟨l'', hl'', _, _, hkind'⟩ := C.forth s l' hl' hlc
      cases hl.symm.trans hl''
      rcases hkind' with he | ⟨_, _, _, hno⟩
      · exact he.trans hheader
      · exact absurd (kind?_eq_some_iff.mpr ⟨m, hm, hkm'⟩) (hno c hmem)
    · obtain ⟨l', hl', _⟩ := C.live s l hl
      cases hnone.symm.trans hl'
  · intro c n hn hk hr s hs
    obtain ⟨m, hm, _, hsucc, _, hkind⟩ := C.back hn (by simp [hk, Kind.isControl])
    rcases hkind with he | ⟨he, _⟩
    · exact C.dom H (H.header c m hm (he ▸ hk) ((C.reach_iff H).mp hr) s (hsucc ▸ hs))
    · simp [he] at hk
  · intro c n hn hk hmerge
    obtain ⟨m, hm, hkm, _, hpred, hkind⟩ := C.back hn hk
    rw [hpred]
    rcases hkind with he | ⟨_, _, hlen, _⟩
    · exact H.join c m hm hkm (he ▸ hmerge)
    · exact hlen
  · obtain ⟨rank, hrank⟩ := H.ranked
    exact ⟨rank, fun c s hs => hrank c s ((C.step_iff H).mp hs)⟩

end SameWays

end Graph

end GuardElision
