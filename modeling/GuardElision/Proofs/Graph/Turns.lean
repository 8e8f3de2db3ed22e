import GuardElision.Cleanup.Changes
import GuardElision.Proofs.Attempt
import GuardElision.Proofs.Graph.Reach

namespace GuardElision

theorem exists_getElem?_of_eraseIdx {α β : Type} {as : List α} {bs : List β} {i j : Nat} {a : α} {b : β}
    (ha : (as.eraseIdx i)[j]? = some a) (hb : (bs.eraseIdx i)[j]? = some b) :
    ∃ k : Nat, as[k]? = some a ∧ bs[k]? = some b := by
  rw [List.getElem?_eraseIdx] at ha hb
  by_cases hji : j < i
  · exact ⟨j, by simpa [hji] using ha, by simpa [hji] using hb⟩
  · exact ⟨j + 1, by simpa [hji] using ha, by simpa [hji] using hb⟩

namespace Graph

theorem removeEdge_succeeds {g : Graph} {source : NodeId} {n : Node} (hn : g.get? source = some n) (target : NodeId) :
    ∃ r, g.removeEdge source target = .ok r := by
  by_cases ht : target ∈ n.successors
  · exact ⟨_, Attempt.finalWith_ok.mpr (unlink_of_mem hn ht)⟩
  · exact ⟨_, Attempt.finalWith_ok.mpr (unlink_of_not_mem hn ht)⟩

theorem detachEdge_succeeds {g : Graph} {source : NodeId} {n : Node} (hn : g.get? source = some n) (target : NodeId) :
    ∃ h, g.detachEdge source target = .ok h := by
  obtain ⟨⟨index?, k⟩, hr⟩ := removeEdge_succeeds hn target
  cases index? with
  | none => exact ⟨k, except_bind_ok.mpr ⟨(none, k), hr, rfl⟩⟩
  | some index => exact ⟨k.dropPhiInput target index, except_bind_ok.mpr ⟨(some index, k), hr, rfl⟩⟩

/-- Edges from `u` to targets in `D` are cut, and `u` itself may be gone, with its guards and phis. -/
structure Cut (u : NodeId) (D : NodeId → Prop) (g h : Graph) : Prop where
  classes : h.classes = g.classes
  capacity : g.capacity ≤ h.capacity
  other : ∀ j n, h.get? j = some n → j < g.capacity → j ≠ u → ∃ m, g.get? j = some m ∧ n.kind = m.kind ∧
    n.stamp = m.stamp ∧ n.anchor = m.anchor ∧ n.guard = m.guard ∧ n.memory = m.memory ∧
    n.successors = m.successors ∧ (n.kind ≠ .phi → n.inputs = m.inputs) ∧
    (D j → n.predecessors = m.predecessors.erase u) ∧ (¬D j → n.predecessors = m.predecessors)
  /-- Phis lose the inputs that belong to edges that are cut. -/
  phi : ∀ p n t m k, h.get? p = some n → n.kind = .phi → n.anchor = some t → g.get? p = some m →
    g.get? t = some k →
    (D t → u ∈ k.predecessors →
      n.inputs = m.inputs.eraseIdx (k.predecessors.idxOf u) ∨ k.predecessors = [u] ∧ n.inputs = m.inputs) ∧
    (¬D t ∨ u ∉ k.predecessors → n.inputs = m.inputs)
  here : ∀ n, h.get? u = some n → ∃ m, g.get? u = some m ∧ m.kind.isControl = true ∧ m.kind ≠ .loopEnd ∧
    m.kind.isTerminal = false ∧
    (m.kind = n.kind ∧ m.inputs = n.inputs ∧ n.kind ≠ .branch ∨ n.kind = .begin ∧ m.kind = .branch) ∧
    n.predecessors = m.predecessors ∧ n.successors.length ≤ 1 ∧
    (∀ s ∈ n.successors, s ∈ m.successors ∧ ¬D s ∨ g.capacity ≤ s ∧ ∃ k, h.get? s = some k) ∧
    ∀ s ∈ m.successors, D s ∨ s ∈ n.successors
  gone : ∀ j m, g.get? j = some m → h.get? j = none →
    (m.kind.isGuard = true ∧ m.anchor = some u) ∨
    (h.get? u = none ∧ (j = u ∨ m.kind = .phi ∧ m.anchor = some u))
  /-- A node goes if nothing leads to it but the ends of its loop. -/
  lost : h.get? u = none → u ≠ start ∧ ∀ m, g.get? u = some m → m.kind.isControl = true ∧
    (∀ s ∈ m.successors, D s) ∧ ∀ p ∈ m.predecessors, g.kind? p = some .loopEnd
  fresh : ∀ c n, h.get? c = some n → g.capacity ≤ c → ∃ reason, n.kind = .deoptimize reason ∧
    n.successors = [] ∧ n.predecessors = [u] ∧ ∃ k, h.get? u = some k ∧ c ∈ k.successors
  bare : ∀ c n, h.get? c = some n → g.capacity ≤ c → n.dependencies = []
  rest : ∀ n m, h.get? u = some n → g.get? u = some m → n.anchor = m.anchor ∧ n.guard = m.guard ∧
    n.memory = m.memory ∧ (n.kind ≠ m.kind → n.inputs = [])
  alone : h.get? u = none → ∀ p n, h.get? p = some n → n.kind = .phi → n.anchor ≠ some u

variable {g h : Graph} {u : NodeId} {D : NodeId → Prop}

namespace Cut

variable (C : Cut u D g h)

include C

theorem subFlow (H : g.Shaped) : SubFlow g h := by
  refine ⟨fun x n hn hlt => ?_, fun c n hn hk hlt => ?_, fun c n hn hge => ?_⟩
  · by_cases hx : x = u
    · subst hx
      obtain ⟨m, hm, _⟩ := C.here n hn
      exact ⟨m, hm⟩
    · obtain ⟨m, hm, _⟩ := C.other x n hn hlt hx
      exact ⟨m, hm⟩
  · by_cases hc : c = u
    · subst hc
      obtain ⟨m, hm, hmc, hml, hmt, hkind, hpred, hlen, hsucc, hkept⟩ := C.here n hn
      refine ⟨m, hm, ?_, fun s hs hlt => ?_, fun hb => ?_, fun _ => hlen, fun _ ht => ?_, fun hl => ?_, ?_⟩
      · exact hkind.imp_left fun ⟨h₁, h₂, _⟩ => ⟨h₁, h₂⟩
      · rcases hsucc s hs with ⟨hs, _⟩ | ⟨hge, _⟩
        · exact hs
        · exact absurd hlt (Nat.not_lt.mpr hge)
      · rcases hkind with ⟨_, _, hne⟩ | ⟨he, _⟩
        · exact absurd hb hne
        · simp [he] at hb
      · rcases hkind with ⟨he, _⟩ | ⟨he, _⟩
        · simp [he ▸ hmt] at ht
        · simp [he, Kind.isTerminal] at ht
      · rcases hkind with ⟨he, _⟩ | ⟨he, _⟩
        · exact absurd (he.trans hl) hml
        · simp [he] at hl
      · rw [hpred]
    · obtain ⟨m, hm, hkind, _, _, _, _, hsucc, hinputs, hcut, hsame⟩ := C.other c n hn hlt hc
      refine ⟨m, hm, Or.inl ⟨hkind.symm, (hinputs ?_).symm⟩, fun s hs _ => hsucc ▸ hs, fun _ => hsucc, fun hb => ?_,
        fun hnil _ => hsucc ▸ hnil, fun _ s hs => hsucc ▸ hs, ?_⟩
      · intro he
        simp [he, Kind.isControl] at hk
      · exact hsucc ▸ H.single c m hm (hkind ▸ hk) (hkind ▸ hb)
      · by_cases hD : D c
        · rw [hcut hD]
          exact List.erase_sublist
        · rw [hsame hD]
  · obtain ⟨reason, hk, hsucc, hpred, _⟩ := C.fresh c n hn hge
    exact ⟨reason, hk, hsucc, by simp [hpred]⟩

/-- Control nodes other than `u` are all kept. -/
theorem control_kept {c : NodeId} {m : Node} (hm : g.get? c = some m) (hk : m.kind.isControl = true)
    (hc : c = u → ∃ n, h.get? u = some n) : ∃ n, h.get? c = some n := by
  by_contra hnone
  have hnone : h.get? c = none := by
    by_contra h
    exact hnone (Option.ne_none_iff_exists'.mp h)
  rcases C.gone c m hm hnone with ⟨hg, _⟩ | ⟨hu, rfl | ⟨he, _⟩⟩
  · rw [Kind.isControl_of_isGuard hg] at hk
    cases hk
  · obtain ⟨n, hn⟩ := hc rfl
    cases hu.symm.trans hn
  · simp [he, Kind.isControl] at hk

theorem control_here {n : Node} (hn : h.get? u = some n) : n.kind.isControl = true := by
  obtain ⟨m, _, hmc, _, _, hkind, _⟩ := C.here n hn
  rcases hkind with ⟨he, _⟩ | ⟨he, _⟩
  · exact he ▸ hmc
  · simp [he, Kind.isControl]

theorem not_step_self (H : g.Shaped) {m n : Node} (hn : h.get? u = some n) (hm : g.get? u = some m) :
    u ∉ m.successors := by
  intro hmem
  obtain ⟨m', hm', hmc, hml, _⟩ := C.here n hn
  cases hm.symm.trans hm'
  exact H.ne_of_step (H.step_of_successor hm hmc hml hmem) rfl

theorem succ (H : g.Shaped) {c s : NodeId} {n : Node} (hn : h.get? c = some n) (hk : n.kind.isControl = true)
    (hs : s ∈ n.successors) : (∃ m, h.get? s = some m ∧ m.kind.isControl = true ∧ c ∈ m.predecessors) ∨
      (n.kind = .loopEnd ∧ s < h.capacity ∧ h.get? s = none) := by
  by_cases hc : c = u
  · subst hc
    obtain ⟨m, hm, hmc, hml, _, _, _, _, hsucc, _⟩ := C.here n hn
    rcases hsucc s hs with ⟨hms, hD⟩ | ⟨hge, k, hk'⟩
    · rcases H.succ c m hm hmc s hms with ⟨l, hl, hlc, hmem⟩ | ⟨he, _⟩
      · have hne : s ≠ c := fun he => C.not_step_self H hn hm (he ▸ hms)
        obtain ⟨l', hl'⟩ := C.control_kept hl hlc fun _ => ⟨n, hn⟩
        obtain ⟨_, hl₂, hkind, _, _, _, _, _, _, _, hsame⟩ := C.other s l' hl' (lt_capacity hl) hne
        cases hl.symm.trans hl₂
        exact Or.inl ⟨l', hl', hkind ▸ hlc, hsame hD ▸ hmem⟩
      · exact absurd he hml
    · obtain ⟨reason, hkind, _, hpred, _⟩ := C.fresh s k hk' hge
      exact Or.inl ⟨k, hk', by simp [hkind, Kind.isControl], by simp [hpred]⟩
  · by_cases hlt : c < g.capacity
    · obtain ⟨m, hm, hkind, _, _, _, _, hsucc, _⟩ := C.other c n hn hlt hc
      rcases H.succ c m hm (hkind ▸ hk) s (hsucc ▸ hs) with ⟨l, hl, hlc, hmem⟩ | ⟨he, hlt', hnone⟩
      · by_cases hsu : s = u
        · subst hsu
          cases hu : h.get? s with
          | some k =>
            obtain ⟨l', hl', _, _, _, _, hpred, _⟩ := C.here k hu
            cases hl.symm.trans hl'
            exact Or.inl ⟨k, rfl, C.control_here hu, hpred ▸ hmem⟩
          | none =>
            obtain ⟨m', hm', he⟩ := kind?_eq_some_iff.mp (((C.lost hu).2 l hl).2.2 c hmem)
            cases hm.symm.trans hm'
            exact Or.inr ⟨hkind.trans he, Nat.lt_of_lt_of_le (lt_capacity hl) C.capacity, rfl⟩
        · obtain ⟨l', hl'⟩ := C.control_kept hl hlc fun he => absurd he hsu
          obtain ⟨_, hl₂, hkind', _, _, _, _, _, _, hcut, hsame⟩ := C.other s l' hl' (lt_capacity hl) hsu
          cases hl.symm.trans hl₂
          refine Or.inl ⟨l', hl', hkind' ▸ hlc, ?_⟩
          by_cases hD : D s
          · rw [hcut hD]
            exact (List.mem_erase_of_ne hc).mpr hmem
          · rw [hsame hD]
            exact hmem
      · refine Or.inr ⟨hkind.trans he, Nat.lt_of_lt_of_le hlt' C.capacity, ?_⟩
        by_contra hsome
        obtain ⟨l, hl⟩ := Option.ne_none_iff_exists'.mp hsome
        obtain ⟨l', hl'⟩ := (C.subFlow H).live s l hl hlt'
        cases hnone.symm.trans hl'
    · obtain ⟨_, _, hnil, _⟩ := C.fresh c n hn (Nat.not_lt.mp hlt)
      simp [hnil] at hs

theorem pred (H : g.Shaped) {c p : NodeId} {n : Node} (hn : h.get? c = some n) (hk : n.kind.isControl = true)
    (hp : p ∈ n.predecessors) : ∃ m, h.get? p = some m ∧ m.kind.isControl = true ∧ c ∈ m.successors := by
  by_cases hlt : c < g.capacity
  · by_cases hc : c = u
    · subst hc
      obtain ⟨m, hm, hmc, _, _, _, hpred, _⟩ := C.here n hn
      obtain ⟨l, hl, hlc, hmem⟩ := H.pred c m hm hmc p (hpred ▸ hp)
      have hne : p ≠ c := by
        rintro rfl
        cases hm.symm.trans hl
        exact C.not_step_self H hn hm hmem
      obtain ⟨l', hl'⟩ := C.control_kept hl hlc fun _ => ⟨n, hn⟩
      obtain ⟨_, hl₂, hkind, _, _, _, _, hsucc, _⟩ := C.other p l' hl' (lt_capacity hl) hne
      cases hl.symm.trans hl₂
      exact ⟨l', hl', hkind ▸ hlc, hsucc ▸ hmem⟩
    · obtain ⟨m, hm, hkind, _, _, _, _, _, _, hcut, hsame⟩ := C.other c n hn hlt hc
      have hmc : m.kind.isControl = true := hkind ▸ hk
      have hpm : p ∈ m.predecessors ∧ (p = u → ¬D c) := by
        by_cases hD : D c
        · rw [hcut hD] at hp
          refine ⟨List.mem_of_mem_erase hp, ?_⟩
          rintro rfl
          exact absurd hp (H.nodup c m hm hmc).not_mem_erase
        · rw [hsame hD] at hp
          exact ⟨hp, fun _ => hD⟩
      obtain ⟨l, hl, hlc, hmem⟩ := H.pred c m hm hmc p hpm.1
      by_cases hpu : p = u
      · subst hpu
        have hD := hpm.2 rfl
        obtain ⟨k, hk'⟩ : ∃ k, h.get? p = some k := by
          by_contra hnone
          refine hD (((C.lost ?_).2 l hl).2.1 c hmem)
          by_contra hsome
          exact hnone (Option.ne_none_iff_exists'.mp hsome)
        obtain ⟨m', hm', _, _, _, _, _, _, _, hkept⟩ := C.here k hk'
        cases hl.symm.trans hm'
        exact ⟨k, hk', C.control_here hk', (hkept c hmem).resolve_left hD⟩
      · obtain ⟨l', hl'⟩ := C.control_kept hl hlc fun he => absurd he hpu
        obtain ⟨_, hl₂, hkind', _, _, _, _, hsucc, _⟩ := C.other p l' hl' (lt_capacity hl) hpu
        cases hl.symm.trans hl₂
        exact ⟨l', hl', hkind' ▸ hlc, hsucc ▸ hmem⟩
  · obtain ⟨_, _, _, hpred, k, hk', hmem⟩ := C.fresh c n hn (Nat.not_lt.mp hlt)
    obtain rfl : p = u := by simpa [hpred] using hp
    exact ⟨k, hk', C.control_here hk', hmem⟩

theorem shaped (H : g.Shaped) : h.Shaped := by
  refine H.of_subFlow (C.subFlow H) ?_ (fun _ _ hn hk _ => C.succ H hn hk) fun _ _ hn hk _ => C.pred H hn hk
  · obtain ⟨m, hm, hk, _⟩ := H.start
    obtain ⟨n, hn⟩ := C.control_kept hm (by simp [hk, Kind.isControl]) (fun he => by
      by_contra hnone
      refine (C.lost ?_).1 he.symm
      by_contra h
      exact hnone (Option.ne_none_iff_exists'.mp h))
    refine ⟨n, hn, ?_⟩
    by_cases he : start = u
    · subst he
      obtain ⟨m', hm', _, _, _, ⟨he, _⟩ | ⟨_, he⟩, _⟩ := C.here n hn
      · cases hm.symm.trans hm'
        exact he ▸ hk
      · cases hm.symm.trans hm'
        simp [he] at hk
    · obtain ⟨m', hm', hkind, _⟩ := C.other _ n hn (lt_capacity hm) he
      cases hm.symm.trans hm'
      exact hkind.trans hk

theorem floating {x : NodeId} {n : Node} (hn : h.get? x = some n) (hk : n.kind.isControl = false) :
    x < g.capacity ∧ x ≠ u := by
  refine ⟨?_, ?_⟩
  · by_contra hge
    obtain ⟨reason, he, _⟩ := C.fresh x n hn (Nat.not_lt.mp hge)
    simp [he, Kind.isControl] at hk
  · rintro rfl
    rw [C.control_here hn] at hk
    cases hk

theorem node {x : NodeId} {n : Node} (hn : h.get? x = some n) (hlt : x < g.capacity) :
    ∃ m, g.get? x = some m ∧ n.anchor = m.anchor ∧ n.guard = m.guard ∧ n.memory = m.memory ∧
      (n.kind = m.kind ∧ (n.kind ≠ .phi → n.inputs = m.inputs) ∨ n.kind = .begin ∧ m.kind = .branch ∧ n.inputs = []) := by
  by_cases hx : x = u
  · subst hx
    obtain ⟨m, hm, _, _, _, hkind, _⟩ := C.here n hn
    obtain ⟨hanchor, hguard, hmemory, hinputs⟩ := C.rest n m hn hm
    refine ⟨m, hm, hanchor, hguard, hmemory, ?_⟩
    rcases hkind with ⟨he, hin, _⟩ | ⟨he, hb⟩
    · exact Or.inl ⟨he.symm, fun _ => hin.symm⟩
    · exact Or.inr ⟨he, hb, hinputs (by simp [he, hb])⟩
  · obtain ⟨m, hm, hkind, _, hanchor, hguard, hmemory, _, hinputs, _⟩ := C.other x n hn hlt hx
    exact ⟨m, hm, hanchor, hguard, hmemory, Or.inl ⟨hkind, hinputs⟩⟩

theorem control_before {c : NodeId} {n : Node} (hn : h.get? c = some n) (hk : n.kind.isControl = true)
    (hlt : c < g.capacity) : ∃ m, g.get? c = some m ∧ m.kind.isControl = true := by
  obtain ⟨m, hm, _, _, _, ⟨he, _⟩ | ⟨_, he, _⟩⟩ := C.node hn hlt
  · exact ⟨m, hm, he ▸ hk⟩
  · exact ⟨m, hm, by simp [he, Kind.isControl]⟩

theorem aligned (H : g.Shaped) {p t : NodeId} {n m k l : Node} (hp : h.get? p = some n) (hk : n.kind = .phi)
    (ha : n.anchor = some t) (hm : g.get? p = some m) (ht : h.get? t = some k) (hl : g.get? t = some l) :
    (n.inputs = m.inputs ∧ k.predecessors = l.predecessors) ∨
    (∃ i < l.predecessors.length, n.inputs = m.inputs.eraseIdx i ∧ k.predecessors = l.predecessors.eraseIdx i) ∨
    (k.predecessors = [] ∧ l.predecessors ≠ []) := by
  obtain ⟨hcut, hsame⟩ := C.phi p n t m l hp hk ha hm hl
  by_cases htu : t = u
  · subst htu
    obtain ⟨l', hl', hlc, _, _, _, hpred, _⟩ := C.here k ht
    cases hl.symm.trans hl'
    refine Or.inl ⟨hsame (Or.inr fun hmem => ?_), hpred⟩
    obtain ⟨l', hl', _, hsucc⟩ := H.pred t l hl hlc t hmem
    cases hl.symm.trans hl'
    exact C.not_step_self H ht hl hsucc
  · obtain ⟨l', hl', _, _, _, _, _, _, _, hpredcut, hpredsame⟩ := C.other t k ht (lt_capacity hl) htu
    cases hl.symm.trans hl'
    by_cases hD : D t
    · by_cases hmem : u ∈ l.predecessors
      · rcases hcut hD hmem with hin | ⟨hlast, _⟩
        · refine Or.inr (Or.inl ⟨_, List.idxOf_lt_length_iff.mpr hmem, hin, ?_⟩)
          rw [hpredcut hD]
          exact List.erase_eq_eraseIdx_of_idxOf rfl
        · exact Or.inr (Or.inr ⟨by simp [hpredcut hD, hlast], by simp [hlast]⟩)
      · exact Or.inl ⟨hsame (Or.inr hmem), by rw [hpredcut hD, List.erase_of_not_mem hmem]⟩
    · exact Or.inl ⟨hsame (Or.inl hD), hpredsame hD⟩

theorem entry (H : g.Shaped) {p t x s : NodeId} {n k l : Node} {j : Nat} (hp : h.get? p = some n) (hk : n.kind = .phi)
    (ha : n.anchor = some t) (ht : h.get? t = some k) (hl : g.get? t = some l) (hx : n.inputs[j]? = some x)
    (hs : k.predecessors[j]? = some s) : ∃ m, ∃ i : Nat, g.get? p = some m ∧ m.kind = .phi ∧ m.anchor = some t ∧
      m.inputs[i]? = some x ∧ l.predecessors[i]? = some s := by
  obtain ⟨hlt, hne⟩ := C.floating hp (by simp [hk, Kind.isControl])
  obtain ⟨m, hm, hkind, _, hanchor, _⟩ := C.other p n hp hlt hne
  have hk' := hkind.symm.trans hk
  have ha' := hanchor.symm.trans ha
  rcases C.aligned H hp hk ha hm ht hl with ⟨hin, hpr⟩ | ⟨i, hi, hin, hpr⟩ | ⟨hnil, _⟩
  · exact ⟨m, j, hm, hk', ha', hin ▸ hx, hpr ▸ hs⟩
  · obtain ⟨i', hx', hs'⟩ := exists_getElem?_of_eraseIdx (hin ▸ hx) (hpr ▸ hs)
    exact ⟨m, i', hm, hk', ha', hx', hs'⟩
  · simp [hnil] at hs

theorem lengths (H : g.Shaped) {p t : NodeId} {n m k l : Node} (hp : h.get? p = some n) (hk : n.kind = .phi)
    (ha : n.anchor = some t) (hm : g.get? p = some m) (ht : h.get? t = some k) (hl : g.get? t = some l)
    (hr : h.Reach t) (hlen : m.inputs.length = l.predecessors.length) : n.inputs.length = k.predecessors.length := by
  rcases C.aligned H hp hk ha hm ht hl with ⟨hin, hpr⟩ | ⟨i, hi, hin, hpr⟩ | ⟨hnil, hne⟩
  · rw [hin, hpr, hlen]
  · rw [hin, hpr, List.length_eraseIdx_of_lt (hlen ▸ hi), List.length_eraseIdx_of_lt hi, hlen]
  · have hstart : t ≠ start := by
      rintro rfl
      obtain ⟨l', hl', _, hnil'⟩ := H.start
      cases hl.symm.trans hl'
      exact hne hnil'
    obtain ⟨a, _, hs⟩ := hr.exists_step hstart
    simpa [hnil] using (C.shaped H).mem_predecessors hs ht

theorem old_of_gone (hu : h.get? u = none) {c : NodeId} {n : Node} (hn : h.get? c = some n) :
    c ≠ u ∧ ∃ m, g.get? c = some m ∧ n.kind = m.kind := by
  have hc : c ≠ u := by
    rintro rfl
    cases hu.symm.trans hn
  have hlt : c < g.capacity := by
    by_contra hge
    obtain ⟨_, _, _, _, k, hk, _⟩ := C.fresh c n hn (Nat.not_lt.mp hge)
    cases hu.symm.trans hk
  obtain ⟨m, hm, hkind, _⟩ := C.other c n hn hlt hc
  exact ⟨hc, m, hm, hkind⟩

theorem not_reach_of_gone (H : g.Shaped) (hu : h.get? u = none) : ¬g.Reach u := by
  intro hr
  obtain ⟨hne, hlost⟩ := C.lost hu
  obtain ⟨a, _, hs⟩ := hr.exists_step hne
  obtain ⟨n, hn, _, hl, _, m, hm⟩ := id hs
  obtain ⟨n', hn', he⟩ := kind?_eq_some_iff.mp ((hlost m hm).2.2 a (H.mem_predecessors hs hm))
  cases hn.symm.trans hn'
  exact hl he

theorem step {a b : NodeId} (H : g.Shaped) (hs : g.Step a b) (ha : a ≠ u) (hb : b = u → ∃ n, h.get? u = some n) :
    h.Step a b := by
  obtain ⟨m, hm, hk, hl, hmem, k, hk'⟩ := hs
  obtain ⟨n, hn⟩ := C.control_kept hm hk fun he => absurd he ha
  obtain ⟨m', hm', hkind, _, _, _, _, hsucc, _⟩ := C.other a n hn (lt_capacity hm) ha
  cases hm.symm.trans hm'
  rcases H.succ a m hm hk b hmem with ⟨l, hl', hlc, _⟩ | ⟨he, _⟩
  · exact ⟨n, hn, hkind ▸ hk, hkind ▸ hl, hsucc ▸ hmem, C.control_kept hl' hlc hb⟩
  · exact absurd he hl

theorem here_ne_loopEnd {n : Node} (hn : h.get? u = some n) : n.kind ≠ .loopEnd := by
  obtain ⟨_, _, _, hl, _, ⟨he, _⟩ | ⟨he, _⟩, _⟩ := C.here n hn
  · exact he ▸ hl
  · simp [he]

/-- Nothing but the targets of the edges that are cut can lose its last predecessor. -/
theorem step_or_cut (H : g.Shaped) (hu : ∃ n, h.get? u = some n) {c : NodeId} {n : Node} (hn : h.get? c = some n)
    (hled : c < g.capacity → ∃ p, g.Step p c) : (∃ p, h.Step p c) ∨ D c := by
  have H' := C.shaped H
  obtain ⟨v, hv⟩ := hu
  by_cases hlt : c < g.capacity
  · obtain ⟨p, hs⟩ := hled hlt
    by_cases hp : p = u
    · subst hp
      obtain ⟨l, hl, _, _, hmem, _⟩ := hs
      obtain ⟨l', hl', _, _, _, _, _, _, _, hkept⟩ := C.here v hv
      cases hl.symm.trans hl'
      rcases hkept c hmem with hD | hmem'
      · exact Or.inr hD
      · exact Or.inl ⟨p, H'.step_of_successor hv (C.control_here hv) (C.here_ne_loopEnd hv) hmem'⟩
    · exact Or.inl ⟨p, C.step H hs hp fun _ => ⟨v, hv⟩⟩
  · obtain ⟨_, _, _, _, l, hl, hmem⟩ := C.fresh c n hn (Nat.not_lt.mp hlt)
    exact Or.inl ⟨u, H'.step_of_successor hl (C.control_here hl) (C.here_ne_loopEnd hl) hmem⟩

theorem reach_of_gone (H : g.Shaped) (hu : h.get? u = none) {c : NodeId} (hc : g.Reach c) : h.Reach c := by
  have hnot := C.not_reach_of_gone H hu
  have hc' : g.Reach c ∧ h.Reach c := by
    refine hc.induct (P := fun c => g.Reach c ∧ h.Reach c) ⟨.start H.start_lt, .start (C.shaped H).start_lt⟩
      fun a b hra ⟨_, ha⟩ hs => ⟨hra.step hs, ha.step (C.step H hs ?_ fun he => ?_)⟩
    · rintro rfl
      exact hnot hra
    · exact absurd (he ▸ hra.step hs) hnot
  exact hc'.2

end Cut

section Fold

variable {split : NodeId} {truth : Bool} {folded : FoldedBranch}

theorem Cut.fold (H : g.Shaped) (hfold : g.foldBranch split truth = .ok (folded, h)) :
    Cut split (· = folded.dead) g h := by
  obtain ⟨n, yes, no, hn, hk, hsucc, hfolded, hclasses, hcap, hget⟩ := foldBranch_ok hfold
  obtain ⟨yes', no', hsucc', hne, hyes, hno⟩ := H.branch split n hn hk
  obtain ⟨rfl, rfl⟩ : yes = yes' ∧ no = no' := by simpa [hsucc] using hsucc'
  have hdead : folded.dead ∈ n.successors ∧ g.kind? folded.dead = some .begin := by
    cases truth <;> simp [hfolded, hsucc, hyes, hno]
  have hctl : n.kind.isControl = true := by simp [hk, Kind.isControl]
  have hself : split ≠ folded.dead := H.ne_of_step (H.step_of_successor hn hctl (by simp [hk]) hdead.1)
  have hnode : ∀ j m, h.get? j = some m → ∃ l, g.get? j = some l ∧
      m = { withoutEdge split folded.dead none j l with
        kind := if j = split then .begin else l.kind
        inputs := if j = split then [] else l.inputs } := by
    intro j m hm
    rw [hget] at hm
    obtain ⟨l, hl, rfl⟩ := Option.map_eq_some_iff.mp hm
    exact ⟨l, hl, rfl⟩
  have hlive : ∀ j l, g.get? j = some l → h.get? j ≠ none := by
    intro j l hl
    simp [hget, hl]
  refine ⟨hclasses, Nat.le_of_eq hcap.symm, fun j m hm _ hj => ?_, fun p m t l k hp hkp ha hl hkt => ?_, fun m hm => ?_,
    fun j m hm hnone => absurd hnone (hlive j m hm), fun hnone => absurd hnone (hlive split n hn),
    fun c m hm hge => ?_, fun c m hm hge => ?_, fun m l hm hl => ?_, fun hnone => absurd hnone (hlive split n hn)⟩
  · obtain ⟨l, hl, rfl⟩ := hnode j m hm
    exact ⟨l, hl, by simp [hj], rfl, rfl, rfl, rfl, by simp [hj, withoutEdge],
      fun _ => by simp [hj], fun hD => by simp [hD, withoutEdge], fun hD => by simp [hD, withoutEdge]⟩
  · obtain ⟨l', hl', rfl⟩ := hnode p m hp
    cases hl.symm.trans hl'
    have hps : p ≠ split := by
      rintro rfl
      simp at hkp
    refine ⟨?_, fun _ => by simp [hps]⟩
    rintro rfl hmem
    obtain ⟨k', hk', hkind⟩ := kind?_eq_some_iff.mp hdead.2
    cases hkt.symm.trans hk'
    have hlen := H.join _ k hkt (by simp [hkind, Kind.isControl]) (by simp [hkind, Kind.isMerge])
    exact Or.inr ⟨eq_singleton_of_mem hlen hmem, by simp [hps]⟩
  · obtain ⟨l, hl, rfl⟩ := hnode split m hm
    cases hn.symm.trans hl
    have hmem : ∀ s, s ∈ n.successors.erase folded.dead ↔ s ≠ folded.dead ∧ s ∈ n.successors := fun s =>
      List.Nodup.mem_erase_iff (by simp [hsucc, hne])
    refine ⟨n, hn, hctl, by simp [hk], by simp [hk, Kind.isTerminal], Or.inr ⟨by simp, hk⟩, by simp [withoutEdge, hself],
      ?_, fun s hs => Or.inl ?_, fun s hs => ?_⟩
    · have hlen : (n.successors.erase folded.dead).length = 1 := by
        rw [List.length_erase_of_mem hdead.1, hsucc]
        rfl
      simp [withoutEdge, hlen]
    · obtain ⟨hs, hmem⟩ := (hmem s).mp (by simpa [withoutEdge] using hs)
      exact ⟨hmem, hs⟩
    · by_cases hsd : s = folded.dead
      · exact Or.inl hsd
      · exact Or.inr (by simpa [withoutEdge] using (hmem s).mpr ⟨hsd, hs⟩)
  · exact absurd (lt_capacity hm) (Nat.not_lt.mpr (hcap ▸ hge))
  · exact absurd (lt_capacity hm) (Nat.not_lt.mpr (hcap ▸ hge))
  · obtain ⟨l', hl', rfl⟩ := hnode split m hm
    cases hl.symm.trans hl'
    exact ⟨rfl, rfl, rfl, fun _ => if_pos rfl⟩

end Fold

section Strengthen

variable {q : NodeId} {reason : Reason} {s : Strengthened} {n : Node}

theorem strengthened_node {detached : Option NodeId} {j : NodeId} {m l : Node}
    (hm : m = { (match detached with
        | some old => withoutEdge u old (g.predecessorIndex? u old) j l
        | none => l) with
      successors := if j = u then g.capacity :: l.successors.tail else l.successors }) :
    m.kind = l.kind ∧ m.stamp = l.stamp ∧ m.anchor = l.anchor ∧ m.guard = l.guard ∧ m.memory = l.memory ∧
    m.successors = (if j = u then g.capacity :: l.successors.tail else l.successors) ∧
    m.predecessors = (if detached = some j then l.predecessors.erase u else l.predecessors) ∧
    (∀ t i, l.kind = .phi → l.anchor = some t → detached = some t → g.predecessorIndex? u t = some i →
      m.inputs = l.inputs.eraseIdx i) ∧
    (l.kind ≠ .phi ∨ (∀ t, l.anchor = some t → detached = some t → g.predecessorIndex? u t = none) →
      m.inputs = l.inputs) := by
  cases detached with
  | none => simp [hm]
  | some old =>
    have hin : m.inputs = (withoutEdge u old (g.predecessorIndex? u old) j l).inputs := by rw [hm]
    refine ⟨by rw [hm]; rfl, by rw [hm]; rfl, by rw [hm]; rfl, by rw [hm]; rfl, by rw [hm]; rfl, by rw [hm], ?_,
      fun t i hphi ha hd hi => ?_, fun hno => ?_⟩
    · simp only [hm, withoutEdge, Option.some.injEq, eq_comm]
    · obtain rfl := Option.some.inj hd
      rw [hin, hi]
      exact inputs_withoutEdge_phi hphi ha i
    · rw [hin]
      refine inputs_withoutEdge (hno.imp_right fun hno => ?_)
      by_cases ha : l.anchor = some old
      · exact Or.inr (hno old ha rfl)
      · exact Or.inl ha

variable (H : g.Shaped) (hn : g.get? u = some n) (hk : n.kind.isAnchor = true)
  (hs : g.strengthenGuard u q reason = .ok (s, h))

include H hn hk hs

/-- Control turns to a trap: the node itself, the trap, and the guards that go. -/
theorem strengthened : s.detached = n.successors.head? ∧ h.classes = g.classes ∧ h.capacity = g.capacity + 1 ∧
    h.get? g.capacity = some { kind := .deoptimize reason, synthetic := true, predecessors := [u] } ∧
    (∀ j m, g.get? j = some m → (h.get? j = none ↔ m.kind.isGuard = true ∧ m.anchor = some u ∧ q ≤ j)) ∧
    ∀ j m, h.get? j = some m → j < g.capacity → ∃ l, g.get? j = some l ∧
      m = { (match s.detached with
          | some old => withoutEdge u old (g.predecessorIndex? u old) j l
          | none => l) with
        successors := if j = u then g.capacity :: l.successors.tail else l.successors } := by
  have hctl := Kind.isControl_of_isAnchor hk
  obtain ⟨n', hn', _, hdetached, hremoved, hclasses, hcap, hget⟩ := strengthenGuard_ok
    (fun m hm t => H.successor_lt hm (by cases hn.symm.trans hm; exact hctl)) hs
  cases hn.symm.trans hn'
  have hmem : ∀ j m, g.get? j = some m → (j ∈ s.removed ↔ m.kind.isGuard = true ∧ m.anchor = some u ∧ q ≤ j) := by
    intro j m hm
    rw [hremoved, mem_guardsAt]
    constructor
    · rintro ⟨⟨m', hm', hg, ha⟩, hle⟩
      cases hm.symm.trans hm'
      exact ⟨hg, ha, hle⟩
    · exact fun ⟨hg, ha, hle⟩ => ⟨⟨m, hm, hg, ha⟩, hle⟩
  refine ⟨hdetached, hclasses, hcap, ?_, fun j m hm => ?_, fun j m hm hlt => ?_⟩
  · rw [hget, if_neg, if_pos rfl]
    rw [hremoved, mem_guardsAt]
    rintro ⟨⟨m, hm, _⟩, _⟩
    exact absurd (lt_capacity hm) (Nat.lt_irrefl _)
  · rw [← hmem j m hm, hget, if_neg (Nat.ne_of_lt (lt_capacity hm)), hm]
    split
    next hj => exact iff_of_true rfl hj
    next hj => exact iff_of_false (by simp) hj
  · rw [hget] at hm
    split at hm
    next => cases hm
    next hj =>
      rw [if_neg (Nat.ne_of_lt hlt)] at hm
      obtain ⟨l, hl, rfl⟩ := Option.map_eq_some_iff.mp hm
      exact ⟨l, hl, rfl⟩

theorem strengthened_here : ∃ m, h.get? u = some m ∧ m.kind = n.kind ∧ m.inputs = n.inputs ∧
    m.predecessors = n.predecessors ∧ m.successors = [g.capacity] ∧
    ∀ t ∈ n.successors, s.detached = some t := by
  have hctl := Kind.isControl_of_isAnchor hk
  obtain ⟨hdetached, _, _, _, hgone, hnode⟩ := strengthened H hn hk hs
  have hlive : h.get? u ≠ none := by
    intro hnone
    rw [Kind.isControl_of_isGuard ((hgone u n hn).mp hnone).1] at hctl
    cases hctl
  obtain ⟨m, hm⟩ := Option.ne_none_iff_exists'.mp hlive
  obtain ⟨l, hl, hml⟩ := hnode u m hm (lt_capacity hn)
  cases hn.symm.trans hl
  obtain ⟨hkind, _, _, _, _, hsucc, hpred, _, hinputs⟩ := strengthened_node hml
  have hlen := H.single u n hn hctl (by intro he; simp [he, Kind.isAnchor] at hk)
  have hself : s.detached ≠ some u := by
    intro hd
    refine H.ne_of_step (H.step_of_successor hn hctl ?_ (List.mem_of_head? (hdetached ▸ hd))) rfl
    intro he
    simp [he, Kind.isAnchor] at hk
  refine ⟨m, hm, hkind, hinputs (Or.inl ?_), by simpa [hself] using hpred, ?_, fun t ht => ?_⟩
  · intro he
    simp [he, Kind.isAnchor] at hk
  · obtain hs | ⟨_, hs⟩ := eq_nil_or_singleton hlen <;> simpa [hs] using hsucc
  · rw [hdetached, eq_singleton_of_mem hlen ht]
    rfl

theorem Cut.strengthen : Cut u (fun t => s.detached = some t) g h := by
  have hctl := Kind.isControl_of_isAnchor hk
  obtain ⟨hdetached, hclasses, hcap, htrap, hgone, hnode⟩ := strengthened H hn hk hs
  obtain ⟨v, hv, hvkind, hvinputs, hvpred, hvsucc, hvdetached⟩ := strengthened_here H hn hk hs
  have hne : n.kind ≠ .branch ∧ n.kind ≠ .loopEnd ∧ n.kind.isTerminal = false := by
    cases he : n.kind <;> simp_all [Kind.isAnchor, Kind.isTerminal]
  refine ⟨hclasses, by omega, fun j m hm hlt hj => ?_, fun p m t l k hp hkp ha hl hkt => ?_, fun m hm => ?_,
    fun j m hm hnone => Or.inl ?_, fun hnone => ?_, fun c m hm hge => ?_, fun c m hm hge => ?_, fun m l hm hl => ?_,
    fun hnone => ?_⟩
  · obtain ⟨l, hl, hml⟩ := hnode j m hm hlt
    obtain ⟨hkind, hstamp, hanchor, hguard, hmemory, hsucc, hpred, _, hinputs⟩ := strengthened_node hml
    exact ⟨l, hl, hkind, hstamp, hanchor, hguard, hmemory, by simpa [hj] using hsucc,
      fun h => hinputs (Or.inl (hkind ▸ h)), fun hD => by simpa [hD] using hpred, fun hD => by simpa [hD] using hpred⟩
  · obtain ⟨l', hl', hml⟩ := hnode p m hp (lt_capacity hl)
    cases hl.symm.trans hl'
    obtain ⟨hkind, _, hanchor, _, _, _, _, hcut, hsame⟩ := strengthened_node hml
    rw [hanchor] at ha
    refine ⟨fun hD hmem => Or.inl (hcut t _ (hkind ▸ hkp) ha hD (predecessorIndex?_of_mem hkt hmem)),
      fun hno => hsame (Or.inr fun t' ha' hD => ?_)⟩
    cases ha.symm.trans ha'
    rw [predecessorIndex?_of_get? hkt, List.idxOf?_eq_none_iff]
    exact hno.resolve_left (not_not_intro hD)
  · cases hv.symm.trans hm
    refine ⟨n, hn, hctl, hne.2.1, hne.2.2, Or.inl ⟨hvkind.symm, hvinputs.symm, hvkind ▸ hne.1⟩, hvpred,
      by simp [hvsucc], fun t ht => Or.inr ?_, fun t ht => Or.inl (hvdetached t ht)⟩
    obtain rfl : t = g.capacity := by simpa [hvsucc] using ht
    exact ⟨Nat.le_refl _, _, htrap⟩
  · obtain ⟨hg, ha, _⟩ := (hgone j m hm).mp hnone
    exact ⟨hg, ha⟩
  · cases hnone.symm.trans hv
  · have hlt := lt_capacity hm
    rw [hcap] at hlt
    obtain rfl := Nat.le_antisymm (Nat.le_of_lt_succ hlt) hge
    cases htrap.symm.trans hm
    exact ⟨reason, rfl, rfl, rfl, v, hv, by simp [hvsucc]⟩
  · have hlt := lt_capacity hm
    rw [hcap] at hlt
    obtain rfl := Nat.le_antisymm (Nat.le_of_lt_succ hlt) hge
    cases htrap.symm.trans hm
    rfl
  · obtain ⟨l', hl', hml⟩ := hnode u m hm (lt_capacity hl)
    cases hl.symm.trans hl'
    obtain ⟨hkind, _, hanchor, hguard, hmemory, _⟩ := strengthened_node hml
    exact ⟨hanchor, hguard, hmemory, fun hne => absurd hkind hne⟩
  · cases hnone.symm.trans hv

end Strengthen

end Graph

end GuardElision
