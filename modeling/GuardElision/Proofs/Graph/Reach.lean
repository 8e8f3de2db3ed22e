import GuardElision.Graph.Structure
import GuardElision.Proofs.Flow.Route
import GuardElision.Proofs.Graph.Lookup
import Mathlib.Data.Finset.Lattice.Fold

namespace GuardElision

namespace Graph

/-- Control goes forward from `c` to `s`. -/
def Step (g : Graph) (c s : NodeId) : Prop :=
  ∃ n, g.get? c = some n ∧ n.kind.isControl = true ∧ n.kind ≠ .loopEnd ∧ s ∈ n.successors ∧
    ∃ m, g.get? s = some m

def Reach (g : Graph) (c : NodeId) : Prop :=
  g.forwardFlow.Reaches start c

def Dom (g : Graph) (a b : NodeId) : Prop :=
  g.forwardFlow.Dominates start a b

variable {g h : Graph} {a b c s : NodeId}

theorem mem_forwardSuccessors : s ∈ g.forwardSuccessors c ↔ g.Step c s := by
  unfold forwardSuccessors Step
  cases hn : g.get? c with
  | none => simp
  | some n =>
    by_cases hk : n.kind.isControl = true ∧ n.kind ≠ .loopEnd
    · simp [hk.1, hk.2, isLive_iff]
    · have hf : (n.kind.isControl && decide (n.kind ≠ .loopEnd)) = false := by
        simpa [Bool.and_eq_false_iff, or_iff_not_imp_left] using hk
      simp only [hf, Bool.false_eq_true, ↓reduceIte, List.not_mem_nil, Option.some.injEq, false_iff]
      rintro ⟨m, rfl, hc, hl, _⟩
      exact hk ⟨hc, hl⟩

theorem Step.lt (hs : g.Step c s) : s < g.capacity :=
  let ⟨_, _, _, _, _, _, hm⟩ := hs
  lt_capacity hm

theorem Reach.start (hs : Graph.start < g.capacity) : g.Reach Graph.start :=
  ⟨_, .nil hs⟩

theorem Reach.step (hc : g.Reach c) (hs : g.Step c s) : g.Reach s :=
  hc.snoc (mem_forwardSuccessors.mpr hs) hs.lt

theorem Reach.induct {P : NodeId → Prop} (hb : g.Reach b) (hstart : P Graph.start)
    (hstep : ∀ c s, g.Reach c → P c → g.Step c s → P s) : P b :=
  Digraph.Reaches.induct hb hstart fun c s hc hp hs _ => hstep c s hc hp (mem_forwardSuccessors.mp hs)

theorem Reach.exists_step (hb : g.Reach b) (hne : b ≠ Graph.start) : ∃ a, g.Reach a ∧ g.Step a b := by
  obtain ⟨a, ha, hs⟩ := Digraph.Reaches.exists_predecessor hb hne
  exact ⟨a, ha, mem_forwardSuccessors.mp hs⟩

theorem Dom.reach (hd : g.Dom a b) : g.Reach b := hd.1

theorem Dom.reach_left (hd : g.Dom a b) : g.Reach a := hd.reaches_left

theorem Dom.refl (ha : g.Reach a) : g.Dom a a := Digraph.Dominates.refl ha

theorem Dom.trans (hab : g.Dom a b) (hbc : g.Dom b c) : g.Dom a c := Digraph.Dominates.trans hab hbc

theorem Dom.antisymm (hab : g.Dom a b) (hba : g.Dom b a) : a = b := Digraph.Dominates.antisymm hab hba

/-- What dominates a node dominates what leads to it. -/
theorem Dom.step_left (hd : g.Dom a c) (hne : a ≠ c) (hb : g.Reach b) (hs : g.Step b c) : g.Dom a b :=
  (hb.dominates_or_avoids a).resolve_right fun h =>
    hd.not_avoids (h.snoc (mem_forwardSuccessors.mpr hs) hs.lt hne.symm)

theorem Dom.of_single (hb : g.Reach b) (hne : b ≠ Graph.start) (hsingle : ∀ c, g.Reach c → g.Step c b → c = a) :
    g.Dom a b :=
  Digraph.dominates_of_single hb hne fun c hc hs => hsingle c hc (mem_forwardSuccessors.mp hs)

section

variable (hcap : Graph.start < g.capacity)
  (hsub : ∀ c s, h.Reach c → h.Step c s → s < g.capacity → c < g.capacity ∧ g.Step c s)

include hcap hsub

theorem Reach.of_sub (hb : h.Reach b) (hlt : b < g.capacity) : g.Reach b := by
  refine Digraph.Reaches.transfer (K := (· < g.capacity)) hcap (fun c s hc hs hlt => ?_) hb hlt
  obtain ⟨hc', hs'⟩ := hsub c s hc (mem_forwardSuccessors.mp hs) hlt
  exact ⟨hc', mem_forwardSuccessors.mpr hs', hs'.lt⟩

theorem Dom.of_sub (hd : g.Dom a b) (hb : h.Reach b) : h.Dom a b := by
  refine Digraph.Dominates.transfer (K := (· < g.capacity)) hcap (fun c s hc hs hlt => ?_) hd hb hd.reach.lt
  obtain ⟨hc', hs'⟩ := hsub c s hc (mem_forwardSuccessors.mp hs) hlt
  exact ⟨hc', mem_forwardSuccessors.mpr hs', hs'.lt⟩

end

theorem Dom.rank {rank : NodeId → Nat} (hrank : ∀ c s, g.Step c s → rank c < rank s) {a b : NodeId} (hd : g.Dom a b) :
    a = b ∨ rank a < rank b := by
  have hall : ∀ a, g.Dom a b → a = b ∨ rank a < rank b := by
    refine hd.reach.induct (P := fun b => ∀ a, g.Dom a b → a = b ∨ rank a < rank b) (fun a ha => ?_)
      fun c s hc ih hs a ha => ?_
    · exact Or.inl (ha.antisymm (Digraph.Dominates.entry_left ha.reach_left))
    · by_cases hne : a = s
      · exact Or.inl hne
      · have hlt := hrank c s hs
        rcases ih a (ha.step_left hne hc hs) with rfl | hac
        · exact Or.inr hlt
        · exact Or.inr (Nat.lt_trans hac hlt)
  exact hall a hd

/-- Control nodes and their edges are as they should be. -/
structure Shaped (g : Graph) : Prop where
  start : ∃ n, g.get? Graph.start = some n ∧ n.kind = .start ∧ n.predecessors = []
  start_only : ∀ c n, g.get? c = some n → n.kind = .start → c = Graph.start
  succ : ∀ c n, g.get? c = some n → n.kind.isControl = true → ∀ s ∈ n.successors,
    (∃ m, g.get? s = some m ∧ m.kind.isControl = true ∧ c ∈ m.predecessors) ∨
      (n.kind = .loopEnd ∧ s < g.capacity ∧ g.get? s = none)
  pred : ∀ c n, g.get? c = some n → n.kind.isControl = true → ∀ p ∈ n.predecessors,
    ∃ m, g.get? p = some m ∧ m.kind.isControl = true ∧ c ∈ m.successors
  nodup : ∀ c n, g.get? c = some n → n.kind.isControl = true → n.predecessors.Nodup
  branch : ∀ c n, g.get? c = some n → n.kind = .branch → ∃ yes no, n.successors = [yes, no] ∧ yes ≠ no ∧
    g.kind? yes = some .begin ∧ g.kind? no = some .begin
  single : ∀ c n, g.get? c = some n → n.kind.isControl = true → n.kind ≠ .branch → n.successors.length ≤ 1
  terminal : ∀ c n, g.get? c = some n → n.kind.isTerminal = true → n.successors = []
  loopEnd : ∀ c n, g.get? c = some n → n.kind = .loopEnd → ∀ s ∈ n.successors, ∀ m, g.get? s = some m →
    m.kind = .loopBegin
  header : ∀ c n, g.get? c = some n → n.kind = .loopEnd → g.Reach c → ∀ s ∈ n.successors, g.Dom s c
  join : ∀ c n, g.get? c = some n → n.kind.isControl = true → n.kind.isMerge = false →
    n.predecessors.length ≤ 1
  ranked : ∃ rank : NodeId → Nat, ∀ c s, g.Step c s → rank c < rank s

namespace Shaped

variable (H : g.Shaped) {n m : Node}

include H

theorem start_lt : Graph.start < g.capacity :=
  let ⟨_, hn, _⟩ := H.start
  lt_capacity hn

theorem exists_control (hc : g.Reach c) : ∃ n, g.get? c = some n ∧ n.kind.isControl = true := by
  refine hc.induct (P := fun c => ∃ n, g.get? c = some n ∧ n.kind.isControl = true) ?_
    fun a b _ _ hs => ?_
  · obtain ⟨n, hn, hk, _⟩ := H.start
    exact ⟨n, hn, by rw [hk]; rfl⟩
  · obtain ⟨n, hn, hk, hl, hm, m, hmb⟩ := hs
    rcases H.succ a n hn hk b hm with ⟨m', hm', hk', _⟩ | ⟨he, _⟩
    · exact ⟨m', hm', hk'⟩
    · exact absurd he hl

theorem isControl (hc : g.Reach c) (hn : g.get? c = some n) : n.kind.isControl = true := by
  obtain ⟨m, hm, hk⟩ := H.exists_control hc
  cases hn.symm.trans hm
  exact hk

theorem successor_lt {s : NodeId} (hc : g.get? c = some n) (hk : n.kind.isControl = true) (hs : s ∈ n.successors) :
    s < g.capacity := by
  rcases H.succ c n hc hk s hs with ⟨m, hm, _⟩ | ⟨_, hlt, _⟩
  · exact lt_capacity hm
  · exact hlt

theorem step_of_successor (hc : g.get? c = some n) (hk : n.kind.isControl = true) (hl : n.kind ≠ .loopEnd)
    (hs : s ∈ n.successors) : g.Step c s := by
  rcases H.succ c n hc hk s hs with ⟨m, hm, _, _⟩ | ⟨he, _⟩
  · exact ⟨n, hc, hk, hl, hs, m, hm⟩
  · exact absurd he hl

/-- The successors of a reachable node are reachable. -/
theorem reach_successor (hr : g.Reach c) (hc : g.get? c = some n) (hs : s ∈ n.successors) : g.Reach s := by
  by_cases hl : n.kind = .loopEnd
  · exact (H.header c n hc hl hr s hs).reach_left
  · exact hr.step (H.step_of_successor hc (H.isControl hr hc) hl hs)

theorem mem_predecessors (hs : g.Step a b) (hb : g.get? b = some m) : a ∈ m.predecessors := by
  obtain ⟨n, hn, hk, hl, hm, _⟩ := hs
  rcases H.succ a n hn hk b hm with ⟨m', hm', _, hp⟩ | ⟨he, _⟩
  · cases hb.symm.trans hm'
    exact hp
  · exact absurd he hl

theorem dom_of_predecessors (hr : g.Reach b) (hb : g.get? b = some m) (hp : m.predecessors = [a]) :
    g.Dom a b := by
  refine Dom.of_single hr ?_ fun c _ hs => ?_
  · rintro rfl
    obtain ⟨n, hn, _, hnil⟩ := H.start
    cases hb.symm.trans hn
    simp [hnil] at hp
  · simpa [hp] using H.mem_predecessors hs hb

theorem nodup_successors (hc : g.get? c = some n) (hk : n.kind.isControl = true) : n.successors.Nodup := by
  by_cases hb : n.kind = .branch
  · obtain ⟨yes, no, hs, hne, _⟩ := H.branch c n hc hb
    simp [hs, hne]
  · obtain hs | ⟨s, hs⟩ := eq_nil_or_singleton (H.single c n hc hk hb) <;> simp [hs]

theorem ne_of_step (hs : g.Step a b) : a ≠ b := by
  obtain ⟨rank, hrank⟩ := H.ranked
  rintro rfl
  exact Nat.lt_irrefl _ (hrank a a hs)

theorem reach_of_has_predecessor
    (hpred : ∀ c n, g.get? c = some n → n.kind.isControl = true → c ≠ Graph.start → ∃ p, g.Step p c)
    (hc : g.get? c = some n) (hk : n.kind.isControl = true) : g.Reach c := by
  obtain ⟨rank, hrank⟩ := H.ranked
  induction hr : rank c using Nat.strong_induction_on generalizing c n with
  | _ r ih =>
    by_cases hs : c = Graph.start
    · exact hs ▸ Reach.start H.start_lt
    · obtain ⟨p, hp⟩ := hpred c n hc hk hs
      obtain ⟨k, hpk, hkk, _⟩ := id hp
      exact (ih (rank p) (hr ▸ hrank p c hp) hpk hkk rfl).step hp

end Shaped

/-- The control nodes of `h` are those of `g` with fewer edges, but for traps that were added. A branch
may have become a plain step. -/
structure SubFlow (g h : Graph) : Prop where
  live : ∀ x n, h.get? x = some n → x < g.capacity → ∃ m, g.get? x = some m
  old : ∀ c n, h.get? c = some n → n.kind.isControl = true → c < g.capacity → ∃ m, g.get? c = some m ∧
    (m.kind = n.kind ∧ m.inputs = n.inputs ∨ n.kind = .begin ∧ m.kind = .branch) ∧
    (∀ s ∈ n.successors, s < g.capacity → s ∈ m.successors) ∧
    (n.kind = .branch → n.successors = m.successors) ∧
    (n.kind ≠ .branch → n.successors.length ≤ 1) ∧
    (m.successors = [] → n.kind.isTerminal = true → n.successors = []) ∧
    (n.kind = .loopEnd → ∀ s ∈ n.successors, s ∈ m.successors) ∧
    n.predecessors.Sublist m.predecessors
  fresh : ∀ c n, h.get? c = some n → g.capacity ≤ c →
    ∃ reason, n.kind = .deoptimize reason ∧ n.successors = [] ∧ n.predecessors.length ≤ 1

/-- Folding a branch does not change what sort of node it is. -/
theorem same_sort {k l : Kind} {P : Prop} (hkl : k = l ∧ P ∨ l = .begin ∧ k = .branch) :
    k.isControl = l.isControl ∧ k.isMerge = l.isMerge := by
  rcases hkl with ⟨rfl, _⟩ | ⟨rfl, rfl⟩
  · exact ⟨rfl, rfl⟩
  · exact ⟨rfl, rfl⟩

namespace SubFlow

variable (S : SubFlow g h) {n : Node}

include S

theorem step (hs : h.Step c s) (hlt : s < g.capacity) : g.Step c s := by
  obtain ⟨n, hn, hk, hl, hmem, k, hk'⟩ := hs
  by_cases hc : c < g.capacity
  · obtain ⟨m, hm, hkind, hsucc, _⟩ := S.old c n hn hk hc
    refine ⟨m, hm, (same_sort hkind).1.trans hk, ?_, hsucc s hmem hlt, S.live s k hk' hlt⟩
    · rcases hkind with ⟨he, _⟩ | ⟨_, he⟩
      · exact he ▸ hl
      · simp [he]
  · obtain ⟨_, _, hnil, _⟩ := S.fresh c n hn (Nat.not_lt.mp hc)
    simp [hnil] at hmem

theorem reach (hstart : Graph.start < g.capacity) (hc : h.Reach c) (hlt : c < g.capacity) : g.Reach c :=
  hc.of_sub hstart (fun _ _ _ hs hlt =>
    let hstep := S.step hs hlt
    let ⟨_, hn, _⟩ := id hstep
    ⟨lt_capacity hn, hstep⟩) hlt

theorem dom (hstart : Graph.start < g.capacity) (hd : g.Dom a c) (hc : h.Reach c) : h.Dom a c :=
  hd.of_sub hstart (fun _ _ _ hs hlt =>
    let hstep := S.step hs hlt
    let ⟨_, hn, _⟩ := id hstep
    ⟨lt_capacity hn, hstep⟩) hc

end SubFlow

/-- With fewer edges control nodes stay in shape, if edges are still recorded at both ends. -/
theorem Shaped.of_subFlow (H : g.Shaped) (S : SubFlow g h)
    (hstart : ∃ n, h.get? Graph.start = some n ∧ n.kind = .start)
    (hsucc : ∀ c n, h.get? c = some n → n.kind.isControl = true → ∀ s ∈ n.successors,
      (∃ m, h.get? s = some m ∧ m.kind.isControl = true ∧ c ∈ m.predecessors) ∨
        (n.kind = .loopEnd ∧ s < h.capacity ∧ h.get? s = none))
    (hpred : ∀ c n, h.get? c = some n → n.kind.isControl = true → ∀ p ∈ n.predecessors,
      ∃ m, h.get? p = some m ∧ m.kind.isControl = true ∧ c ∈ m.successors) : h.Shaped := by
  have hold : ∀ c n, h.get? c = some n → n.kind.isControl = true → n.kind ≠ .begin →
      (∀ reason, n.kind ≠ .deoptimize reason) → c < g.capacity ∧ ∃ m, g.get? c = some m ∧
        m.kind = n.kind := by
    intro c n hn hk hb hd
    have hc : c < g.capacity := by
      by_contra hc
      obtain ⟨reason, hr, _⟩ := S.fresh c n hn (Nat.not_lt.mp hc)
      exact hd reason hr
    obtain ⟨m, hm, ⟨hkind, _⟩ | ⟨hkind, _⟩, _⟩ := S.old c n hn hk hc
    · exact ⟨hc, m, hm, hkind⟩
    · exact absurd hkind hb
  have hlast : ∀ c n, h.get? c = some n → n.kind = .loopEnd → ∃ m, g.get? c = some m ∧ m.kind = .loopEnd ∧
      ∀ s ∈ n.successors, s ∈ m.successors := by
    intro c n hn hk
    obtain ⟨hc, m, hm, hkind⟩ := hold c n hn (by simp [hk, Kind.isControl]) (by simp [hk]) (by simp [hk])
    obtain ⟨m', hm', _, _, _, _, _, hsub, _⟩ := S.old c n hn (by simp [hk, Kind.isControl]) hc
    cases hm.symm.trans hm'
    exact ⟨m, hm, hkind.trans hk, hsub hk⟩
  refine ⟨?_, ?_, hsucc, hpred, ?_, ?_, ?_, ?_, ?_, ?_, ?_, ?_⟩
  · obtain ⟨n, hn, hk⟩ := hstart
    obtain ⟨k, hk', _, hnil⟩ := H.start
    obtain ⟨m, hm, _, _, _, _, _, _, hsub⟩ := S.old _ n hn (by simp [hk, Kind.isControl]) H.start_lt
    cases hk'.symm.trans hm
    rw [hnil] at hsub
    exact ⟨n, hn, hk, List.sublist_nil.mp hsub⟩
  · intro c n hn hk
    obtain ⟨_, m, hm, hkind⟩ := hold c n hn (by simp [hk, Kind.isControl]) (by simp [hk]) (by simp [hk])
    exact H.start_only c m hm (hkind.trans hk)
  · intro c n hn hk
    by_cases hc : c < g.capacity
    · obtain ⟨m, hm, hkind, _, _, _, _, _, hsub⟩ := S.old c n hn hk hc
      exact (H.nodup c m hm ((same_sort hkind).1.trans hk)).sublist hsub
    · obtain ⟨_, _, _, hlen⟩ := S.fresh c n hn (Nat.not_lt.mp hc)
      obtain hp | ⟨p, hp⟩ := eq_nil_or_singleton hlen <;> simp [hp]
  · intro c n hn hk
    obtain ⟨hc, m, hm, hkind⟩ := hold c n hn (by simp [hk, Kind.isControl]) (by simp [hk]) (by simp [hk])
    obtain ⟨m', hm', _, _, hsame, _⟩ := S.old c n hn (by simp [hk, Kind.isControl]) hc
    cases hm.symm.trans hm'
    obtain ⟨yes, no, hlist, hne, hyes, hno⟩ := H.branch c m hm (hkind.trans hk)
    have harm : ∀ s ∈ n.successors, g.kind? s = some .begin → h.kind? s = some .begin := by
      intro s hs hg
      obtain ⟨k, hk', hb⟩ := kind?_eq_some_iff.mp hg
      rcases hsucc c n hn (by simp [hk, Kind.isControl]) s hs with ⟨k', hks, hc', _⟩ | ⟨he, _⟩
      · refine kind?_eq_some_iff.mpr ⟨k', hks, ?_⟩
        obtain ⟨l, hl, ⟨he, _⟩ | ⟨he, _⟩, _⟩ := S.old s k' hks hc' (lt_capacity hk')
        · cases hk'.symm.trans hl
          exact he.symm.trans hb
        · exact he
      · simp [hk] at he
    rw [hsame hk, hlist] at harm
    exact ⟨yes, no, (hsame hk).trans hlist, hne, harm yes (by simp) hyes, harm no (by simp) hno⟩
  · intro c n hn hk hb
    by_cases hc : c < g.capacity
    · obtain ⟨_, _, _, _, _, hlen, _⟩ := S.old c n hn hk hc
      exact hlen hb
    · obtain ⟨_, _, hnil, _⟩ := S.fresh c n hn (Nat.not_lt.mp hc)
      simp [hnil]
  · intro c n hn hk
    by_cases hc : c < g.capacity
    · obtain ⟨m, hm, hkind, _, _, _, hnil, _⟩ := S.old c n hn (Kind.isControl_of_isTerminal hk) hc
      refine hnil (H.terminal c m hm ?_) hk
      rcases hkind with ⟨he, _⟩ | ⟨he, _⟩
      · exact he ▸ hk
      · simp [he, Kind.isTerminal] at hk
    · obtain ⟨_, _, hnil, _⟩ := S.fresh c n hn (Nat.not_lt.mp hc)
      exact hnil
  · intro c n hn hk s hs k hks
    obtain ⟨m, hm, hkind, hsub⟩ := hlast c n hn hk
    have hlt : s < g.capacity := by
      rcases H.succ c m hm (by simp [hkind, Kind.isControl]) s (hsub s hs) with ⟨l, hl, _⟩ | ⟨_, hlt, _⟩
      · exact lt_capacity hl
      · exact hlt
    obtain ⟨l, hl⟩ := S.live s k hks hlt
    have hbegin := H.loopEnd c m hm hkind s (hsub s hs) l hl
    rcases hsucc c n hn (by simp [hk, Kind.isControl]) s hs with ⟨k', hk', hc', _⟩ | ⟨_, _, hnone⟩
    · cases hks.symm.trans hk'
      obtain ⟨l', hl', ⟨he, _⟩ | ⟨_, he⟩, _⟩ := S.old s k hks hc' hlt
      · cases hl.symm.trans hl'
        exact he.symm.trans hbegin
      · cases hl.symm.trans hl'
        simp [he] at hbegin
    · rw [hks] at hnone
      cases hnone
  · intro c n hn hk hr s hs
    obtain ⟨m, hm, hkind, hsub⟩ := hlast c n hn hk
    exact S.dom H.start_lt (H.header c m hm hkind (S.reach H.start_lt hr (lt_capacity hm)) s (hsub s hs)) hr
  · intro c n hn hk hmerge
    by_cases hc : c < g.capacity
    · obtain ⟨m, hm, hkind, _, _, _, _, _, hsub⟩ := S.old c n hn hk hc
      have hsort := same_sort hkind
      exact Nat.le_trans hsub.length_le (H.join c m hm (hsort.1.trans hk) (hsort.2.trans hmerge))
    · obtain ⟨_, _, _, hlen⟩ := S.fresh c n hn (Nat.not_lt.mp hc)
      exact hlen
  · obtain ⟨rank, hrank⟩ := H.ranked
    refine ⟨fun c => if c < g.capacity then rank c else (Finset.range g.capacity).sup rank + 1, fun c s hs => ?_⟩
    have hc : c < g.capacity := by
      by_contra hc
      obtain ⟨n, hn, _, _, hmem, _⟩ := hs
      obtain ⟨_, _, hnil, _⟩ := S.fresh c n hn (Nat.not_lt.mp hc)
      simp [hnil] at hmem
    by_cases hlt : s < g.capacity
    · simpa [hc, hlt] using hrank c s (S.step hs hlt)
    · have := Finset.le_sup (f := rank) (Finset.mem_range.mpr hc)
      simp only [hc, hlt, if_true, if_false]
      omega

structure SameControl (g h : Graph) : Prop where
  capacity : h.capacity = g.capacity
  live : ∀ x n, h.get? x = some n → ∃ m, g.get? x = some m
  forth : ∀ c m, g.get? c = some m → m.kind.isControl = true → ∃ n, h.get? c = some n ∧
    n.kind = m.kind ∧ n.inputs = m.inputs ∧ n.successors = m.successors ∧ n.predecessors = m.predecessors
  back : ∀ c n, h.get? c = some n → n.kind.isControl = true → ∃ m, g.get? c = some m ∧
    m.kind = n.kind ∧ m.inputs = n.inputs ∧ m.successors = n.successors ∧ m.predecessors = n.predecessors

namespace SameControl

theorem refl (g : Graph) : SameControl g g :=
  ⟨rfl, fun _ n hn => ⟨n, hn⟩, fun _ m hm _ => ⟨m, hm, rfl, rfl, rfl, rfl⟩, fun _ n hn _ => ⟨n, hn, rfl, rfl, rfl, rfl⟩⟩

theorem trans {k : Graph} (C : SameControl g h) (C' : SameControl h k) : SameControl g k := by
  refine ⟨C'.capacity.trans C.capacity, fun x n hn => ?_, fun c m hm hk => ?_, fun c n hn hk => ?_⟩
  · obtain ⟨m, hm⟩ := C'.live x n hn
    exact C.live x m hm
  · obtain ⟨n, hn, hkind, hinputs, hsucc, hpred⟩ := C.forth c m hm hk
    obtain ⟨l, hl, hkind', hinputs', hsucc', hpred'⟩ := C'.forth c n hn (hkind ▸ hk)
    exact ⟨l, hl, hkind'.trans hkind, hinputs'.trans hinputs, hsucc'.trans hsucc, hpred'.trans hpred⟩
  · obtain ⟨m, hm, hkind, hinputs, hsucc, hpred⟩ := C'.back c n hn hk
    obtain ⟨l, hl, hkind', hinputs', hsucc', hpred'⟩ := C.back c m hm (hkind ▸ hk)
    exact ⟨l, hl, hkind'.trans hkind, hinputs'.trans hinputs, hsucc'.trans hsucc, hpred'.trans hpred⟩

variable (C : SameControl g h)

include C

theorem subFlow (H : g.Shaped) : SubFlow g h := by
  refine ⟨fun x n hn _ => C.live x n hn, fun c n hn hk _ => ?_, fun c n hn hcap => ?_⟩
  · obtain ⟨m, hm, hkind, hinputs, hsucc, hpred⟩ := C.back c n hn hk
    refine ⟨m, hm, Or.inl ⟨hkind, hinputs⟩, fun s hs _ => hsucc ▸ hs, fun _ => hsucc.symm, fun hb => ?_,
      fun hnil _ => hsucc ▸ hnil, fun _ s hs => hsucc ▸ hs, hpred ▸ List.Sublist.refl _⟩
    exact hsucc ▸ H.single c m hm (hkind ▸ hk) (hkind ▸ hb)
  · obtain ⟨m, hm⟩ := C.live c n hn
    exact absurd (lt_capacity hm) (Nat.not_lt.mpr hcap)

theorem shaped (H : g.Shaped) : h.Shaped := by
  refine H.of_subFlow (C.subFlow H) ?_ ?_ ?_
  · obtain ⟨m, hm, hk, _⟩ := H.start
    obtain ⟨n, hn, hkind, _⟩ := C.forth _ m hm (by simp [hk, Kind.isControl])
    exact ⟨n, hn, hkind.trans hk⟩
  · intro c n hn hk s hs
    obtain ⟨m, hm, hkind, _, hsucc, _⟩ := C.back c n hn hk
    rcases H.succ c m hm (hkind ▸ hk) s (hsucc ▸ hs) with ⟨l, hl, hkl, hp⟩ | ⟨he, hlt, hnone⟩
    · obtain ⟨l', hl', hkind', _, _, hpred⟩ := C.forth s l hl hkl
      exact Or.inl ⟨l', hl', hkind' ▸ hkl, hpred ▸ hp⟩
    · refine Or.inr ⟨hkind ▸ he, C.capacity ▸ hlt, ?_⟩
      by_contra hsome
      obtain ⟨l, hl⟩ := Option.ne_none_iff_exists'.mp hsome
      obtain ⟨l', hl'⟩ := C.live s l hl
      rw [hnone] at hl'
      cases hl'
  · intro c n hn hk p hp
    obtain ⟨m, hm, hkind, _, _, hpred⟩ := C.back c n hn hk
    obtain ⟨l, hl, hkl, hs⟩ := H.pred c m hm (hkind ▸ hk) p (hpred ▸ hp)
    obtain ⟨l', hl', hkind', _, hsucc, _⟩ := C.forth p l hl hkl
    exact ⟨l', hl', hkind' ▸ hkl, hsucc ▸ hs⟩

theorem step (H : g.Shaped) (hs : g.Step a b) : h.Step a b := by
  obtain ⟨m, hm, hk, hl, hmem, _⟩ := hs
  obtain ⟨n, hn, hkind, _, hsucc, _⟩ := C.forth a m hm hk
  rcases H.succ a m hm hk b hmem with ⟨k, hkb, hkc, _⟩ | ⟨he, _⟩
  · obtain ⟨k', hk', _⟩ := C.forth b k hkb hkc
    exact ⟨n, hn, hkind ▸ hk, hkind ▸ hl, hsucc ▸ hmem, k', hk'⟩
  · exact absurd he hl

theorem reach (H : g.Shaped) (hc : g.Reach c) : h.Reach c :=
  hc.induct (P := h.Reach) (.start (C.capacity ▸ H.start_lt)) fun _ _ _ ha hs => ha.step (C.step H hs)

end SameControl

end Graph

end GuardElision
