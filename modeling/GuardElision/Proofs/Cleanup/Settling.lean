import GuardElision.Proofs.Cleanup.Orphans
import GuardElision.Proofs.Cleanup.Prune
import GuardElision.Proofs.Graph.InOrder
import Mathlib.Data.Finset.Max

namespace GuardElision

namespace Graph

variable {g h : Graph} {u : NodeId} {D : NodeId → Prop} {place : NodeId → NodeId}
  {above : NodeId → NodeId → Prop} {lost : NodeId → Prop}

/-- All that is gone and still referred to stood at lost places. -/
structure Settling (place : NodeId → NodeId) (above : NodeId → NodeId → Prop) (lost : NodeId → Prop) (g : Graph) :
    Prop where
  formed : g.Formed
  placed : g.Placed place above
  dead : ∀ x n d, g.get? x = some n → d ∈ n.dependencies → g.get? d = none → lost (place d)

/-- Control nodes are reached, and none that asks for a value is lost. -/
structure Clear (lost : NodeId → Prop) (g : Graph) : Prop where
  reached : ∀ c n, g.get? c = some n → n.kind.isControl = true → g.Reach c
  asks : ∀ c n d, g.get? c = some n → n.kind.isControl = true → d ∈ n.dependencies → ¬lost c
  merge : ∀ m k s, g.get? m = some k → k.kind.isMerge = true → s ∈ k.predecessors → ¬lost s

theorem Settling.cut (S : Settling place above lost g) (C : Cut u D g h) (hfresh : ∀ c, g.capacity ≤ c → place c = c)
    (hgone : ∀ j m, g.get? j = some m → h.get? j = none → lost (place j)) : Settling place above lost h := by
  refine ⟨S.formed.cut C, S.placed.cut C S.formed hfresh, fun x n d hn hd hnone => ?_⟩
  by_cases hlt : x < g.capacity
  · obtain ⟨m, hm, _⟩ := C.node hn hlt
    have hd' := C.dependency S.formed hn hm hd
    cases hg : g.get? d with
    | none => exact S.dead x m d hm hd' hg
    | some l => exact hgone d l hg hnone
  · simp [C.bare x n hn (Nat.not_lt.mp hlt)] at hd

/-- What depends on a node that is gone stood at a lost place itself. -/
theorem Settling.orphan_lost (S : Settling place above lost g) (K : Clear lost g)
    (hclosed : ∀ a b, above a b → lost a → lost b) {y d : NodeId} {n : Node} (hn : g.get? y = some n)
    (hd : d ∈ n.dependencies) (hnone : g.get? d = none) : lost (place y) := by
  have hlost := S.dead y n d hn hd hnone
  rcases Node.dependency_cases hd with hrests | ⟨hphi, hin⟩
  · exact hclosed _ _ (S.placed.rests y n d hn hrests) hlost
  · obtain ⟨m, k, ha, hm, hmerge, hlen⟩ := S.formed.phi y n hn hphi
    have hr := K.reached m k hm (Kind.isControl_of_isMerge hmerge)
    obtain ⟨i, hi⟩ := List.mem_iff_getElem?.mp hin
    have hlt : i < k.predecessors.length := hlen hr ▸ (List.getElem?_eq_some_iff.mp hi).1
    have hs := List.getElem?_eq_getElem hlt
    have habove := S.placed.entry y n m k i d _ hn hphi ha hm hi hs
    exact absurd (hclosed _ _ habove hlost) (K.merge m k _ hm hmerge (List.mem_of_getElem? hs))

theorem Settling.delete (S : Settling place above lost g) (K : Clear lost g)
    (hclosed : ∀ a b, above a b → lost a → lost b) {y : NodeId} (horphan : Sweep.isOrphan g y = true) :
    Settling place above lost (g.delete y) := by
  obtain ⟨n, hn, hk, d, hd, hnone⟩ := Sweep.isOrphan_iff.mp horphan
  have hy : ∀ m, g.get? y = some m → m.kind.isControl = false := by
    intro m hm
    cases hn.symm.trans hm
    exact hk
  refine ⟨S.formed.delete hy, S.placed.delete, fun x m e hm he hgone => ?_⟩
  by_cases hey : e = y
  · subst hey
    exact S.orphan_lost K hclosed hn hd hnone
  · rw [get?_delete, if_neg hey] at hgone
    exact S.dead x m e (get?_of_delete hm) he hgone

theorem Clear.delete (K : Clear lost g) (H : g.Shaped) {y : NodeId}
    (hy : ∀ n, g.get? y = some n → n.kind.isControl = false) : Clear lost (g.delete y) :=
  ⟨fun c n hn hk => (SameControl.delete hy).reach H (K.reached c n (get?_of_delete hn) hk),
    fun c n d hn => K.asks c n d (get?_of_delete hn), fun m k s hm => K.merge m k s (get?_of_delete hm)⟩

theorem exists_lowest (H : g.Shaped) (hstart : h.Reach start) {a : NodeId} (ha : g.Reach a) :
    ∃ e, g.Dom e a ∧ h.Reach e ∧ ∀ b, g.Dom b a → h.Reach b → g.Dom b e := by
  classical
  obtain ⟨rank, hrank⟩ := H.ranked
  have hmem : ∀ b, b ∈ (Finset.range g.capacity).filter (fun e => g.Dom e a ∧ h.Reach e) ↔ g.Dom b a ∧ h.Reach b := by
    intro b
    rw [Finset.mem_filter, Finset.mem_range]
    exact ⟨And.right, fun hb => ⟨hb.1.reach_left.lt, hb⟩⟩
  obtain ⟨e, he, hmax⟩ := Finset.exists_max_image _ rank
    ⟨start, (hmem start).mpr ⟨Digraph.Dominates.entry_left ha, hstart⟩⟩
  obtain ⟨hea, hr⟩ := (hmem e).mp he
  refine ⟨e, hea, hr, fun b hba hb => ?_⟩
  rcases Digraph.Dominates.total hba hea with hbe | heb
  · exact hbe
  · have hle := hmax b ((hmem b).mpr ⟨hba, hb⟩)
    rcases Dom.rank hrank heb with rfl | hlt
    · exact heb
    · exact absurd hlt (Nat.not_lt.mpr hle)

/-- What is left of `g`: floating nodes are what they were, but for inputs of phis, and dominators that are
reached stay dominators. -/
structure Remains (g h : Graph) : Prop where
  capacity : g.capacity ≤ h.capacity
  node : ∀ x n, h.get? x = some n → n.kind.isControl = false → ∃ m, g.get? x = some m ∧ n.kind = m.kind ∧
    n.anchor = m.anchor ∧ n.guard = m.guard ∧ (n.kind ≠ .phi → n.inputs = m.inputs)
  dom : ∀ a b, g.Dom a b → h.Reach b → h.Dom a b

theorem Remains.refl (g : Graph) : Remains g g :=
  ⟨Nat.le_refl _, fun _ n hn _ => ⟨n, hn, rfl, rfl, rfl, fun _ => rfl⟩, fun _ _ hd _ => hd⟩

theorem Remains.cut {k : Graph} (R : Remains g h) (H : h.Shaped) (C : Cut u D h k) : Remains g k := by
  refine ⟨Nat.le_trans R.capacity C.capacity, fun x n hn hk => ?_, fun a b hd hb => ?_⟩
  · obtain ⟨hlt, hne⟩ := C.floating hn hk
    obtain ⟨m, hm, hkind, _, hanchor, hguard, _, _, hinputs, _⟩ := C.other x n hn hlt hne
    obtain ⟨l, hl, hkind', hanchor', hguard', hinputs'⟩ := R.node x m hm (hkind ▸ hk)
    refine ⟨l, hl, hkind.trans hkind', hanchor.trans hanchor', hguard.trans hguard', fun hphi => ?_⟩
    exact (hinputs hphi).trans (hinputs' (hkind ▸ hphi))
  · have hsub := C.subFlow H
    have hlt := Nat.lt_of_lt_of_le hd.reach.lt R.capacity
    exact hsub.dom H.start_lt (R.dom a b hd (hsub.reach H.start_lt hb hlt)) hb

theorem Remains.delete (R : Remains g h) (H : h.Shaped) {y : NodeId}
    (hy : ∀ n, h.get? y = some n → n.kind.isControl = false) : Remains g (h.delete y) := by
  have hsub := (SameControl.delete hy).subFlow H
  refine ⟨(capacity_delete h y).symm ▸ R.capacity, fun x n hn => R.node x n (get?_of_delete hn), fun a b hd hb => ?_⟩
  have hlt := Nat.lt_of_lt_of_le hd.reach.lt R.capacity
  exact hsub.dom H.start_lt (R.dom a b hd (hsub.reach H.start_lt hb hlt)) hb

theorem Remains.relies (R : Remains g h) {x y : NodeId} (hr : h.Relies x y) : g.Relies x y := by
  obtain ⟨n, hn, hk, hr⟩ := hr
  obtain ⟨m, hm, hkind, _, hguard, hinputs⟩ := R.node x n hn hk
  refine ⟨m, hm, hkind ▸ hk, ?_⟩
  rcases hr with ⟨hphi, hin⟩ | hr
  · exact Or.inl ⟨hkind ▸ hphi, hinputs hphi ▸ hin⟩
  · exact Or.inr (hguard ▸ hr)

theorem Remains.computes (R : Remains g h) {x y : NodeId} (hr : h.Computes x y) : g.Computes x y := by
  obtain ⟨n, hn, hk, hphi, hin⟩ := hr
  obtain ⟨m, hm, hkind, _, _, hinputs⟩ := R.node x n hn hk
  exact ⟨m, hm, hkind ▸ hk, hkind ▸ hphi, hinputs hphi ▸ hin⟩

/-- Once no floating node depends on one that is gone, all is in order. Nodes whose places are not reached
any more can stand higher up. -/
theorem InOrder.settle (I : g.InOrder) (R : Remains g h) (S : Settling place g.Dom lost h) (K : Clear lost h)
    (hplace : ∀ x n, g.get? x = some n → g.Reach (place x)) (hclosed : ∀ a b, g.Dom a b → lost a → lost b)
    (hfound : h.Noted []) : h.InOrder := by
  classical
  have H := I.formed.shaped
  have H' := S.formed.shaped
  have hlive : ∀ x n d, h.get? x = some n → d ∈ n.dependencies → ∃ m, h.get? d = some m := by
    intro x n d hn hd
    by_contra hno
    have hnone : h.get? d = none := by
      by_contra hsome
      exact hno (Option.ne_none_iff_exists'.mp hsome)
    by_cases hk : n.kind.isControl = true
    · refine K.asks x n d hn hk hd ?_
      rw [← S.placed.control x n hn hk]
      exact S.orphan_lost K hclosed hn hd hnone
    · exact List.not_mem_nil (hfound x n d hn (by simpa using hk) hd hnone)
  refine ⟨S.formed, hlive, K.reached, ?_, fun x hx => I.acyclic x (Relation.TransGen.mono (fun _ _ => R.computes) x x hx),
    fun q r a n m hq hk ha hr hk' ha' hrel => ?_⟩
  · have hstart : h.Reach start := .start H'.start_lt
    have hlowest : ∀ a, ∃ e, (h.Reach a → e = a) ∧
        (g.Reach a → g.Dom e a ∧ h.Reach e ∧ ∀ b, g.Dom b a → h.Reach b → g.Dom b e) := by
      intro a
      by_cases ha : g.Reach a
      · obtain ⟨e, hea, hr, hmax⟩ := exists_lowest H hstart ha
        exact ⟨e, fun hra => hea.antisymm (hmax a (.refl ha) hra), fun _ => ⟨hea, hr, hmax⟩⟩
      · exact ⟨a, fun _ => rfl, fun hr => absurd hr ha⟩
    choose low hlow using hlowest
    refine ⟨fun x => low (place x), ⟨fun c n hn hk => ?_, fun x n a hn hk ha => ?_, fun x n d hn hd => ?_,
      fun p n m k i x s hp hk ha hm hx hs => ?_⟩, fun x n hn => ?_⟩
    · show low (place c) = c
      rw [S.placed.control c n hn hk]
      exact (hlow c).1 (K.reached c n hn hk)
    · show low (place x) = a
      rw [S.placed.anchor x n a hn hk ha]
      obtain ⟨m, hm⟩ := hlive x n a hn (Node.mem_dependencies.mpr (Or.inr (Or.inl ha)))
      refine (hlow a).1 (K.reached a m hm ?_)
      rcases hk with hk | hk
      · obtain ⟨a', ha', hanchored⟩ := S.formed.guard x n hn hk
        cases ha.symm.trans ha'
        exact Kind.isControl_of_isAnchor (hanchored m hm)
      · obtain ⟨a', k, ha', hk', hmerge, _⟩ := S.formed.phi x n hn hk
        cases ha.symm.trans ha'
        cases hm.symm.trans hk'
        exact Kind.isControl_of_isMerge hmerge
    · have hd' := S.placed.rests x n d hn hd
      obtain ⟨hbelow, hr, _⟩ := (hlow _).2 hd'.reach_left
      obtain ⟨_, hr', hmax⟩ := (hlow _).2 hd'.reach
      exact R.dom _ _ (hmax _ (hbelow.trans hd') hr) hr'
    · obtain ⟨m', k', ha', hk', hmerge, _⟩ := S.formed.phi p n hp hk
      cases ha.symm.trans ha'
      cases hm.symm.trans hk'
      obtain ⟨q, hq, hqc, _⟩ := H'.pred m k hm (Kind.isControl_of_isMerge hmerge) s (List.mem_of_getElem? hs)
      have hd := R.dom _ _ (S.placed.entry p n m k i x s hp hk ha hm hx hs) (K.reached s q hq hqc)
      show h.Dom (low (place x)) s
      rw [(hlow _).1 hd.reach_left]
      exact hd
    · show h.Reach (low (place x))
      by_cases hk : n.kind.isControl = true
      · rw [S.placed.control x n hn hk, (hlow x).1 (K.reached x n hn hk)]
        exact K.reached x n hn hk
      · obtain ⟨m, hm, _⟩ := R.node x n hn (by simpa using hk)
        exact ((hlow _).2 (hplace x m hm)).2.1
  · obtain ⟨n', hq', hkind, hanchor, _⟩ := R.node q n hq (Kind.isControl_of_isGuard hk)
    obtain ⟨m', hr', hkind', hanchor', _⟩ := R.node r m hr (Kind.isControl_of_isGuard hk')
    exact I.ordered q r a n' m' hq' (hkind ▸ hk) (hanchor ▸ ha) hr' (hkind' ▸ hk') (hanchor' ▸ ha')
      (Relation.TransGen.mono (fun _ _ => R.relies) q r hrel)

end Graph

namespace Sweep

variable {g k : Graph} {u : NodeId} {D : NodeId → Prop} {place : NodeId → NodeId} {lost : NodeId → Prop} {s s' : Sweep}

theorem seed_control {id : NodeId} (hk : s.graph.isControl id = true) (hc : constantBranch? s.graph id = none) :
    seed id s = .ok [id] s := by
  refine Attempt.bind_ok.mpr ⟨s, s, rfl, ?_⟩
  rw [if_pos hk, hc]
  rfl

theorem seed_floating {id : NodeId} (hk : ¬s.graph.isControl id = true) :
    seed id s = .ok [] { s with floating := s.floating ++ [id] } := by
  refine Attempt.bind_ok.mpr ⟨s, s, rfl, ?_⟩
  rw [if_neg hk]
  rfl

theorem seeds_plain {changed : List NodeId} (hconst : ∀ id ∈ changed, constantBranch? s.graph id = none) :
    changed.flatMapM seed s = .ok (changed.filter s.graph.isControl)
      { s with floating := s.floating ++ changed.filter fun id => !s.graph.isControl id } := by
  have hloop : ∀ (bs : List (List NodeId)) (r : Sweep), r.graph = s.graph →
      List.flatMapM.loop seed changed bs r = .ok (bs.reverse.flatten ++ changed.filter s.graph.isControl)
        { r with floating := r.floating ++ changed.filter fun id => !s.graph.isControl id } := by
    induction changed with
    | nil =>
      intro bs r _
      refine Attempt.pure_ok.mpr ⟨?_, ?_⟩
      · simp
      · simp
    | cons id changed ih =>
      intro bs r hr
      obtain ⟨hid, hrest⟩ := List.forall_mem_cons.mp hconst
      by_cases hk : s.graph.isControl id = true
      · refine Attempt.bind_ok.mpr ⟨[id], r, seed_control (hr ▸ hk) (hr ▸ hid), (ih hrest ([id] :: bs) r hr).trans ?_⟩
        simp [hk]
      · refine Attempt.bind_ok.mpr ⟨[], _, seed_floating (hr ▸ hk), ?_⟩
        have hrec := ih hrest ([] :: bs) { r with floating := r.floating ++ [id] } hr
        simpa [hk] using hrec
  exact hloop [] s rfl

/-- What pruning keeps of a graph that was in order before a cut made `k` of it. -/
structure Leaving (g k : Graph) (place : NodeId → NodeId) (lost : NodeId → Prop) (s : Sweep) : Prop where
  remains : g.Remains s.graph
  settling : Graph.Settling place g.Dom lost s.graph
  noted : ∀ x n d, s.graph.get? x = some n → d ∈ n.dependencies → s.graph.get? d = none → d ∈ s.floating
  same : ∀ c n, s.graph.get? c = some n → n.kind.isControl = true → ∃ m, k.get? c = some m ∧ n.kind = m.kind ∧
    n.successors = m.successors ∧ n.dependencies = m.dependencies

theorem Leaving.congr (L : Leaving g k place lost s) (hgraph : s'.graph = s.graph) (hfloating : s'.floating = s.floating) :
    Leaving g k place lost s' := by
  obtain ⟨R, S, hnoted, hsame⟩ := L
  rw [← hgraph] at R S hnoted hsame
  rw [← hfloating] at hnoted
  exact ⟨R, S, hnoted, hsame⟩

theorem Leaving.remove (L : Leaving g k place lost s) (hfresh : ∀ c, g.capacity ≤ c → place c = c) (hlost : lost u)
    (R : Removes u s s') : Leaving g k place lost s' := by
  obtain ⟨⟨D, C⟩, hgone, _, hfloating⟩ := R
  have F := L.settling.formed
  have P := L.settling.placed
  refine ⟨L.remains.cut F.shaped C, L.settling.cut C (fun c hc => hfresh c (Nat.le_trans L.remains.capacity hc)) ?_,
    fun x n d hn hd hnone => (hfloating d).mpr ?_, fun c n hn hk => ?_⟩
  · intro j m hm hnone
    rcases C.gone j m hm hnone with ⟨hg, ha⟩ | ⟨_, rfl | ⟨hphi, ha⟩⟩
    · rwa [P.anchor j m u hm (Or.inl hg) ha]
    · obtain ⟨_, hl⟩ := C.lost hgone
      rwa [P.control j m hm (hl m hm).1]
    · rwa [P.anchor j m u hm (Or.inr hphi) ha]
  · obtain ⟨_, m, hm, _⟩ := C.old_of_gone hgone hn
    have hd' := C.dependency F hn hm hd
    cases hl : s.graph.get? d with
    | none => exact Or.inl (L.noted x m d hm hd' hl)
    | some l => exact Or.inr ⟨⟨l, rfl⟩, hnone⟩
  · obtain ⟨hc, m, hm, _⟩ := C.old_of_gone hgone hn
    obtain ⟨m', hm', hkind, _, hanchor, hguard, hmemory, hsucc, hinputs, _⟩ := C.other c n hn (Graph.lt_capacity hm) hc
    cases hm.symm.trans hm'
    obtain ⟨l, hl, hkind', hsucc', hdeps⟩ := L.same c m hm (hkind ▸ hk)
    refine ⟨l, hl, hkind.trans hkind', hsucc.trans hsucc', ?_⟩
    rw [← hdeps, Node.dependencies, Node.dependencies, hanchor, hguard, hmemory, hinputs]
    intro hphi
    simp [hphi, Kind.isControl] at hk

/-- After a cut, with the places below `low` given up too, pruning and dropping orphans restores order. -/
theorem settles (I : g.InOrder) (C : Graph.Cut u D g k) (hu : ∃ n, k.get? u = some n) {changed : List NodeId}
    (low : NodeId → Prop) (hconst : ∀ id ∈ changed, constantBranch? k id = none) (hcut : ∀ t, D t → t ∈ changed)
    (hgone : ∀ j m, g.get? j = some m → k.get? j = none → j ∈ changed ∧ low u)
    (hclosed : ∀ a b, g.Dom a b → low a → low b)
    (hlow : ∀ c n, k.get? c = some n → k.Reach c → low c → n.dependencies = [] ∧
      ∀ t ∈ n.successors, ∀ m, k.get? t = some m → m.kind.isMerge = false) :
    ∃ control s₁ s₂, changed.flatMapM seed { graph := k } = .ok control s₁ ∧
      prune (control.length + edgeCount s₁.graph) control.reverse s₁ = .ok () s₂ ∧
      (dropOrphans (s₂.floating.length + s₂.graph.liveCount) s₂.floating.reverse s₂).graph.InOrder := by
  classical
  have H := I.formed.shaped
  have H' := C.shaped H
  have hsub := C.subFlow H
  obtain ⟨place₀, P₀, hplace₀⟩ := I.placed
  obtain ⟨v, hv⟩ := hu
  let place : NodeId → NodeId := fun x => if g.isLive x = true then place₀ x else x
  have hthere : ∀ x n, g.get? x = some n → place x = place₀ x := fun x n hn => if_pos (Graph.isLive_iff.mpr ⟨n, hn⟩)
  have hfresh : ∀ c, g.capacity ≤ c → place c = c := by
    intro c hc
    refine if_neg fun hlive => ?_
    obtain ⟨n, hn⟩ := Graph.isLive_iff.mp hlive
    exact absurd (Graph.lt_capacity hn) (Nat.not_lt.mpr hc)
  have P : g.Placed place g.Dom := by
    refine ⟨fun c n hn hk => (hthere c n hn).trans (P₀.control c n hn hk),
      fun x n a hn hk ha => (hthere x n hn).trans (P₀.anchor x n a hn hk ha), fun x n d hn hd => ?_,
      fun p n m l i x t hp hk ha hm hx ht => ?_⟩
    · obtain ⟨m, hm⟩ := I.live x n d hn hd.mem
      rw [hthere x n hn, hthere d m hm]
      exact P₀.rests x n d hn hd
    · obtain ⟨q, hq⟩ := I.live p n x hp (Node.mem_dependencies.mpr (Or.inl (List.mem_of_getElem? hx)))
      rw [hthere x q hq]
      exact P₀.entry p n m l i x t hp hk ha hm hx ht
  let lost : NodeId → Prop := fun a => ¬k.Reach a ∨ low a
  have hlost : ∀ a b, g.Dom a b → lost a → lost b := by
    intro a b hd ha
    rcases ha with ha | ha
    · exact Or.inl fun hb => ha (hsub.dom H.start_lt hd hb).reach_left
    · exact Or.inr (hclosed a b hd ha)
  have S₀ : Graph.Settling place g.Dom lost g := by
    refine ⟨I.formed, P, fun x n d hn hd hnone => ?_⟩
    obtain ⟨m, hm⟩ := I.live x n d hn hd
    cases hnone.symm.trans hm
  have S₁ : Graph.Settling place g.Dom lost k := by
    refine S₀.cut C hfresh fun j m hm hnone => ?_
    rcases C.gone j m hm hnone with ⟨hg, ha⟩ | ⟨hnone', _⟩
    · rw [P.anchor j m u hm (Or.inl hg) ha]
      exact Or.inr (hgone j m hm hnone).2
    · cases hnone'.symm.trans hv
  have hseeds := seeds_plain (s := { graph := k }) hconst
  -- nothing but the targets of the edges that were cut can have lost its last predecessor
  have hprune : Pruning k { graph := k, floating := changed.filter fun id => !k.isControl id }
      (changed.filter k.isControl).reverse := by
    refine ⟨H', rfl, fun _ => Iff.rfl, fun _ _ hd => hd, fun c n hn hk hc => ?_, fun c hc n hn => ?_⟩
    · refine (C.step_or_cut H ⟨v, hv⟩ hn fun hlt => ?_).imp_right fun hD => ?_
      · obtain ⟨m, hm, hkm⟩ := C.control_before hn hk hlt
        obtain ⟨p, _, hs⟩ := (I.reached c m hm hkm).exists_step hc
        exact ⟨p, hs⟩
      · refine List.mem_reverse.mpr (List.mem_filter.mpr ⟨hcut c hD, ?_⟩)
        simpa [Graph.isControl, Graph.kind?, hn] using hk
    · have hcontrol := (List.mem_filter.mp (List.mem_reverse.mp hc)).2
      simpa [Graph.isControl, Graph.kind?, hn] using hcontrol
  have L₁ : Leaving g k place lost { graph := k, floating := changed.filter fun id => !k.isControl id } := by
    refine ⟨(Graph.Remains.refl g).cut H C, S₁, fun x n d hn hd hnone => ?_, fun c n hn _ => ⟨n, hn, rfl, rfl, rfl⟩⟩
    have hlt : x < g.capacity := by
      by_contra hge
      simp [C.bare x n hn (Nat.not_lt.mp hge)] at hd
    obtain ⟨m, hm, _⟩ := C.node hn hlt
    obtain ⟨l, hl⟩ := I.live x m d hm (C.dependency I.formed hn hm hd)
    have hnone' : k.get? d = none := hnone
    exact List.mem_filter.mpr ⟨(hgone d l hl hnone).1, by simp [Graph.isControl, Graph.kind?, hnone']⟩
  obtain ⟨s₂, hpruned, P₂, L₂⟩ := prune_ok (Q := Leaving g k place lost) (fun _ _ L => L.congr)
    (fun _ _ _ L _ hno R => L.remove hfresh (Or.inl hno) R) hprune L₁ (Nat.le_refl _)
  refine ⟨_, _, s₂, hseeds, by simpa using hpruned, ?_⟩
  have K₂ : Graph.Clear lost s₂.graph := by
    have hnotlost : ∀ c n, s₂.graph.get? c = some n → n.kind.isControl = true → lost c → n.dependencies = [] ∧
        ∀ t ∈ n.successors, ∀ m, s₂.graph.get? t = some m → m.kind.isMerge = false := by
      intro c n hn hk hc
      have hr : k.Reach c := (P₂.reach c).mp (P₂.reached hn hk)
      obtain ⟨m, hm, _, hsucc, hdeps⟩ := L₂.same c n hn hk
      obtain ⟨hnil, hmerges⟩ := hlow c m hm hr (hc.resolve_left (not_not_intro hr))
      refine ⟨hdeps.trans hnil, fun t ht l hl => ?_⟩
      by_contra hmerge
      have hmerge : l.kind.isMerge = true := by simpa using hmerge
      obtain ⟨l', hl', hkind, _⟩ := L₂.same t l hl (Kind.isControl_of_isMerge hmerge)
      rw [hkind, hmerges t (hsucc ▸ ht) l' hl'] at hmerge
      cases hmerge
    refine ⟨fun c n hn hk => P₂.reached hn hk, fun c n d hn hk hd hc => ?_, fun m l t hm hmerge ht hc => ?_⟩
    · simp [(hnotlost c n hn hk hc).1] at hd
    · obtain ⟨q, hq, hqc, hmem⟩ := P₂.shaped.pred m l hm (Kind.isControl_of_isMerge hmerge) t ht
      rw [(hnotlost t q hq hqc hc).2 m hmem l hm] at hmerge
      cases hmerge
  have hdrop : ∀ h y, g.Remains h ∧ Graph.Settling place g.Dom lost h ∧ Graph.Clear lost h → isOrphan h y = true →
      g.Remains (h.delete y) ∧ Graph.Settling place g.Dom lost (h.delete y) ∧ Graph.Clear lost (h.delete y) := by
    rintro h y ⟨R, S, K⟩ horphan
    have hy : ∀ n, h.get? y = some n → n.kind.isControl = false := by
      intro n hn
      obtain ⟨m, hm, hfloating, _⟩ := isOrphan_iff.mp horphan
      cases hn.symm.trans hm
      exact hfloating
    exact ⟨R.delete S.formed.shaped hy, S.delete K hlost horphan, K.delete S.formed.shaped hy⟩
  obtain ⟨R₃, S₃, K₃⟩ := dropOrphans_induct hdrop (s₂.floating.length + s₂.graph.liveCount) s₂.floating.reverse s₂
    ⟨L₂.remains, L₂.settling, K₂⟩
  refine I.settle R₃ S₃ K₃ (fun x n hn => hthere x n hn ▸ hplace₀ x n hn) hlost (dropOrphans_noted ?_ ?_)
  · rw [List.length_reverse]
  · exact fun x n d hn _ hd hnone => List.mem_reverse.mpr (L₂.noted x n d hn hd hnone)

end Sweep

end GuardElision
