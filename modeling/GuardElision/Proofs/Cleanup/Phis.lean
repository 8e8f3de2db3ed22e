import GuardElision.Placement
import GuardElision.Proofs.Cleanup.Trim

namespace GuardElision

namespace Graph

/-- Floating nodes went that depended on a node which is gone. -/
structure Weeded (g h : Graph) : Prop where
  same : ∀ x n, h.get? x = some n → g.get? x = some n
  gone : ∀ x n, g.get? x = some n → h.get? x = none →
    n.kind.isControl = false ∧ ∃ d ∈ n.dependencies, h.get? d = none

/-- Phis went, and whatever used one of them uses its first input instead. -/
structure Resolved (g h : Graph) (σ : NodeId → NodeId) : Prop where
  node : ∀ x n, h.get? x = some n → ∃ m, g.get? x = some m ∧ n.anchor = m.anchor ∧
    n.predecessors = m.predecessors ∧ n.inputs = m.inputs.map σ ∧
    (n.kind = m.kind ∨ n.kind = .begin ∧ m.kind.isMerge = true ∧ m.predecessors.length = 1 ∧
      ∀ p ∈ g.phisOf x, h.get? p = none)
  gone : ∀ p q, g.get? p = some q → h.get? p = none → q.kind = .phi ∧ σ p ≠ p ∧
    ∃ v, q.inputs.head? = some v ∧ σ p = σ v
  moved : ∀ x, σ x ≠ x → h.get? x = none ∧ ∃ q, g.get? x = some q
  settled : ∀ x, σ (σ x) = σ x

variable {g h k : Graph} {σ : NodeId → NodeId} {p v : NodeId} {n : Node}

theorem Weeded.refl (g : Graph) : Weeded g g := by
  refine ⟨fun _ _ hn => hn, fun x n hn hnone => ?_⟩
  cases hn.symm.trans hnone

theorem Weeded.delete (W : Weeded g h) (horphan : Sweep.isOrphan h p = true) : Weeded g (h.delete p) := by
  obtain ⟨n, hn, hfloating, d, hd, hnone⟩ := Sweep.isOrphan_iff.mp horphan
  have hstill : ∀ {x}, h.get? x = none → (h.delete p).get? x = none := by
    intro x hx
    rw [get?_delete, hx, ite_self]
  refine ⟨fun x m hm => ?_, fun x m hm hgone => ?_⟩
  · rw [get?_delete] at hm
    split at hm
    · cases hm
    · exact W.same x m hm
  · by_cases hx : h.get? x = none
    · obtain ⟨hk, e, he, hgone'⟩ := W.gone x m hm hx
      exact ⟨hk, e, he, hstill hgone'⟩
    · obtain ⟨l, hl⟩ := Option.ne_none_iff_exists'.mp hx
      have hxp : x = p := by
        by_contra hne
        rw [get?_delete, if_neg hne, hl] at hgone
        cases hgone
      subst hxp
      cases hn.symm.trans hl
      cases (W.same x n hn).symm.trans hm
      exact ⟨hfloating, d, hd, hstill hnone⟩

theorem Weeded.of_dropOrphans (bound : Nat) (stack : List NodeId) (s : Sweep) :
    Weeded s.graph (Sweep.dropOrphans bound stack s).graph :=
  Sweep.dropOrphans_induct (P := Weeded s.graph) (fun _ _ W horphan => W.delete horphan) bound stack s (.refl _)

namespace Resolved

theorem refl (g : Graph) : Resolved g g id := by
  refine ⟨fun x n hn => ⟨n, hn, rfl, rfl, (List.map_id _).symm, Or.inl rfl⟩, fun p q hq hnone => ?_, by simp, by simp⟩
  cases hq.symm.trans hnone

theorem eq_self (R : Resolved g h σ) (hn : h.get? p = some n) : σ p = p := by
  by_contra hne
  cases hn.symm.trans (R.moved p hne).1

/-- One more phi gives way to its first input. -/
theorem replace (R : Resolved g h σ) (hphi : g.kind? p = some .phi) (hn : h.get? p = some n)
    (hv : n.inputs.head? = some v) (hne : v ≠ p) :
    Resolved g ((h.replaceInput p v).delete p) fun x => if σ x = p then v else σ x := by
  have hview : ∀ x, ((h.replaceInput p v).delete p).get? x = if x = p then none else
      (h.get? x).map fun n => { n with inputs := n.inputs.map fun i => if i = p then v else i } := by
    intro x
    rw [get?_delete, get?_replaceInput]
  have hdead : ∀ {x}, h.get? x = none → ((h.replaceInput p v).delete p).get? x = none := by
    intro x hx
    rw [hview, hx, Option.map_none, ite_self]
  obtain ⟨q, hq, -, -, hinputs, -⟩ := R.node p n hn
  have hk : q.kind = .phi := by simpa [kind?, hq] using hphi
  have hpp : σ p = p := R.eq_self hn
  obtain ⟨v₀, hv₀, hσv₀⟩ : ∃ v₀, q.inputs.head? = some v₀ ∧ σ v₀ = v := by
    rw [hinputs, List.head?_map] at hv
    exact Option.map_eq_some_iff.mp hv
  have hσv : σ v = v := by rw [← hσv₀, R.settled]
  refine ⟨fun x n' hn' => ?_, fun r q' hq' hnone => ?_, fun x hx => ?_, fun x => ?_⟩
  · rw [hview] at hn'
    split at hn'
    · cases hn'
    · obtain ⟨n₀, hn₀, rfl⟩ := Option.map_eq_some_iff.mp hn'
      obtain ⟨m, hm, hanchor, hpred, hin, hkind⟩ := R.node x n₀ hn₀
      refine ⟨m, hm, hanchor, hpred, ?_, ?_⟩
      · show n₀.inputs.map (fun i => if i = p then v else i) = _
        rw [hin, List.map_map]
        rfl
      · rcases hkind with he | ⟨he, hmerge, hlen, hphis⟩
        · exact Or.inl he
        · exact Or.inr ⟨he, hmerge, hlen, fun r hr => hdead (hphis r hr)⟩
  · by_cases hrp : r = p
    · subst hrp
      cases hq.symm.trans hq'
      refine ⟨hk, ?_, v₀, hv₀, ?_⟩
      · rw [if_pos hpp]
        exact hne
      · rw [if_pos hpp, hσv₀, if_neg hne]
    · have hr : h.get? r = none := by
        rw [hview, if_neg hrp] at hnone
        exact Option.map_eq_none_iff.mp hnone
      obtain ⟨hkr, hner, w, hw, hσw⟩ := R.gone r q' hq' hr
      refine ⟨hkr, ?_, w, hw, by rw [hσw]⟩
      split
      · intro hvr
        rw [← hvr, hσv, hvr] at hner
        exact hner rfl
      · exact hner
  · by_cases hxp : x = p
    · subst hxp
      exact ⟨by rw [hview, if_pos rfl], q, hq⟩
    · have hσx : σ x ≠ x := by
        intro he
        rw [he, if_neg hxp] at hx
        exact hx rfl
      obtain ⟨hnone, hq'⟩ := R.moved x hσx
      exact ⟨hdead hnone, hq'⟩
  · by_cases hx : σ x = p
    · rw [if_pos hx, hσv, if_neg hne]
    · rw [if_neg hx, R.settled, if_neg hx]

theorem begin (R : Resolved g h σ) {m : NodeId} (hn : g.get? m = some n) (hmerge : n.kind.isMerge = true)
    (hlen : n.predecessors.length = 1) (hphis : ∀ p ∈ g.phisOf m, h.get? p = none) (memory : NodeId) :
    Resolved g ((h.replaceMemory m memory).modify m ({ · with kind := .begin })) σ := by
  have hview : ∀ x, ((h.replaceMemory m memory).modify m ({ · with kind := .begin })).get? x =
      (h.get? x).map fun l => { l with
        memory := if l.memory = some m then some memory else l.memory
        kind := if x = m then .begin else l.kind } := by
    intro x
    rw [get?_modify (f := fun l : Node => { l with kind := .begin }) (fun _ => rfl), get?_replaceMemory, Option.map_map]
    congr 1
    funext l
    simp only [Function.comp_apply]
    split <;> rfl
  have hlive : ∀ x, ((h.replaceMemory m memory).modify m ({ · with kind := .begin })).get? x = none ↔ h.get? x = none := by
    intro x
    rw [hview, Option.map_eq_none_iff]
  refine ⟨fun x n' hn' => ?_, fun p q hq hnone => R.gone p q hq ((hlive p).mp hnone), fun x hx => ?_, R.settled⟩
  · rw [hview] at hn'
    obtain ⟨n₀, hn₀, rfl⟩ := Option.map_eq_some_iff.mp hn'
    obtain ⟨l, hl, hanchor, hpred, hin, hkind⟩ := R.node x n₀ hn₀
    refine ⟨l, hl, hanchor, hpred, hin, ?_⟩
    by_cases hx : x = m
    · subst hx
      cases hn.symm.trans hl
      exact Or.inr ⟨if_pos rfl, hmerge, hlen, fun p hp => (hlive p).mpr (hphis p hp)⟩
    · rcases hkind with he | ⟨he, hmerge', hlen', hphis'⟩
      · exact Or.inl ((if_neg hx).trans he)
      · exact Or.inr ⟨(if_neg hx).trans he, hmerge', hlen', fun p hp => (hlive p).mpr (hphis' p hp)⟩
  · obtain ⟨hnone, hq⟩ := R.moved x hx
    exact ⟨(hlive x).mpr hnone, hq⟩

end Resolved

end Graph

namespace Sweep

variable {g : Graph} {s s' : Sweep} {σ : NodeId → NodeId}

theorem resolvePhis_resolved {merge : NodeId} {phis : List NodeId} {a : PUnit} (hphis : ∀ p ∈ phis, g.kind? p = some .phi)
    (R : g.Resolved s.graph σ) (h : phis.forM (resolvePhi merge) s = .ok a s') :
    (∃ σ', g.Resolved s'.graph σ') ∧ (∀ p ∈ phis, s'.graph.get? p = none) ∧
      (∀ x, s.graph.get? x = none → s'.graph.get? x = none) := by
  induction phis generalizing s σ with
  | nil =>
    obtain ⟨_, rfl⟩ := Attempt.pure_ok.mp h
    exact ⟨⟨σ, R⟩, by simp, fun _ hx => hx⟩
  | cons p phis ih =>
    obtain ⟨_, s₁, hp, h⟩ := Attempt.bind_ok.mp h
    obtain ⟨n, v, hn, hv, hne, hgraph⟩ := resolvePhi_cases hp
    obtain ⟨hk, hrest⟩ := List.forall_mem_cons.mp hphis
    have R₁ := R.replace hk hn hv hne
    rw [← hgraph] at R₁
    obtain ⟨hresolved, hgone, hstill⟩ := ih hrest R₁ h
    have hnone : s₁.graph.get? p = none := by rw [hgraph, Graph.get?_delete, if_pos rfl]
    refine ⟨hresolved, List.forall_mem_cons.mpr ⟨hstill p hnone, hgone⟩, fun x hx => hstill x ?_⟩
    rw [hgraph, Graph.get?_delete, Graph.get?_replaceInput, hx, Option.map_none, ite_self]

theorem simplifyMerge_resolves (merge : NodeId) : (simplifyMerge merge).Keeps fun s => ∃ σ, g.Resolved s.graph σ := by
  intro s a s' ⟨σ, R⟩ h
  rcases simplifyMerge_cases h with rfl | ⟨n, source, s₁, memory, hn, hmerge, hpred, hphis, -, hgraph⟩
  · exact ⟨σ, R⟩
  · have hkinds : ∀ p ∈ s.graph.phisOf merge, g.kind? p = some .phi := by
      intro p hp
      obtain ⟨q, hq, hk, -⟩ := Graph.mem_phisOf.mp hp
      obtain ⟨m, hm, -, -, -, he | ⟨he, -⟩⟩ := R.node p q hq
      · exact Graph.kind?_eq_some_iff.mpr ⟨m, hm, he ▸ hk⟩
      · rw [hk] at he
        cases he
    obtain ⟨⟨σ', R'⟩, hgone, hstill⟩ := resolvePhis_resolved hkinds R hphis
    obtain ⟨m, hm, -, hpred₀, -, hkind⟩ := R.node merge n hn
    have hm' : m.kind.isMerge = true := by
      rcases hkind with he | ⟨-, hmerge', -⟩
      · exact he ▸ hmerge
      · exact hmerge'
    have hlen : m.predecessors.length = 1 := by rw [← hpred₀, hpred]; rfl
    refine ⟨σ', ?_⟩
    rw [hgraph]
    refine R'.begin hm hm' hlen (fun p hp => ?_) memory
    obtain ⟨q, hq, hk, ha⟩ := Graph.mem_phisOf.mp hp
    by_cases hnone : s.graph.get? p = none
    · exact hstill p hnone
    · obtain ⟨q', hq'⟩ := Option.ne_none_iff_exists'.mp hnone
      obtain ⟨_, hq₁, hanchor, -, -, hkind'⟩ := R.node p q' hq'
      cases hq.symm.trans hq₁
      have hk' : q'.kind = .phi := by
        rcases hkind' with he | ⟨-, hmerge', -⟩
        · exact he.trans hk
        · simp [hk, Kind.isMerge] at hmerge'
      exact hgone p (Graph.mem_phisOf.mpr ⟨q', hq', hk', hanchor.trans ha⟩)

theorem seed_constant {split : NodeId} {truth : Bool} {control : List NodeId}
    (hconstant : constantBranch? s.graph split = some truth) (h : [split].flatMapM seed s = .ok control s') :
    ∃ folded, s.graph.foldBranch split truth = .ok (folded, s'.graph) ∧ control = [folded.dead] := by
  obtain ⟨arms, s₁, hseed, h⟩ := Attempt.bind_ok.mp h
  obtain ⟨rfl, rfl⟩ := Attempt.pure_ok.mp h
  have h := Attempt.get_bind_ok.mp hseed
  obtain ⟨n, hn, hk⟩ := constantBranch?_eq_some hconstant
  have hcontrol : s.graph.isControl split = true := by
    rw [Graph.isControl_of_get? hn, hk]
    rfl
  rw [if_pos hcontrol, hconstant] at h
  obtain ⟨_, s₂, hfold, h⟩ := Attempt.bind_ok.mp h
  obtain ⟨rfl, rfl⟩ := Attempt.pure_ok.mp h
  obtain ⟨⟨folded, k⟩, hf, hs⟩ := except_bind_ok.mp (Attempt.stepWith_ok.mp hfold)
  obtain ⟨rfl, rfl⟩ := Prod.mk.inj (Except.ok.inj hs)
  exact ⟨folded, hf, rfl⟩

end Sweep

namespace Graph

variable {g h k : Graph} {split : NodeId} {truth : Bool} {folded : FoldedBranch}

theorem foldBranch_view (hf : g.foldBranch split truth = .ok (folded, k)) {x : NodeId} {n : Node}
    (hn : k.get? x = some n) : ∃ m, g.get? x = some m ∧ n.kind.isControl = m.kind.isControl ∧ n.anchor = m.anchor ∧
      n.guard = m.guard ∧ n.memory = m.memory ∧ (x ≠ split → n.kind = m.kind ∧ n.inputs = m.inputs) ∧
      (x ≠ folded.dead → n.predecessors = m.predecessors) ∧ ∀ s ∈ n.successors, s ∈ m.successors := by
  obtain ⟨b, yes, no, hb, hk, -, -, -, -, hview⟩ := foldBranch_ok hf
  rw [hview] at hn
  obtain ⟨m, hm, rfl⟩ := Option.map_eq_some_iff.mp hn
  refine ⟨m, hm, ?_, rfl, rfl, rfl, fun hx => ⟨if_neg hx, if_neg hx⟩, fun hx => if_neg hx, fun s hs => ?_⟩
  · by_cases hx : x = split
    · subst hx
      cases hb.symm.trans hm
      show (if x = x then Kind.begin else b.kind).isControl = _
      rw [if_pos rfl, hk]
      rfl
    · show (if x = split then Kind.begin else m.kind).isControl = _
      rw [if_neg hx]
  · replace hs : s ∈ (if x = split then m.successors.erase folded.dead else m.successors) := hs
    split at hs
    · exact List.mem_of_mem_erase hs
    · exact hs

theorem foldBranch_live (hf : g.foldBranch split truth = .ok (folded, k)) {x : NodeId} {m : Node}
    (hm : g.get? x = some m) : ∃ n, k.get? x = some n := by
  obtain ⟨_, _, _, -, -, -, -, -, -, hview⟩ := foldBranch_ok hf
  exact ⟨_, by rw [hview, hm]; rfl⟩

theorem foldBranch_floating (hf : g.foldBranch split truth = .ok (folded, k)) {x : NodeId} {m : Node}
    (hm : g.get? x = some m) (hk : m.kind.isControl = false) :
    ∃ n, k.get? x = some n ∧ n.kind = m.kind ∧ n.anchor = m.anchor ∧ n.guard = m.guard ∧ n.memory = m.memory ∧
      n.inputs = m.inputs := by
  obtain ⟨n, hn⟩ := foldBranch_live hf hm
  obtain ⟨m', hm', -, hanchor, hguard, hmemory, hsame, -⟩ := foldBranch_view hf hn
  cases hm.symm.trans hm'
  obtain ⟨b, -, -, hb, hbranch, -⟩ := foldBranch_ok hf
  have hx : x ≠ split := by
    rintro rfl
    cases hb.symm.trans hm
    rw [hbranch] at hk
    cases hk
  exact ⟨n, hn, (hsame hx).1, hanchor, hguard, hmemory, (hsame hx).2⟩

theorem foldBranch_isControl (hf : g.foldBranch split truth = .ok (folded, k)) (x : NodeId) :
    k.isControl x = g.isControl x := by
  cases hm : g.get? x with
  | none =>
    have hk : k.get? x = none := by
      by_contra hsome
      obtain ⟨n, hn⟩ := Option.ne_none_iff_exists'.mp hsome
      obtain ⟨m, hm', -⟩ := foldBranch_view hf hn
      cases hm.symm.trans hm'
    simp [isControl, kind?, hm, hk]
  | some m =>
    obtain ⟨n, hn⟩ := foldBranch_live hf hm
    obtain ⟨m', hm', hkind, -⟩ := foldBranch_view hf hn
    cases hm.symm.trans hm'
    rw [isControl_of_get? hm, isControl_of_get? hn, hkind]

theorem foldBranch_tied (T : Tied g g) (hf : g.foldBranch split truth = .ok (folded, k)) : Tied k k := by
  obtain ⟨b, k₁, -, -, -, -, hview, A, -⟩ := foldBranch_steps hf
  intro x n hn hk p hp hcontrol
  rw [foldBranch_isControl hf] at hcontrol
  obtain ⟨n₁, hn₁, hsort, -, -, hpred⟩ := A.node x n hn
  obtain ⟨m, hm, hcount⟩ := T.withoutEdge hview x n₁ hn₁ (hsort.control ▸ hk) p (hpred ▸ hp) hcontrol
  obtain ⟨m₀, hm₀, rfl⟩ := exists_of_withoutEdge hview hm
  rw [isControl_of_get? hm₀] at hcontrol
  obtain ⟨m', hm'⟩ := A.alive p _ hm hcontrol
  obtain ⟨_, hm'', -, -, hsucc, -⟩ := A.node p m' hm'
  cases hm.symm.trans hm''
  exact ⟨m', hm', by rw [hpred, hsucc]; exact hcount⟩

/-- The inputs of a phi that belong to edges which are left. -/
def inputsLeft (g h : Graph) (merge phi : Node) : List NodeId :=
  ((merge.predecessors.zip phi.inputs).filter fun e => g.edgeLeft h e.1).map (·.2)

/-- The merge `m` of `g`, which is `n`, has become `n'` in `h`, with phis that fit. Those predecessors are left
whose edges are left, and of a phi the inputs that belong to them. If the merge is a plain step now, then
one predecessor is left and each phi is replaced by what belongs to it, unless it rested on something
that went. -/
structure Aligned (g h : Graph) (σ : NodeId → NodeId) (m : NodeId) (n n' : Node) : Prop where
  predecessors : n'.predecessors = n.predecessors.filter (g.edgeLeft h)
  inputs : ∀ p q q', g.get? p = some q → q.kind = .phi → q.anchor = some m → h.get? p = some q' →
    q'.inputs = (g.inputsLeft h n q).map σ
  kind : n'.kind = n.kind ∨ n'.kind = .begin ∧ ∀ p q, g.get? p = some q → q.kind = .phi → q.anchor = some m →
    h.get? p = none ∧ ∃ v, g.inputsLeft h n q = [v] ∧
      (σ p ≠ p ∧ σ p = σ v ∨ ∃ d, h.get? d = none ∧ (d = v ∨ q.guard = some d ∨ q.memory = some d))

/-- The phases of a sweep that begins with `g`: control nodes go with their edges, then orphans, then phis. -/
structure Swept (g pruned cleared h : Graph) (σ : NodeId → NodeId) : Prop where
  trimmed : g.Trimmed (pruned.get? · = none) pruned
  stay : g.PhisStay pruned
  weeded : pruned.Weeded cleared
  resolved : cleared.Resolved h σ

namespace Swept

variable {pruned cleared : Graph} {σ : NodeId → NodeId} (S : Swept g pruned cleared h σ)

include S

/-- A node that stays to the end is there all along. -/
theorem node {x : NodeId} {n' : Node} (hn' : h.get? x = some n') :
    ∃ n, pruned.get? x = some n ∧ n'.anchor = n.anchor ∧ n'.predecessors = n.predecessors ∧ n'.inputs = n.inputs.map σ ∧
      (n'.kind = n.kind ∨ n'.kind = .begin ∧ n.kind.isMerge = true ∧ n.predecessors.length = 1 ∧
        ∀ p ∈ cleared.phisOf x, h.get? p = none) := by
  obtain ⟨n, hn, hrest⟩ := S.resolved.node x n' hn'
  exact ⟨n, S.weeded.same x n hn, hrest⟩

/-- After pruning, only floating nodes go. -/
theorem control_stays {x : NodeId} {n : Node} (hn : pruned.get? x = some n) (hk : n.kind.isControl = true) :
    ∃ n', h.get? x = some n' := by
  by_contra hno
  have hnone : h.get? x = none := by
    by_contra hsome
    exact hno (Option.ne_none_iff_exists'.mp hsome)
  cases hw : cleared.get? x with
  | none =>
    obtain ⟨hfloating, -⟩ := S.weeded.gone x n hn hw
    rw [hk] at hfloating
    cases hfloating
  | some m =>
    cases hn.symm.trans (S.weeded.same x m hw)
    obtain ⟨hphi, -⟩ := S.resolved.gone x n hw hnone
    rw [hphi] at hk
    cases hk

theorem edgeLeft_eq (p : NodeId) : g.edgeLeft pruned p = g.edgeLeft h p := by
  rw [Bool.eq_iff_iff, edgeLeft_iff, edgeLeft_iff]
  cases hcontrol : g.isControl p with
  | false => simp
  | true =>
    refine or_congr_left ⟨fun ⟨n, hn⟩ => ?_, fun ⟨n', hn'⟩ => ?_⟩
    · obtain ⟨m, hm, hkind, -⟩ := S.trimmed.node p n hn
      rw [isControl_of_get? hm, ← hkind] at hcontrol
      exact S.control_stays hn hcontrol
    · obtain ⟨n, hn, -⟩ := S.node hn'
      exact ⟨n, hn⟩

/-- Of the predecessors those are left whose edges are left, and of the inputs of a phi those that belong to
them. -/
theorem lists {m : NodeId} {n n' : Node} (hn : g.get? m = some n) (hk : n.kind.isControl = true)
    (hn' : pruned.get? m = some n') :
    n'.predecessors = n.predecessors.filter (g.edgeLeft h) ∧
    ∀ p q q', g.get? p = some q → q.kind = .phi → q.anchor = some m → q.inputs.length = n.predecessors.length →
      pruned.get? p = some q' → q'.inputs = g.inputsLeft h n q ∧ q'.inputs.length = n'.predecessors.length := by
  obtain ⟨hpred, hphis⟩ := S.trimmed.merge hn' hn hk
  rw [List.filter_congr fun p _ => S.edgeLeft_eq p] at hpred
  refine ⟨hpred, fun p q q' hq hphi ha hlen hq' => ?_⟩
  have hinputs : q'.inputs = g.inputsLeft h n q := by
    rw [hphis p q q' hq' hq hphi ha hlen, inputsLeft, List.filter_congr fun e _ => S.edgeLeft_eq e.1]
  have hfst : n.predecessors = (n.predecessors.zip q.inputs).map (·.1) :=
    (List.map_fst_zip (Nat.le_of_eq hlen.symm)).symm
  refine ⟨hinputs, ?_⟩
  rw [hinputs, inputsLeft, List.length_map, hpred]
  conv => rhs; rw [hfst, List.filter_map, List.length_map]
  rfl

theorem phi_of_begin {m p v : NodeId} {n : Node} {q q' : Node} (hm : h.get? m = some n) (hq : g.get? p = some q)
    (hphi : q.kind = .phi) (ha : q.anchor = some m) (hq' : pruned.get? p = some q') (hv : q'.inputs = [v])
    (hgone : ∀ p ∈ cleared.phisOf m, h.get? p = none) :
    h.get? p = none ∧
      (σ p ≠ p ∧ σ p = σ v ∨ ∃ d, h.get? d = none ∧ (d = v ∨ q.guard = some d ∨ q.memory = some d)) := by
  obtain ⟨_, hq₁, hkind, hanchor, hguard, hmemory, -⟩ := S.trimmed.node p q' hq'
  cases hq.symm.trans hq₁
  have hdead : ∀ {x}, cleared.get? x = none → h.get? x = none := by
    intro x hx
    by_contra hsome
    obtain ⟨l, hl⟩ := Option.ne_none_iff_exists'.mp hsome
    obtain ⟨l', hl', -⟩ := S.resolved.node x l hl
    cases hx.symm.trans hl'
  cases hw : cleared.get? p with
  | some r =>
    cases hq'.symm.trans (S.weeded.same p r hw)
    have hnone := hgone p (mem_phisOf.mpr ⟨q', hw, hkind.trans hphi, hanchor.trans ha⟩)
    obtain ⟨-, hne, w, hw', hσ⟩ := S.resolved.gone p q' hw hnone
    rw [hv, List.head?_cons, Option.some.injEq] at hw'
    exact ⟨hnone, Or.inl ⟨hne, hw' ▸ hσ⟩⟩
  | none =>
    obtain ⟨-, d, hd, hnone⟩ := S.weeded.gone p q' hq' hw
    have hcases : d ∈ q'.inputs ∨ q'.anchor = some d ∨ q'.guard = some d ∨ q'.memory = some d := by
      simpa [Node.dependencies, or_assoc] using hd
    refine ⟨hdead hw, Or.inr ⟨d, hdead hnone, ?_⟩⟩
    rcases hcases with hin | hanchor' | hguard' | hmemory'
    · rw [hv, List.mem_singleton] at hin
      exact Or.inl hin
    · rw [hanchor, ha, Option.some.injEq] at hanchor'
      subst hanchor'
      cases hm.symm.trans (hdead hnone)
    · exact Or.inr (Or.inl (hguard ▸ hguard'))
    · exact Or.inr (Or.inr (hmemory ▸ hmemory'))

theorem aligned {m : NodeId} {n n' : Node} (hn : g.get? m = some n) (hmerge : n.kind.isMerge = true)
    (hlen : ∀ p q, g.get? p = some q → q.kind = .phi → q.anchor = some m → q.inputs.length = n.predecessors.length)
    (hn' : h.get? m = some n') : Aligned g h σ m n n' := by
  obtain ⟨n₁, hn₁, -, hpred', -, hkind'⟩ := S.node hn'
  obtain ⟨_, hn₂, hkind, -⟩ := S.trimmed.node m n₁ hn₁
  cases hn.symm.trans hn₂
  obtain ⟨hpred, hphis⟩ := S.lists hn (Kind.isControl_of_isMerge hmerge) hn₁
  refine ⟨hpred'.trans hpred, fun p q q' hq hphi ha hq' => ?_, ?_⟩
  · obtain ⟨q₁, hq₁, -, -, hinputs, -⟩ := S.node hq'
    rw [hinputs, (hphis p q q₁ hq hphi ha (hlen p q hq hphi ha) hq₁).1]
  · rcases hkind' with he | ⟨he, -, hone, hgone⟩
    · exact Or.inl (he.trans hkind)
    · refine Or.inr ⟨he, fun p q hq hphi ha => ?_⟩
      obtain ⟨q₁, hq₁⟩ := S.stay p q m n₁ hq hphi ha hn₁
      obtain ⟨hinputs, hcount⟩ := hphis p q q₁ hq hphi ha (hlen p q hq hphi ha) hq₁
      obtain ⟨v, hv⟩ := List.length_eq_one_iff.mp (hcount.trans hone)
      obtain ⟨hnone, hv'⟩ := S.phi_of_begin hn' hq hphi ha hq₁ hv hgone
      exact ⟨hnone, v, hinputs ▸ hv, hv'⟩

end Swept

theorem isControl_of_successor (haccepted : g.checkStructure = .ok ()) {c t : NodeId} {n : Node} (hn : g.get? c = some n)
    (hk : n.kind.isControl = true) (ht : t ∈ n.successors) : g.isControl t = true := by
  obtain ⟨m, hm⟩ := successor_live haccepted hn ht
  rw [isControl_of_get? hm]
  exact (successor_recorded haccepted hn hk ht hm).1

theorem foldBranch_successors (haccepted : g.checkStructure = .ok ()) (hf : g.foldBranch split truth = .ok (folded, k))
    (c : NodeId) (m : Node) (hm : k.get? c = some m) (hk : m.kind.isControl = true) (t : NodeId) (ht : t ∈ m.successors) :
    k.isControl t = true := by
  obtain ⟨n, hn, hkind, -, -, -, -, -, hsub⟩ := foldBranch_view hf hm
  rw [foldBranch_isControl hf]
  exact isControl_of_successor haccepted hn (hkind ▸ hk) (hsub t ht)

/-- What a sweep of the folded graph aligns was there before the fold, unless it is the arm that is cut off. -/
theorem Aligned.of_foldBranch {σ : NodeId → NodeId} {m : NodeId} {n n₁ n' : Node}
    (hf : g.foldBranch split truth = .ok (folded, k)) (hkind : n₁.kind = n.kind)
    (hpred : n₁.predecessors = n.predecessors) (A : Aligned k h σ m n₁ n') : Aligned g h σ m n n' := by
  have hleft : ∀ p, k.edgeLeft h p = g.edgeLeft h p := by
    intro p
    rw [edgeLeft, edgeLeft, foldBranch_isControl hf]
  have hphis : ∀ p q, g.get? p = some q → q.kind = .phi → q.anchor = some m → ∃ q₁, k.get? p = some q₁ ∧
      q₁.kind = .phi ∧ q₁.anchor = some m ∧ q₁.guard = q.guard ∧ q₁.memory = q.memory ∧
      k.inputsLeft h n₁ q₁ = g.inputsLeft h n q := by
    intro p q hq hphi ha
    obtain ⟨q₁, hq₁, hkind', hanchor, hguard, hmemory, hinputs⟩ := foldBranch_floating hf hq (by rw [hphi]; rfl)
    refine ⟨q₁, hq₁, hkind'.trans hphi, hanchor.trans ha, hguard, hmemory, ?_⟩
    rw [inputsLeft, inputsLeft, hpred, hinputs, List.filter_congr fun e _ => hleft e.1]
  obtain ⟨hpreds, hinputs, hstep⟩ := A
  refine ⟨?_, fun p q q' hq hphi ha hq' => ?_, ?_⟩
  · rw [hpreds, hpred, List.filter_congr fun p _ => hleft p]
  · obtain ⟨q₁, hq₁, hphi₁, ha₁, -, -, hsame⟩ := hphis p q hq hphi ha
    rw [hinputs p q₁ q' hq₁ hphi₁ ha₁ hq', hsame]
  · rcases hstep with he | ⟨he, hgone⟩
    · exact Or.inl (he.trans hkind)
    · refine Or.inr ⟨he, fun p q hq hphi ha => ?_⟩
      obtain ⟨q₁, hq₁, hphi₁, ha₁, hguard, hmemory, hsame⟩ := hphis p q hq hphi ha
      obtain ⟨hnone, v, hv, hend⟩ := hgone p q₁ hq₁ hphi₁ ha₁
      rw [hguard, hmemory] at hend
      exact ⟨hnone, v, hsame ▸ hv, hend⟩

theorem swept_of_phases {s₁ s₂ s₃ : Sweep} {bound bound' : Nat} {stack stack' ids : List NodeId} {a : Unit} {b : PUnit}
    (htied : Tied s₁.graph s₁.graph)
    (hsucc : ∀ c m, s₁.graph.get? c = some m → m.kind.isControl = true → ∀ t ∈ m.successors, s₁.graph.isControl t = true)
    (hstack : ∀ c ∈ stack, s₁.graph.isControl c = true) (hprune : Sweep.prune bound stack s₁ = .ok a s₂)
    (hmerges : ids.forM Sweep.simplifyMerge (Sweep.dropOrphans bound' stack' s₂) = .ok b s₃) :
    ∃ σ, Swept s₁.graph s₂.graph (Sweep.dropOrphans bound' stack' s₂).graph s₃.graph σ := by
  have hstay : s₁.graph.PhisStay s₁.graph := fun p q _ _ hq _ _ _ => ⟨q, hq⟩
  obtain ⟨T, P⟩ := Sweep.prune_trims hsucc (.refl htied) hstay hstack hprune
  obtain ⟨σ, R⟩ := (Attempt.Keeps.forM fun merge _ => Sweep.simplifyMerge_resolves merge) _ _ s₃ ⟨id, .refl _⟩ hmerges
  exact ⟨σ, T, P, .of_dropOrphans bound' stack' s₂, R⟩

/-- When a branch on a constant is folded and cleaned up after, every merge that stays is aligned with its
phis, unless it is the arm that is cut off. Phis that go are replaced in whatever stays. -/
theorem cleanUp_keeps_phis_aligned {changes : Changes} (haccepted : g.checkStructure = .ok ())
    (hconstant : Sweep.constantBranch? g split = some truth) (hclean : cleanUp [split] g = .ok changes h) :
    ∃ (dead : NodeId) (σ : NodeId → NodeId),
      (∃ n taken, g.get? split = some n ∧ n.successors = if truth then [taken, dead] else [dead, taken]) ∧
      (∀ x, σ (σ x) = σ x ∧ (σ x ≠ x → g.kind? x = some .phi ∧ h.get? x = none)) ∧
      (∀ x n', h.get? x = some n' → x ≠ split → n'.kind ≠ .phi →
        ∃ n, g.get? x = some n ∧ n'.inputs = n.inputs.map σ) ∧
      ∀ m n n', m ≠ dead → g.get? m = some n → n.kind.isMerge = true → h.get? m = some n' → Aligned g h σ m n n' := by
  obtain ⟨s, hrun, -, rfl⟩ := cleanUp_ok hclean
  obtain ⟨control, s₁, s₂, hseeds, hprune, ids, hmerges⟩ := Sweep.run_cases hrun
  obtain ⟨folded, hf, rfl⟩ := Sweep.seed_constant hconstant hseeds
  obtain ⟨b, yes, no, hb, hbranch, hsucc, hfolded, -⟩ := foldBranch_ok hf
  have htied := foldBranch_tied (tied_of_checkStructure haccepted) hf
  have hdead : s₁.graph.isControl folded.dead = true := by
    have hmem : folded.dead ∈ b.successors := by
      rw [hsucc, hfolded]
      cases truth <;> simp
    rw [foldBranch_isControl hf]
    exact isControl_of_successor haccepted hb (by rw [hbranch]; rfl) hmem
  obtain ⟨σ, S⟩ := swept_of_phases htied (foldBranch_successors haccepted hf) (by simpa using hdead) hprune hmerges
  refine ⟨folded.dead, σ, ⟨b, folded.taken, hb, ?_⟩, fun x => ⟨S.resolved.settled x, fun hx => ?_⟩, ?_, ?_⟩
  · rw [hsucc, hfolded]
    cases truth <;> rfl
  · obtain ⟨hnone, q, hq⟩ := S.resolved.moved x hx
    obtain ⟨hphi, -⟩ := S.resolved.gone x q hq hnone
    obtain ⟨m, hm, hkind, -⟩ := S.trimmed.node x q (S.weeded.same x q hq)
    obtain ⟨l, hl, hcontrol, -⟩ := foldBranch_view hf hm
    have hfloating : l.kind.isControl = false := by rw [← hcontrol, ← hkind, hphi]; rfl
    obtain ⟨m', hm', hkind', -⟩ := foldBranch_floating hf hl hfloating
    cases hm.symm.trans hm'
    exact ⟨kind?_eq_some_iff.mpr ⟨l, hl, by rw [← hkind', ← hkind, hphi]⟩, hnone⟩
  · intro x n' hn' hx hphi
    obtain ⟨n, hn, -, -, hinputs, hkind⟩ := S.node hn'
    obtain ⟨m, hm, -, -, -, -, hsame, -⟩ := S.trimmed.node x n hn
    obtain ⟨l, hl, -, -, -, -, hsame', -⟩ := foldBranch_view hf hm
    have hphi' : n.kind ≠ .phi := by
      rcases hkind with he | ⟨-, hmerge, -⟩
      · exact he ▸ hphi
      · intro he
        rw [he] at hmerge
        cases hmerge
    exact ⟨l, hl, by rw [hinputs, hsame hphi', (hsame' hx).2]⟩
  · intro m n n' hm hn hmerge hn'
    obtain ⟨n₁, hn₁⟩ := foldBranch_live hf hn
    obtain ⟨_, hn₂, -, -, -, -, hsame, hpred, -⟩ := foldBranch_view hf hn₁
    cases hn.symm.trans hn₂
    have hsplit : m ≠ split := by
      rintro rfl
      cases hb.symm.trans hn
      rw [hbranch] at hmerge
      cases hmerge
    have hkind := (hsame hsplit).1
    refine .of_foldBranch hf hkind (hpred hm) (S.aligned hn₁ (hkind ▸ hmerge) (fun p q₁ hq₁ hphi ha => ?_) hn')
    obtain ⟨q, hq, hcontrol, hanchor, -⟩ := foldBranch_view hf hq₁
    have hfloating : q.kind.isControl = false := by rw [← hcontrol, hphi]; rfl
    obtain ⟨_, hq₂, hkind', -, -, -, hinputs⟩ := foldBranch_floating hf hq hfloating
    cases hq₁.symm.trans hq₂
    obtain ⟨a, l, ha', hl, -, hlen⟩ := phi_merge haccepted hq (hkind'.symm.trans hphi)
    rw [← hanchor, ha, Option.some.injEq] at ha'
    subst ha'
    cases hn.symm.trans hl
    rw [hinputs, hlen, hpred hm]

/-- Cutting off the second of two arms leaves the merge behind them with one predecessor. Its phi is the
constant that belongs to the first arm, and so is what the return uses. -/
theorem cleanUp_keeps_phis_aligned_arms :
    let g : Graph :=
      ⟨#[{ kind := .start, successors := [4] }, { kind := .logicConstant true, stamp := .logic },
        { kind := .constant (.int 10), stamp := .int (.constant 10) },
        { kind := .constant (.int 20), stamp := .int (.constant 20) },
        { kind := .branch, inputs := [1], predecessors := [0], successors := [5, 6] },
        { kind := .begin, predecessors := [4], successors := [7] },
        { kind := .begin, predecessors := [4], successors := [7] },
        { kind := .merge, predecessors := [5, 6], successors := [9] },
        { kind := .phi, stamp := .int .full, inputs := [2, 3], anchor := some 7 },
        { kind := .ret, inputs := [8], predecessors := [7] }], .root⟩
    g.checkStructure = .ok () ∧ Sweep.constantBranch? g 4 = some true ∧
      ∃ changes h σ n n', cleanUp [4] g = .ok changes h ∧ g.get? 7 = some n ∧ h.get? 7 = some n' ∧
        n'.kind = .begin ∧ Aligned g h σ 7 n n' := by
  intro g
  have haccepted : g.checkStructure = .ok () := by decide +kernel
  have hconstant : Sweep.constantBranch? g 4 = some true := by decide +kernel
  have hrun : (cleanUp [4]).result g = .ok ⟨[4, 6, 8, 7], true⟩ := by decide +kernel
  have hkind : ((cleanUp [4]).state g).kind? 7 = some .begin := by decide +kernel
  obtain ⟨h, hclean⟩ := Attempt.result_eq_ok.mp hrun
  have hstate : (cleanUp [4]).state g = h := by rw [Attempt.state, hclean]
  rw [hstate] at hkind
  obtain ⟨n', hn', hbegin⟩ := kind?_eq_some_iff.mp hkind
  obtain ⟨dead, σ, ⟨b, taken, hb, harms⟩, -, -, halign⟩ := cleanUp_keeps_phis_aligned haccepted hconstant hclean
  have hlist : (g.get? 4).map (·.successors) = some [5, 6] := by decide +kernel
  have hdead : 7 ≠ dead := by
    rintro rfl
    rw [hb, Option.map_some, harms] at hlist
    simp at hlist
  exact ⟨haccepted, hconstant, _, h, σ, _, n', hclean, rfl, hn', hbegin, halign 7 _ n' hdead rfl rfl hn'⟩

/-- The arm that is cut off may itself be a merge. Its phi then keeps the input of the edge that went: here
it is replaced by node 2, which came by that edge, and not by node 3, which comes by the edge that is left. -/
theorem cleanUp_misaligns_cut_arm :
    let g : Graph :=
      ⟨#[{ kind := .start, successors := [4] }, { kind := .logicConstant true, stamp := .logic },
        { kind := .constant (.int 10), stamp := .int (.constant 10) },
        { kind := .constant (.int 20), stamp := .int (.constant 20) },
        { kind := .branch, inputs := [1], predecessors := [0], successors := [5, 6] },
        { kind := .begin, predecessors := [4], successors := [6] },
        { kind := .merge, predecessors := [4, 5], successors := [8] },
        { kind := .phi, stamp := .int .full, inputs := [2, 3], anchor := some 6 },
        { kind := .ret, inputs := [7], predecessors := [6] }], .root⟩
    g.checkStructure = .ok () ∧ g.checkPlacement = .ok () ∧ Sweep.constantBranch? g 4 = some true ∧
      (((cleanUp [4]).state g).get? 6).map (·.predecessors) = some [5] ∧
      (((cleanUp [4]).state g).get? 8).map (·.inputs) = some [2] := by
  decide +kernel

end Graph

end GuardElision
