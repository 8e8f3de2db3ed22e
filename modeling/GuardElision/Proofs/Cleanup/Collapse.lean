import GuardElision.Proofs.Cleanup.Reached
import GuardElision.Proofs.Graph.InOrder
import GuardElision.Proofs.Graph.Ways
import Mathlib.Data.Finset.Card

namespace GuardElision

namespace Graph

variable {g h : Graph} {place σ τ : NodeId → NodeId} {merge source : NodeId}

/-- References to values follow `σ` and references to memory states follow `τ`. A value that gives way is a
phi of `merge`, and gives way to one that stands above `source`. -/
structure Redirect (g h : Graph) (place σ τ : NodeId → NodeId) (merge source : NodeId) : Prop where
  ways : SameWays g h
  node : ∀ x n, h.get? x = some n → ∃ m, g.get? x = some m ∧ n.stamp = m.stamp ∧ n.anchor = m.anchor ∧
    n.guard = m.guard ∧ n.memory = m.memory.map τ ∧ n.inputs = m.inputs.map σ ∧ n.successors = m.successors ∧
    (n.kind = m.kind ∨ n.kind = .begin ∧ m.kind.isMerge = true ∧
      ∀ p q, h.get? p = some q → q.kind = .phi → q.anchor ≠ some x)
  value : ∀ x m, g.get? x = some m → (∃ n, h.get? (σ x) = some n) ∧
    (σ x = x ∨ m.kind = .phi ∧ place x = merge ∧ g.Dom (place (σ x)) source ∧
      ∀ l, g.get? (σ x) = some l → l.kind.isControl = false ∧ l.kind.isGuard = false)
  stays : ∀ x m, g.get? x = some m → m.kind.isGuard = true → ∃ n, h.get? x = some n
  memory : ∀ x m, g.get? x = some m → τ x = x ∨ g.Dom (τ x) (place x)

/-- Along a chain of references all edges are old, or it leads from below the merge to above its
predecessor. -/
theorem transGen_redirect {R R' : NodeId → NodeId → Prop}
    (hnew : ∀ x y, R' x y → R x y ∨ g.Dom merge (place x) ∧ g.Dom (place y) source)
    (hup : ∀ x y, R x y → g.Dom (place y) (place x)) {x y : NodeId} (hxy : Relation.TransGen R' x y) :
    Relation.TransGen R x y ∨ g.Dom merge (place x) ∧ g.Dom (place y) source := by
  have habove : ∀ {x y}, Relation.TransGen R x y → g.Dom (place y) (place x) := by
    intro x y hxy
    induction hxy with
    | single hs => exact hup _ _ hs
    | tail _ hs ih => exact (hup _ _ hs).trans ih
  induction hxy with
  | single hs => exact (hnew _ _ hs).imp_left .single
  | @tail y z _ hs ih =>
    rcases ih, hnew y z hs with ⟨hold | ⟨hx, hy⟩, hs | ⟨hy', hz⟩⟩
    · exact Or.inl (hold.tail hs)
    · exact Or.inr ⟨hy'.trans (habove hold), hz⟩
    · exact Or.inr ⟨hx, (hup y z hs).trans hy⟩
    · exact Or.inr ⟨hx, hz⟩

namespace Redirect

variable (R : Redirect g h place σ τ merge source)

include R

theorem sort {x : NodeId} {n m : Node} (hn : h.get? x = some n) (hm : g.get? x = some m) :
    n.kind.isControl = m.kind.isControl ∧ n.kind.isGuard = m.kind.isGuard ∧
      (m.kind.isAnchor = true → n.kind.isAnchor = true) ∧ (n.kind = m.kind ∨ n.kind = .begin ∧ m.kind.isMerge = true) := by
  obtain ⟨m', hm', _, _, _, _, _, _, hkind⟩ := R.node x n hn
  cases hm.symm.trans hm'
  rcases hkind with he | ⟨he, hmerge, _⟩
  · exact ⟨by rw [he], by rw [he], by rw [he]; exact id, Or.inl he⟩
  · refine ⟨?_, ?_, fun _ => by rw [he]; rfl, Or.inr ⟨he, hmerge⟩⟩
    · rw [he, Kind.isControl_of_isMerge hmerge]
      rfl
    · have hguard : m.kind.isGuard = false := by
        by_contra hg
        have hfloat := Kind.isControl_of_isGuard (by simpa using hg)
        rw [Kind.isControl_of_isMerge hmerge] at hfloat
        cases hfloat
      rw [he, hguard]
      rfl

theorem kind_eq {x : NodeId} {n m : Node} (hn : h.get? x = some n) (hm : g.get? x = some m)
    (hk : n.kind.isControl = false) : n.kind = m.kind := by
  rcases (R.sort hn hm).2.2.2 with he | ⟨he, _⟩
  · exact he
  · simp [he, Kind.isControl] at hk

theorem control_stays {x : NodeId} {m : Node} (hm : g.get? x = some m) (hk : m.kind.isControl = true) :
    ∃ n, h.get? x = some n := by
  obtain ⟨n, hn, _⟩ := R.ways.forth x m hm hk
  exact ⟨n, hn⟩

theorem memory_control (H : g.Shaped) {x : NodeId} {m : Node} (hm : g.get? x = some m)
    (hk : m.kind.isControl = true ∨ m.kind.isGuard = true) :
    ∃ l k, g.get? (τ x) = some l ∧ h.get? (τ x) = some k ∧ (l.kind.isControl = true ∨ l.kind.isGuard = true) := by
  rcases R.memory x m hm with he | hd
  · rw [he]
    obtain ⟨k, hk'⟩ : ∃ k, h.get? x = some k := hk.elim (R.control_stays hm) (R.stays x m hm)
    exact ⟨m, k, hm, hk', hk⟩
  · obtain ⟨l, hl, hlc⟩ := H.exists_control hd.reach_left
    obtain ⟨k, hk'⟩ := R.control_stays hl hlc
    exact ⟨l, k, hl, hk', Or.inl hlc⟩

variable (I : g.InOrder)

include I

theorem live {x d : NodeId} {n : Node} (hn : h.get? x = some n) (hd : d ∈ n.dependencies) : ∃ k, h.get? d = some k := by
  obtain ⟨m, hm, _, hanchor, hguard, hmemory, hinputs, _⟩ := R.node x n hn
  have hedge : ∀ e, m.anchor = some e ∨ m.guard = some e ∨ m.memory = some e → ∃ l, g.get? e = some l ∧
      (l.kind.isControl = true ∨ l.kind.isGuard = true) := by
    intro e he
    obtain ⟨l, hl⟩ := I.live x m e hm (Node.mem_dependencies.mpr (Or.inr he))
    exact ⟨l, hl, I.formed.edge x m e l hm he hl⟩
  have hstays : ∀ e, m.anchor = some e ∨ m.guard = some e → ∃ k, h.get? e = some k := by
    intro e he
    obtain ⟨l, hl, hk⟩ := hedge e (he.imp_right Or.inl)
    exact hk.elim (R.control_stays hl) (R.stays e l hl)
  rcases Node.mem_dependencies.mp hd with hin | ha | hg | hmem
  · rw [hinputs] at hin
    obtain ⟨e, he, rfl⟩ := List.mem_map.mp hin
    obtain ⟨l, hl⟩ := I.live x m e hm (Node.mem_dependencies.mpr (Or.inl he))
    exact (R.value e l hl).1
  · exact hstays d (Or.inl (hanchor ▸ ha))
  · exact hstays d (Or.inr (hguard ▸ hg))
  · rw [hmemory] at hmem
    obtain ⟨e, he, rfl⟩ := Option.map_eq_some_iff.mp hmem
    obtain ⟨l, hl, hk⟩ := hedge e (Or.inr (Or.inr he))
    obtain ⟨_, k, _, hk', _⟩ := R.memory_control I.formed.shaped hl hk
    exact ⟨k, hk'⟩

theorem regular : h.Regular := by
  have F := I.formed
  refine ⟨fun x n hn hk => ?_, fun c n hn hk => ?_, fun x n hn hk => ?_, fun x n hn hk => ?_, fun x n hn hk => ?_,
    fun x n d k hn hd hk => ?_, fun x n d k hn hd hk => ?_⟩
  · obtain ⟨m, hm, _, _, _, _, _, hsucc, _⟩ := R.node x n hn
    exact hsucc.trans (F.loose x m hm ((R.sort hn hm).1 ▸ hk))
  · obtain ⟨m, hm, _, hanchor, hguard, hmemory, hinputs, _⟩ := R.node c n hn
    obtain ⟨h₁, h₂, h₃, h₄⟩ := F.plain c m hm ((R.sort hn hm).1 ▸ hk)
    refine ⟨hanchor.trans h₁, hguard.trans h₂, by rw [hmemory, h₃, Option.map_none], fun ha => ?_⟩
    rw [hinputs, h₄, List.map_nil]
    rcases (R.sort hn hm).2.2.2 with he | ⟨_, hmerge⟩
    · exact he ▸ ha
    · exact Kind.isAnchor_of_isMerge hmerge
  · obtain ⟨m, hm, _, _, hguard, hmemory, hinputs, _⟩ := R.node x n hn
    have hkind := R.kind_eq hn hm (Kind.isControl_of_standing_ne (by simp [hk]))
    obtain ⟨h₁, h₂, h₃⟩ := F.anchored x m hm (hkind ▸ hk)
    refine ⟨hguard.trans h₁, by rw [hmemory, h₂, Option.map_none], fun hg => ?_⟩
    rw [hinputs, List.length_map]
    exact h₃ (hkind ▸ hg)
  · obtain ⟨m, hm, _, hanchor, hguard, hmemory, hinputs, _⟩ := R.node x n hn
    have hkind := R.kind_eq hn hm (Kind.isControl_of_standing_ne (by simp [hk]))
    have hnil := F.leaf x m hm (hkind ▸ hk)
    simp only [Node.dependencies, List.append_eq_nil_iff, Option.toList_eq_nil_iff] at hnil ⊢
    simp [hanchor, hguard, hmemory, hinputs, hnil]
  · obtain ⟨m, hm, _, hanchor, _⟩ := R.node x n hn
    have hkind := R.kind_eq hn hm (Kind.isControl_of_standing_ne (by simp [hk]))
    exact hanchor.trans (F.computed x m hm (hkind ▸ hk))
  · obtain ⟨m, hm, _, _, _, _, hinputs, _⟩ := R.node x n hn
    obtain ⟨l, hl, _⟩ := R.node d k hk
    obtain ⟨hc, hg, _⟩ := R.sort hk hl
    rw [hc, hg]
    rw [hinputs] at hd
    obtain ⟨e, he, rfl⟩ := List.mem_map.mp hd
    obtain ⟨q, hq⟩ := I.live x m e hm (Node.mem_dependencies.mpr (Or.inl he))
    rcases (R.value e q hq).2 with hσ | ⟨_, _, _, hvalue⟩
    · exact F.input x m e l hm he (hσ ▸ hl)
    · exact hvalue l hl
  · obtain ⟨m, hm, _, _, _, hmemory, _⟩ := R.node x n hn
    obtain ⟨l, hl, _⟩ := R.node d k hk
    rw [(R.sort hk hl).1]
    rw [hmemory] at hd
    obtain ⟨e, he, rfl⟩ := Option.map_eq_some_iff.mp hd
    obtain ⟨q, hq⟩ := I.live x m e hm (Node.mem_dependencies.mpr (Or.inr (Or.inr (Or.inr he))))
    rcases R.memory e q hq with hτ | hd
    · exact F.state x m e l hm he (hτ ▸ hl)
    · exact F.shaped.isControl hd.reach_left hl

theorem formed : h.Formed := by
  have F := I.formed
  have H := F.shaped
  refine ⟨R.regular I, R.ways.shaped H, fun c n hn hk => ?_, fun x n d hn hd => ?_, fun x n hn hk => ?_, fun q n hn hk => ?_, fun p n hn hk => ?_, fun x n hn count hcount => ?_, fun x n hn hk => ?_,
    fun x n d k hn hd hk => ?_⟩
  · obtain ⟨m, hm, _, _, _, _, _, hsucc, _⟩ := R.node c n hn
    rcases (R.sort hn hm).2.2.2 with he | ⟨he, _⟩
    · exact hsucc ▸ F.back c m hm (he ▸ hk)
    · simp [he] at hk
  · obtain ⟨k, hk⟩ := R.live I hn hd
    exact lt_capacity hk
  · obtain ⟨m, hm, _, _, _, _, hinputs, _⟩ := R.node x n hn
    have hkm : m.kind = .branch ∨ m.kind.isGuard = true := by
      rcases (R.sort hn hm).2.2.2 with he | ⟨he, _⟩
      · exact he ▸ hk
      · simp [he, Kind.isGuard] at hk
    obtain ⟨t, ht, htest⟩ := F.test x m hm hkm
    obtain ⟨l, hl⟩ := I.live x m t hm (Node.mem_dependencies.mpr (Or.inl (List.mem_of_head? ht)))
    obtain ⟨hlogic, hstamp⟩ := htest l hl
    have hσ : σ t = t := by
      refine (R.value t l hl).2.resolve_right fun hphi => ?_
      simp [hphi.1, Kind.isLogic] at hlogic
    refine ⟨t, ?_, fun k hk' => ?_⟩
    · rw [hinputs, List.head?_map, ht, Option.map_some, hσ]
    · obtain ⟨l', hl', hstamp', _⟩ := R.node t k hk'
      cases hl.symm.trans hl'
      have hfloat := (R.sort hk' hl).1.trans (Kind.isControl_of_isLogic hlogic)
      rw [R.kind_eq hk' hl hfloat, hstamp']
      exact ⟨hlogic, hstamp⟩
  · obtain ⟨m, hm, _, hanchor, _⟩ := R.node q n hn
    obtain ⟨a, ha, hanchored⟩ := F.guard q m hm ((R.sort hn hm).2.1 ▸ hk)
    refine ⟨a, hanchor.trans ha, fun k hk' => ?_⟩
    obtain ⟨l, hl, _⟩ := R.node a k hk'
    exact (R.sort hk' hl).2.2.1 (hanchored l hl)
  · obtain ⟨m, hm, _, hanchor, _, _, hinputs, _⟩ := R.node p n hn
    have hkind := R.kind_eq hn hm (by simp [hk, Kind.isControl])
    obtain ⟨t, l, ha, hl, hmerge, hlen⟩ := F.phi p m hm (hkind ▸ hk)
    obtain ⟨k, hk', _, hpred, _⟩ := R.ways.forth t l hl (Kind.isControl_of_isMerge hmerge)
    refine ⟨t, k, hanchor.trans ha, hk', ?_, fun hr => ?_⟩
    · obtain ⟨l', hl', _, _, _, _, _, _, he | ⟨_, _, hnone⟩⟩ := R.node t k hk'
      · cases hl.symm.trans hl'
        exact he ▸ hmerge
      · exact absurd (hanchor.trans ha) (hnone p n hn hk)
    · rw [hinputs, List.length_map, hpred]
      exact hlen ((R.ways.reach_iff H).mp hr)
  · obtain ⟨m, hm, _, _, _, _, hinputs, _⟩ := R.node x n hn
    rw [hinputs, List.length_map]
    rcases (R.sort hn hm).2.2.2 with he | ⟨he, _⟩
    · exact F.arity x m hm count (he ▸ hcount)
    · simp [he, Kind.takes?] at hcount
  · obtain ⟨m, hm, _, _, hguard, _⟩ := R.node x n hn
    rw [hguard]
    exact F.pi x m hm (R.kind_eq hn hm (by simp [hk, Kind.isControl]) ▸ hk)
  · obtain ⟨m, hm, _, hanchor, hguard, hmemory, _⟩ := R.node x n hn
    obtain ⟨l, hl, _⟩ := R.node d k hk
    obtain ⟨hcontrol, hguard', _⟩ := R.sort hk hl
    rw [hcontrol, hguard']
    rcases hd with hd | hd | hd
    · exact F.edge x m d l hm (Or.inl (hanchor ▸ hd)) hl
    · exact F.edge x m d l hm (Or.inr (Or.inl (hguard ▸ hd))) hl
    · rw [hmemory] at hd
      obtain ⟨e, he, rfl⟩ := Option.map_eq_some_iff.mp hd
      obtain ⟨q, hq⟩ := I.live x m e hm (Node.mem_dependencies.mpr (Or.inr (Or.inr (Or.inr he))))
      obtain ⟨l', _, hl', _, hk'⟩ := R.memory_control H hq (F.edge x m e q hm (Or.inr (Or.inr he)) hq)
      cases hl.symm.trans hl'
      exact hk'

variable (P : g.Placed place g.Dom) (hsource : g.Dom source merge)

include P hsource

omit I P in
theorem value_above {e : NodeId} {m : Node} (hm : g.get? e = some m) (he : g.Reach (place e)) :
    g.Dom (place (σ e)) (place e) := by
  rcases (R.value e m hm).2 with hσ | ⟨_, hmerge, hd, _⟩
  · rw [hσ]
    exact .refl he
  · rw [hmerge]
    exact hd.trans hsource

theorem placed (hplace : ∀ x n, g.get? x = some n → g.Reach (place x)) : h.Placed place h.Dom := by
  have F := I.formed
  have H := F.shaped
  refine ⟨fun c n hn hk => ?_, fun x n a hn hk ha => ?_, fun x n d hn hd => R.ways.dom H ?_,
    fun p n t k i x s hp hk ha ht hx hs => R.ways.dom H ?_⟩
  · obtain ⟨m, hm, _⟩ := R.node c n hn
    exact P.control c m hm ((R.sort hn hm).1 ▸ hk)
  · obtain ⟨m, hm, _, hanchor, _⟩ := R.node x n hn
    have hkind : n.kind = m.kind := by
      refine R.kind_eq hn hm ?_
      rcases hk with hk | hk
      · exact Kind.isControl_of_isGuard hk
      · simp [hk, Kind.isControl]
    exact P.anchor x m a hm (hkind ▸ hk) (hanchor ▸ ha)
  · obtain ⟨m, hm, _, hanchor, hguard, hmemory, hinputs, _⟩ := R.node x n hn
    rcases hd with ⟨hphi, hin⟩ | hd | hd | hd
    · rw [hinputs] at hin
      obtain ⟨e, he, rfl⟩ := List.mem_map.mp hin
      have hphi' : m.kind ≠ .phi := by
        intro hphi'
        refine hphi ((R.kind_eq hn hm ?_).trans hphi')
        rw [(R.sort hn hm).1, hphi']
        rfl
      obtain ⟨l, hl⟩ := I.live x m e hm (Node.mem_dependencies.mpr (Or.inl he))
      exact (R.value_above hsource hl (hplace e l hl)).trans (P.rests x m e hm (Or.inl ⟨hphi', he⟩))
    · exact P.rests x m d hm (Or.inr (Or.inl (hanchor ▸ hd)))
    · exact P.rests x m d hm (Or.inr (Or.inr (Or.inl (hguard ▸ hd))))
    · rw [hmemory] at hd
      obtain ⟨e, he, rfl⟩ := Option.map_eq_some_iff.mp hd
      have hrests := P.rests x m e hm (Or.inr (Or.inr (Or.inr he)))
      obtain ⟨l, hl⟩ := I.live x m e hm (Node.mem_dependencies.mpr (Or.inr (Or.inr (Or.inr he))))
      rcases R.memory e l hl with hτ | hd
      · rw [hτ]
        exact hrests
      · obtain ⟨c, hc, hk⟩ := H.exists_control hd.reach_left
        rw [P.control (τ e) c hc hk]
        exact hd.trans hrests
  · obtain ⟨m, hm, _, hanchor, _, _, hinputs, _⟩ := R.node p n hp
    have hkind := R.kind_eq hp hm (by simp [hk, Kind.isControl])
    obtain ⟨t', l, ha', hl, hmerge, _⟩ := F.phi p m hm (hkind ▸ hk)
    obtain rfl : t = t' := Option.some.inj (ha.symm.trans (hanchor.trans ha'))
    obtain ⟨k', hk', _, hpred, _⟩ := R.ways.forth t l hl (Kind.isControl_of_isMerge hmerge)
    cases ht.symm.trans hk'
    rw [hinputs, List.getElem?_map] at hx
    obtain ⟨e, he, rfl⟩ := Option.map_eq_some_iff.mp hx
    obtain ⟨q, hq⟩ := I.live p m e hm (Node.mem_dependencies.mpr (Or.inl (List.mem_of_getElem? he)))
    exact (R.value_above hsource hq (hplace e q hq)).trans (P.entry p m t l i e s hm (hkind ▸ hk) ha' hl he (hpred ▸ hs))

omit hsource in
theorem input {x y : NodeId} {n : Node} (hn : h.get? x = some n) (hk : n.kind.isControl = false) (hphi : n.kind ≠ .phi)
    (hy : y ∈ n.inputs) : g.Computes x y ∨ g.Dom merge (place x) ∧ g.Dom (place y) source := by
  obtain ⟨m, hm, _, _, _, _, hinputs, _⟩ := R.node x n hn
  have hkind := R.kind_eq hn hm hk
  rw [hinputs] at hy
  obtain ⟨e, he, rfl⟩ := List.mem_map.mp hy
  obtain ⟨l, hl⟩ := I.live x m e hm (Node.mem_dependencies.mpr (Or.inl he))
  rcases (R.value e l hl).2 with hσ | ⟨_, hmerge, hd, _⟩
  · rw [hσ]
    exact Or.inl ⟨m, hm, hkind ▸ hk, hkind ▸ hphi, he⟩
  · exact Or.inr ⟨hmerge ▸ P.rests x m e hm (Or.inl ⟨hkind ▸ hphi, he⟩), hd⟩

omit hsource in
theorem relies {x y : NodeId} (hr : h.Relies x y) : g.Relies x y ∨ g.Dom merge (place x) ∧ g.Dom (place y) source := by
  obtain ⟨n, hn, hk, hr⟩ := hr
  rcases hr with ⟨hphi, hin⟩ | hg
  · rcases R.input I P hn hk hphi hin with ⟨m, hm, hkm, hphi', hin'⟩ | hnew
    · exact Or.inl ⟨m, hm, hkm, Or.inl ⟨hphi', hin'⟩⟩
    · exact Or.inr hnew
  · obtain ⟨m, hm, _, _, hguard, _⟩ := R.node x n hn
    exact Or.inl ⟨m, hm, R.kind_eq hn hm hk ▸ hk, Or.inr (hguard ▸ hg)⟩

end Redirect

theorem InOrder.redirect (I : g.InOrder) (P : g.Placed place g.Dom)
    (hplace : ∀ x n, g.get? x = some n → g.Reach (place x)) (hsource : g.Dom source merge) (hne : source ≠ merge)
    (R : Redirect g h place σ τ merge source) : h.InOrder := by
  have H := I.formed.shaped
  have hup : ∀ x y, g.Relies x y → g.Dom (place y) (place x) := by
    rintro x y ⟨n, hn, _, hin | hg⟩
    · exact P.rests x n y hn (Or.inl hin)
    · exact P.rests x n y hn (Or.inr (Or.inr (Or.inl hg)))
  -- otherwise the merge would stand above its predecessor
  have hno : ∀ {a b}, a = b → ¬(g.Dom merge a ∧ g.Dom b source) := by
    rintro a _ rfl ⟨hbelow, habove⟩
    exact hne (hsource.antisymm (hbelow.trans habove))
  refine ⟨R.formed I, fun x n d => R.live I, fun c n hn hk => ?_, ⟨place, R.placed I P hsource hplace, fun x n hn => ?_⟩,
    fun x hx => ?_, fun q r a n m hq hk ha hr hk' ha' hrel => ?_⟩
  · obtain ⟨m, hm, _⟩ := R.node c n hn
    exact (R.ways.reach_iff H).mpr (I.reached c m hm ((R.sort hn hm).1 ▸ hk))
  · obtain ⟨m, hm, _⟩ := R.node x n hn
    exact (R.ways.reach_iff H).mpr (hplace x m hm)
  · have hnew : ∀ x y, h.Computes x y → g.Computes x y ∨ g.Dom merge (place x) ∧ g.Dom (place y) source := by
      rintro x y ⟨n, hn, hk, hphi, hin⟩
      exact R.input I P hn hk hphi hin
    have hup' : ∀ x y, g.Computes x y → g.Dom (place y) (place x) := by
      rintro x y ⟨n, hn, hk, hin⟩
      exact hup x y ⟨n, hn, hk, Or.inl hin⟩
    exact (transGen_redirect hnew hup' hx).elim (I.acyclic x) (hno rfl)
  · obtain ⟨n', hq', _, hanchor, _⟩ := R.node q n hq
    obtain ⟨m', hr', _, hanchor', _⟩ := R.node r m hr
    have hkn := (R.sort hq hq').2.1 ▸ hk
    have hkm := (R.sort hr hr').2.1 ▸ hk'
    have hsame : place q = place r := by
      rw [P.anchor q n' a hq' (Or.inl hkn) (hanchor ▸ ha), P.anchor r m' a hr' (Or.inl hkm) (hanchor' ▸ ha')]
    have hnew : ∀ x y, h.Relies x y → g.Relies x y ∨ g.Dom merge (place x) ∧ g.Dom (place y) source :=
      fun _ _ => R.relies I P
    rcases transGen_redirect hnew hup hrel with hold | hnew
    · exact I.ordered q r a n' m' hq' hkn (hanchor ▸ ha) hr' hkm (hanchor' ▸ ha') hold
    · exact (hno hsame hnew).elim

theorem InOrder.source_above (I : g.InOrder) {k : Node} (hm : g.get? merge = some k) (hmerge : k.kind.isMerge = true)
    (hpred : k.predecessors = [source]) : g.Dom source merge ∧ source ≠ merge ∧ g.kind? source ≠ some .loopEnd := by
  have H := I.formed.shaped
  have hr := I.reached merge k hm (Kind.isControl_of_isMerge hmerge)
  have hne : merge ≠ start := by
    rintro rfl
    obtain ⟨n, hn, hk, _⟩ := H.start
    cases hm.symm.trans hn
    simp [hk, Kind.isMerge] at hmerge
  obtain ⟨a, _, hs⟩ := hr.exists_step hne
  have ha := H.mem_predecessors hs hm
  rw [hpred, List.mem_singleton] at ha
  subst ha
  refine ⟨H.dom_of_predecessors hr hm hpred, H.ne_of_step hs, fun he => ?_⟩
  obtain ⟨l, hl, hkind⟩ := kind?_eq_some_iff.mp he
  obtain ⟨l', hl', _, hend, _⟩ := hs
  cases hl.symm.trans hl'
  exact hend hkind

theorem get?_resolve {p v x : NodeId} {n : Node} : ((g.replaceInput p v).delete p).get? x = some n ↔
    x ≠ p ∧ ∃ m, g.get? x = some m ∧ n = { m with inputs := m.inputs.map fun i => if i = p then v else i } := by
  rw [get?_delete, get?_replaceInput]
  by_cases hx : x = p
  · simp [hx]
  · simp [hx, eq_comm]

/-- A phi of a merge with one predecessor has one input, and can give way to it. -/
theorem InOrder.resolve (I : g.InOrder) {p : NodeId} {n k : Node} (hp : g.get? p = some n) (hphi : n.kind = .phi)
    (ha : n.anchor = some merge) (hm : g.get? merge = some k) (hpred : k.predecessors = [source]) :
    ∃ v, n.inputs = [v] ∧ v ≠ p ∧ ((g.replaceInput p v).delete p).InOrder := by
  obtain ⟨_, _, ha', hm', hmerge, hlen⟩ := I.formed.phi p n hp hphi
  cases ha.symm.trans ha'
  cases hm.symm.trans hm'
  obtain ⟨hsource, hne, _⟩ := I.source_above hm hmerge hpred
  obtain ⟨place, P, hplace⟩ := I.placed
  obtain ⟨v, hv⟩ : ∃ v, n.inputs = [v] := by
    have hone := hlen hsource.reach
    rw [hpred] at hone
    exact List.length_eq_one_iff.mp hone
  have hentry : g.Dom (place v) source := P.entry p n merge k 0 v source hp hphi ha hm (by rw [hv]; rfl) (by rw [hpred]; rfl)
  have hplaced := P.anchor p n merge hp (Or.inr hphi) ha
  have hvp : v ≠ p := by
    rintro rfl
    rw [hplaced] at hentry
    exact hne (hsource.antisymm hentry)
  have hother : ∀ {x m}, g.get? x = some m → m.kind ≠ .phi → x ≠ p := by
    rintro x m hx hk rfl
    cases hp.symm.trans hx
    exact hk hphi
  have R : Redirect g ((g.replaceInput p v).delete p) place (fun i => if i = p then v else i) id merge source := by
    refine ⟨⟨?_, ?_, ?_⟩, ?_, ?_, ?_, fun _ _ _ => Or.inl rfl⟩
    · rw [capacity_delete]
      exact capacity_mapLive ..
    · intro x n' hn'
      obtain ⟨_, m, hx, rfl⟩ := get?_resolve.mp hn'
      exact ⟨m, hx, rfl⟩
    · intro c m hc hk
      refine ⟨_, get?_resolve.mpr ⟨hother hc ?_, m, hc, rfl⟩, rfl, rfl, Or.inl rfl⟩
      rintro hphi'
      simp [hphi', Kind.isControl] at hk
    · intro x n' hn'
      obtain ⟨_, m, hx, rfl⟩ := get?_resolve.mp hn'
      exact ⟨m, hx, rfl, rfl, rfl, Option.map_id'.symm, rfl, rfl, Or.inl rfl⟩
    · intro x m hx
      by_cases hxp : x = p
      · subst hxp
        cases hp.symm.trans hx
        obtain ⟨l, hl⟩ := I.live x n v hp (Node.mem_dependencies.mpr (Or.inl (by simp [hv])))
        rw [if_pos rfl]
        refine ⟨⟨_, get?_resolve.mpr ⟨hvp, l, hl, rfl⟩⟩, Or.inr ⟨hphi, hplaced, hentry, fun l' hl' => ?_⟩⟩
        exact I.formed.input x n v l' hp (by simp [hv]) hl'
      · rw [if_neg hxp]
        exact ⟨⟨_, get?_resolve.mpr ⟨hxp, m, hx, rfl⟩⟩, Or.inl rfl⟩
    · intro x m hx hk
      refine ⟨_, get?_resolve.mpr ⟨hother hx ?_, m, hx, rfl⟩⟩
      rintro hphi'
      simp [hphi', Kind.isGuard] at hk
  exact ⟨v, hv, hvp, I.redirect P hplace hsource hne R⟩

theorem get?_flatten {memory x : NodeId} {n : Node} :
    ((g.replaceMemory merge memory).modify merge ({ · with kind := .begin })).get? x = some n ↔
    ∃ m, g.get? x = some m ∧ n = { m with
      kind := if x = merge then .begin else m.kind
      memory := m.memory.map fun i => if i = merge then memory else i } := by
  rw [get?_modify (f := fun n : Node => { n with kind := .begin }) (fun _ => rfl), get?_replaceMemory, Option.map_map,
    Option.map_eq_some_iff]
  refine exists_congr fun m => and_congr_right fun _ => ?_
  have hmap : (if m.memory = some merge then some memory else m.memory) =
      m.memory.map fun i => if i = merge then memory else i := by
    cases m.memory with
    | none => rfl
    | some i => by_cases hi : i = merge <;> simp [hi]
  by_cases hx : x = merge <;> simp [hx, hmap, eq_comm]

/-- A merge with one way in may become a plain step, whatever becomes of its memory state. -/
theorem SameWays.flatten {memory : NodeId} {k : Node} (hm : g.get? merge = some k) (hmerge : k.kind.isMerge = true)
    (hpred : k.predecessors = [source]) (hend : g.kind? source ≠ some .loopEnd) :
    SameWays g ((g.replaceMemory merge memory).modify merge ({ · with kind := .begin })) := by
  refine ⟨?_, fun x n hn => ?_, fun c m hc hkc => ?_⟩
  · rw [capacity_modify]
    exact capacity_mapLive ..
  · obtain ⟨m, hx, rfl⟩ := get?_flatten.mp hn
    refine ⟨m, hx, ?_⟩
    by_cases he : x = merge
    · subst he
      cases hm.symm.trans hx
      rw [Kind.isControl_of_isMerge hmerge, if_pos rfl]
      rfl
    · rw [if_neg he]
  · refine ⟨_, get?_flatten.mpr ⟨m, hc, rfl⟩, rfl, rfl, ?_⟩
    by_cases he : c = merge
    · subst he
      cases hm.symm.trans hc
      refine Or.inr ⟨if_pos rfl, hmerge, by simp [hpred], fun p hp => ?_⟩
      rw [hpred, List.mem_singleton] at hp
      exact hp ▸ hend
    · exact Or.inl (if_neg he)

theorem InOrder.flatten (I : g.InOrder) {memory : NodeId} {k : Node} (hm : g.get? merge = some k)
    (hmerge : k.kind.isMerge = true) (hpred : k.predecessors = [source]) (hnone : g.phisOf merge = [])
    (hmemory : g.Dom memory source) :
    ((g.replaceMemory merge memory).modify merge ({ · with kind := .begin })).InOrder := by
  obtain ⟨hsource, hne, hend⟩ := I.source_above hm hmerge hpred
  obtain ⟨place, P, hplace⟩ := I.placed
  have hk := Kind.isControl_of_isMerge hmerge
  have R : Redirect g ((g.replaceMemory merge memory).modify merge ({ · with kind := .begin })) place id
      (fun i => if i = merge then memory else i) merge source := by
    refine ⟨.flatten hm hmerge hpred hend, ?_, ?_, ?_, ?_⟩
    · intro x n hn
      obtain ⟨m, hx, rfl⟩ := get?_flatten.mp hn
      refine ⟨m, hx, rfl, rfl, rfl, rfl, (List.map_id' m.inputs).symm, rfl, ?_⟩
      by_cases he : x = merge
      · subst he
        cases hm.symm.trans hx
        refine Or.inr ⟨if_pos rfl, hmerge, fun p q hq hphi ha => ?_⟩
        obtain ⟨l, hl, rfl⟩ := get?_flatten.mp hq
        have hmem : p ∈ g.phisOf x := by
          refine mem_phisOf.mpr ⟨l, hl, ?_, ha⟩
          by_cases hpx : p = x
          · simp [hpx] at hphi
          · simpa [hpx] using hphi
        simp [hnone] at hmem
      · exact Or.inl (if_neg he)
    · intro x m hx
      exact ⟨⟨_, get?_flatten.mpr ⟨m, hx, rfl⟩⟩, Or.inl rfl⟩
    · intro x m hx _
      exact ⟨_, get?_flatten.mpr ⟨m, hx, rfl⟩⟩
    · intro x m hx
      by_cases he : x = merge
      · subst he
        rw [P.control x k hm hk]
        exact Or.inr (by rw [if_pos rfl]; exact hmemory.trans hsource)
      · exact Or.inl (if_neg he)
  exact I.redirect P hplace hsource hne R

end Graph

namespace Sweep

variable {g : Graph} {s : Sweep} {merge source : NodeId}

theorem memoryAbove_ok (H : g.Shaped) {control id : NodeId} (hr : g.Reach id) {bound : Nat} (above : Finset NodeId)
    (habove : ∀ e, g.Dom e id → e ∈ above) (hbound : above.card < bound) :
    ∃ memory, memoryAbove g control bound id = .ok memory ∧ g.Dom memory id := by
  induction bound generalizing id above with
  | zero => exact absurd hbound (Nat.not_lt_zero _)
  | succ bound ih =>
    obtain ⟨n, hn, hk⟩ := H.exists_control hr
    have hkind : expect (g.kind? id) (.memoryWalkRemoved id) = .ok n.kind :=
      expect_ok.mpr (Graph.kind?_eq_some_iff.mpr ⟨n, hn, rfl⟩)
    by_cases hkills : n.kind.killsMemory = true
    · refine ⟨id, except_bind_ok.mpr ⟨n.kind, hkind, ?_⟩, .refl hr⟩
      rw [if_pos hkills]
      rfl
    · have hne : id ≠ Graph.start := by
        rintro rfl
        obtain ⟨m, hm, hstart, _⟩ := H.start
        cases hn.symm.trans hm
        simp [hstart, Kind.killsMemory] at hkills
      have hmerge : n.kind.isMerge = false ∧ n.kind ≠ .loopBegin := by
        cases he : n.kind <;> simp_all [Kind.killsMemory, Kind.isMerge]
      obtain ⟨a, ha, hs⟩ := hr.exists_step hne
      have hpred : n.predecessors = [a] :=
        eq_singleton_of_mem (H.join id n hn hk hmerge.1) (H.mem_predecessors hs hn)
      have hhead : expect (g.forwardPredecessors id).head? (.noMemoryAbove control) = .ok a := by
        refine expect_ok.mpr ?_
        simp [Graph.forwardPredecessors, hn, hpred, hmerge.2]
      have hd := H.dom_of_predecessors hr hn hpred
      have hrest : ∀ e, g.Dom e a → e ∈ above.erase id := by
        intro e he
        refine Finset.mem_erase.mpr ⟨?_, habove e (he.trans hd)⟩
        rintro rfl
        exact H.ne_of_step hs (hd.antisymm he)
      have hcard : (above.erase id).card < bound := by
        have hself := habove id (.refl hr)
        have hpos := Finset.card_pos.mpr ⟨id, hself⟩
        rw [Finset.card_erase_of_mem hself]
        omega
      obtain ⟨memory, hmemory, hdom⟩ := ih ha (above.erase id) hrest hcard
      refine ⟨memory, except_bind_ok.mpr ⟨n.kind, hkind, ?_⟩, hdom.trans hd⟩
      rw [if_neg hkills]
      exact except_bind_ok.mpr ⟨a, hhead, hmemory⟩

theorem memoryState_ok (H : g.Shaped) {control : NodeId} (hr : g.Reach control) :
    ∃ memory, memoryState g control = .ok memory ∧ g.Dom memory control := by
  refine memoryAbove_ok H hr (Finset.range g.capacity) (fun e he => ?_) ?_
  · exact Finset.mem_range.mpr he.reach_left.lt
  · rw [Finset.card_range]
    exact Nat.lt_succ_self _

theorem resolvePhi_succeeds {phi value : NodeId} {n : Node} (hn : s.graph.get? phi = some n) (hv : n.inputs = [value])
    (hne : value ≠ phi) : resolvePhi merge phi s =
      .ok () { s with graph := (s.graph.replaceInput phi value).delete phi, changes := s.changes.note phi } := by
  refine Attempt.bind_ok.mpr ⟨n, s, Attempt.ask_ok.mpr ⟨Graph.node_eq_ok_iff.mpr hn, rfl⟩, ?_⟩
  have hvalue : n.inputs.head?.filter (· ≠ phi) = some value := by simp [hv, hne]
  rw [hvalue]
  rfl

theorem resolvePhis_inOrder {phis : List NodeId} (hnodup : phis.Nodup) (I : s.graph.InOrder) {k : Node}
    (hphis : ∀ p, p ∈ phis ↔ p ∈ s.graph.phisOf merge) (hm : s.graph.get? merge = some k)
    (hmerge : k.kind.isMerge = true) (hinputs : k.inputs = []) (hpred : k.predecessors = [source]) :
    ∃ s', phis.forM (resolvePhi merge) s = .ok () s' ∧ s'.graph.InOrder ∧ s'.graph.get? merge = some k ∧
      s'.graph.phisOf merge = [] := by
  induction phis generalizing s with
  | nil => exact ⟨s, rfl, I, hm, List.eq_nil_iff_forall_not_mem.mpr fun p hp => List.not_mem_nil ((hphis p).mpr hp)⟩
  | cons p phis ih =>
    obtain ⟨hp, hnodup⟩ := List.nodup_cons.mp hnodup
    obtain ⟨n, hn, hphi, ha⟩ := Graph.mem_phisOf.mp ((hphis p).mp List.mem_cons_self)
    obtain ⟨v, hv, hne, I'⟩ := I.resolve hn hphi ha hm hpred
    have hmp : merge ≠ p := by
      rintro rfl
      cases hm.symm.trans hn
      simp [hphi, Kind.isMerge] at hmerge
    have hrest : ∀ q, q ∈ phis ↔ q ∈ ((s.graph.replaceInput p v).delete p).phisOf merge := by
      intro q
      rw [Graph.mem_phisOf]
      constructor
      · intro hq
        obtain ⟨l, hl, hphi', ha'⟩ := Graph.mem_phisOf.mp ((hphis q).mp (List.mem_cons_of_mem _ hq))
        exact ⟨_, Graph.get?_resolve.mpr ⟨fun he => hp (he ▸ hq), l, hl, rfl⟩, hphi', ha'⟩
      · rintro ⟨_, hq, hphi', ha'⟩
        obtain ⟨hqp, l, hl, rfl⟩ := Graph.get?_resolve.mp hq
        exact (List.mem_cons.mp ((hphis q).mpr (Graph.mem_phisOf.mpr ⟨l, hl, hphi', ha'⟩))).resolve_left hqp
    have hm' : ((s.graph.replaceInput p v).delete p).get? merge = some k :=
      Graph.get?_resolve.mpr ⟨hmp, k, hm, by rw [hinputs, List.map_nil, ← hinputs]⟩
    obtain ⟨s', hs', hdone⟩ := @ih { s with
      graph := (s.graph.replaceInput p v).delete p, changes := s.changes.note p } hnodup I' hrest hm'
    exact ⟨s', Attempt.bind_ok.mpr ⟨(), _, resolvePhi_succeeds hn hv hne, hs'⟩, hdone⟩

/-- Simplifying a merge succeeds and keeps order. -/
theorem simplifyMerge_inOrder (I : s.graph.InOrder) (merge : NodeId) :
    ∃ s', simplifyMerge merge s = .ok () s' ∧ s'.graph.InOrder := by
  cases hn : s.graph.get? merge with
  | none =>
    refine ⟨s, Attempt.bind_ok.mpr ⟨s, s, rfl, ?_⟩, I⟩
    rw [hn]
    rfl
  | some n =>
    obtain ⟨kind, stamp, inputs, successors, predecessors, anchor, guard, memory, removed, synthetic⟩ := n
    rcases predecessors with _ | ⟨source, _ | ⟨_, _⟩⟩
    · refine ⟨s, Attempt.bind_ok.mpr ⟨s, s, rfl, ?_⟩, I⟩
      rw [hn]
      rfl
    · by_cases hmerge : kind.isMerge = true
      · have hinputs : inputs = [] :=
          (I.formed.plain merge _ hn (Kind.isControl_of_isMerge hmerge)).2.2.2 (Kind.isAnchor_of_isMerge hmerge)
        have hnodup : (s.graph.phisOf merge).Nodup := (Graph.select_sorted s.graph _).imp fun h => Nat.ne_of_lt h
        obtain ⟨s₁, hphis, I₁, hm, hnone⟩ := resolvePhis_inOrder hnodup I (fun _ => Iff.rfl) hn hmerge hinputs rfl
        have hsource := (I₁.source_above hm hmerge rfl).1
        obtain ⟨memory, hmemory, hd⟩ := memoryState_ok I₁.formed.shaped hsource.reach_left
        refine ⟨{ s₁ with
          graph := (s₁.graph.replaceMemory merge memory).modify merge ({ · with kind := .begin })
          changes := s₁.changes.note merge }, Attempt.bind_ok.mpr ⟨s, s, rfl, ?_⟩, I₁.flatten hm hmerge rfl hnone hd⟩
        rw [hn]
        dsimp only
        rw [if_pos hmerge]
        exact Attempt.bind_ok.mpr ⟨(), s₁, hphis, Attempt.bind_ok.mpr ⟨memory, s₁, Attempt.ask_ok.mpr ⟨hmemory, rfl⟩, rfl⟩⟩
      · refine ⟨s, Attempt.bind_ok.mpr ⟨s, s, rfl, ?_⟩, I⟩
        rw [hn]
        dsimp only
        rw [if_neg hmerge]
        rfl
    · refine ⟨s, Attempt.bind_ok.mpr ⟨s, s, rfl, ?_⟩, I⟩
      rw [hn]
      rfl

theorem simplifyMerges_inOrder (I : s.graph.InOrder) (ids : List NodeId) :
    ∃ s', ids.forM simplifyMerge s = .ok () s' ∧ s'.graph.InOrder := by
  induction ids generalizing s with
  | nil => exact ⟨s, rfl, I⟩
  | cons id ids ih =>
    obtain ⟨s₁, hone, I₁⟩ := simplifyMerge_inOrder I id
    obtain ⟨s₂, hrest, I₂⟩ := ih I₁
    exact ⟨s₂, Attempt.bind_ok.mpr ⟨(), s₁, hone, hrest⟩, I₂⟩

end Sweep

end GuardElision
