import GuardElision.Proofs.Graph.InOrder
import GuardElision.Proofs.Graph.Links
import GuardElision.Proofs.Graph.Ways

/-!
Every node has a position, and every position a rank that grows along forward control flow. If what a node
relies on stands no lower than the node, a cycle of reliance stays at one position.
-/

namespace GuardElision

/-- Positions and ranks of nodes, and which of them can protect others: guards and control nodes. Nodes from
`base` on are those that are added later, all at the bottom. -/
structure Layering where
  pos : NodeId → NodeId
  rank : NodeId → Nat
  protects : NodeId → Prop
  base : Nat
  pos_new : ∀ c, base ≤ c → pos c = c
  rank_new : ∀ c s, base ≤ s → c < s → rank c < rank s
  protects_new : ∀ c, base ≤ c → protects c

namespace Layering

variable (L : Layering) {x y z : NodeId}

/-- The node `y` stands where `x` stands or at a position of lower rank. -/
def Above (y x : NodeId) : Prop :=
  L.pos y = L.pos x ∨ L.rank (L.pos y) < L.rank (L.pos x)

variable {L}

theorem Above.rank_le (h : L.Above y x) : L.rank (L.pos y) ≤ L.rank (L.pos x) :=
  h.elim (fun he => Nat.le_of_eq (congrArg L.rank he)) Nat.le_of_lt

theorem Above.trans (h : L.Above z y) (h' : L.Above y x) : L.Above z x := by
  rcases h, h' with ⟨h | h, h' | h'⟩
  · exact Or.inl (h.trans h')
  · exact Or.inr (h ▸ h')
  · exact Or.inr (h' ▸ h)
  · exact Or.inr (Nat.lt_trans h h')

theorem Above.pos_eq (h : L.Above y x) (hle : L.rank (L.pos x) ≤ L.rank (L.pos y)) : L.pos y = L.pos x :=
  h.resolve_right (Nat.not_lt.mpr hle)

theorem above_of_transGen {R : NodeId → NodeId → Prop} (hR : ∀ x y, R x y → L.Above y x)
    (h : Relation.TransGen R x y) : L.Above y x := by
  induction h with
  | single hs => exact hR _ _ hs
  | tail _ hs ih => exact (hR _ _ hs).trans ih

end Layering

section Relation

variable {R R' : NodeId → NodeId → Prop} {x y old new : NodeId}

/-- A path after edges to `old` were turned to `new`. -/
theorem transGen_turned (hturn : ∀ x y, R' x y → R x y ∨ R x old ∧ y = new) (h : Relation.TransGen R' x y) :
    Relation.TransGen R x y ∨ Relation.TransGen R x old ∧ (y = new ∨ Relation.TransGen R new y) := by
  induction h with
  | single hs =>
    rcases hturn _ _ hs with hs | ⟨hs, rfl⟩
    · exact Or.inl (.single hs)
    · exact Or.inr ⟨.single hs, Or.inl rfl⟩
  | tail _ hs ih =>
    rcases ih, hturn _ _ hs with ⟨hxy | ⟨hx, hy⟩, hs | ⟨hs, rfl⟩⟩
    · exact Or.inl (hxy.tail hs)
    · exact Or.inr ⟨hxy.tail hs, Or.inl rfl⟩
    · rcases hy with rfl | hy
      · exact Or.inr ⟨hx, Or.inr (.single hs)⟩
      · exact Or.inr ⟨hx, Or.inr (hy.tail hs)⟩
    · exact Or.inr ⟨hx, Or.inl rfl⟩

theorem transGen_lent (hlend : ∀ x y, R' x y → R x y ∨ x = new ∧ R old y) (h : Relation.TransGen R' x y) :
    Relation.TransGen R x y ∨ (x = new ∨ Relation.TransGen R x new) ∧ Relation.TransGen R old y := by
  induction h with
  | single hs =>
    rcases hlend _ _ hs with hs | ⟨rfl, hs⟩
    · exact Or.inl (.single hs)
    · exact Or.inr ⟨Or.inl rfl, .single hs⟩
  | tail _ hs ih =>
    rcases ih, hlend _ _ hs with ⟨hxy | ⟨hx, hy⟩, hs | ⟨rfl, hs⟩⟩
    · exact Or.inl (hxy.tail hs)
    · exact Or.inr ⟨Or.inr hxy, .single hs⟩
    · exact Or.inr ⟨hx, hy.tail hs⟩
    · exact Or.inr ⟨hx, .single hs⟩

end Relation

namespace Graph

variable {g h : Graph} {L : Layering}

/-- The graph keeps to the layers: all that a node relies on stands above it, no cycle of reliance exists,
and guards at one position do not rely on each other. -/
structure Layered (L : Layering) (g : Graph) : Prop where
  shaped : g.Shaped
  loose : ∀ x n, g.get? x = some n → n.kind.isControl = false → n.successors = []
  capacity : L.base ≤ g.capacity
  protects : ∀ x n, g.get? x = some n → (n.kind.isControl = true ∨ n.kind.isGuard = true ↔ L.protects x)
  control : ∀ c n, g.get? c = some n → n.kind.isControl = true → L.pos c = c
  anchor : ∀ x n, g.get? x = some n → n.kind.isGuard = true ∨ n.kind = .phi →
    n.anchor = some (L.pos x) ∧ L.pos x < L.base
  post : ∀ q n, g.get? q = some n → n.kind.isGuard = true → L.pos (L.pos q) = L.pos q ∧ L.protects (L.pos q) ∧
    ∀ k, g.get? (L.pos q) = some k → k.kind.isAnchor = true
  step : ∀ c s, g.Step c s → L.rank c < L.rank s
  above : ∀ x y, g.Relies x y → L.Above y x
  /-- The input of a phi stands above the predecessor it comes from. -/
  entry : ∀ p n k (i : Nat) x s, g.get? p = some n → n.kind = .phi → g.get? (L.pos p) = some k →
    n.inputs[i]? = some x → k.predecessors[i]? = some s → L.rank (L.pos x) ≤ L.rank s
  acyclic : ∀ x, ¬Relation.TransGen g.Relies x x
  apart : ∀ q r n m, g.get? q = some n → n.kind.isGuard = true → g.get? r = some m → m.kind.isGuard = true →
    L.pos q = L.pos r → ¬Relation.TransGen g.Relies q r

/-- Where control edges are cut, and what goes with them goes, the graph keeps to its layers. -/
theorem Layered.cut {u : NodeId} {D : NodeId → Prop} (Y : g.Layered L) (C : Cut u D g h) : h.Layered L := by
  have H := Y.shaped
  have hbase := Y.capacity
  have hsort : ∀ x n, h.get? x = some n → x < g.capacity → ∃ m, g.get? x = some m ∧ n.anchor = m.anchor ∧
      n.kind.isControl = m.kind.isControl ∧ n.kind.isGuard = m.kind.isGuard ∧
      (m.kind.isAnchor = true → n.kind.isAnchor = true) := by
    intro x n hn hlt
    obtain ⟨m, hm, hanchor, _, _, ⟨he, _⟩ | ⟨he, hb, _⟩⟩ := C.node hn hlt
    · exact ⟨m, hm, hanchor, by rw [he], by rw [he], by rw [he]; exact id⟩
    · exact ⟨m, hm, hanchor, by rw [he, hb]; rfl, by rw [he, hb]; rfl, by simp [hb, Kind.isAnchor]⟩
  have hfloat : ∀ x n, h.get? x = some n → n.kind.isControl = false → ∃ m, g.get? x = some m ∧ n.kind = m.kind ∧
      n.anchor = m.anchor ∧ n.guard = m.guard ∧ n.successors = m.successors ∧ (n.kind ≠ .phi → n.inputs = m.inputs) := by
    intro x n hn hk
    obtain ⟨hlt, hne⟩ := C.floating hn hk
    obtain ⟨m, hm, hkind, _, hanchor, hguard, _, hsucc, hinputs, _⟩ := C.other x n hn hlt hne
    exact ⟨m, hm, hkind, hanchor, hguard, hsucc, hinputs⟩
  have hrelies : ∀ x y, h.Relies x y → g.Relies x y := by
    rintro x y ⟨n, hn, hk, hr⟩
    obtain ⟨m, hm, hkind, _, hguard, _, hinputs⟩ := hfloat x n hn hk
    rcases hr with ⟨hphi, hin⟩ | hg
    · exact ⟨m, hm, hkind ▸ hk, Or.inl ⟨hkind ▸ hphi, hinputs hphi ▸ hin⟩⟩
    · exact ⟨m, hm, hkind ▸ hk, Or.inr (hguard ▸ hg)⟩
  have hguard : ∀ q n, h.get? q = some n → n.kind.isGuard = true → ∃ m, g.get? q = some m ∧ m.kind.isGuard = true := by
    intro q n hn hk
    obtain ⟨m, hm, hkind, _⟩ := hfloat q n hn (Kind.isControl_of_isGuard hk)
    exact ⟨m, hm, hkind ▸ hk⟩
  refine ⟨C.shaped H, fun x n hn hk => ?_, Nat.le_trans hbase C.capacity, fun x n hn => ?_, fun c n hn hk => ?_,
    fun x n hn hk => ?_, fun q n hn hk => ?_, fun c s hs => ?_, fun x y hr => Y.above x y (hrelies x y hr),
    fun p n k i x s hp hk ht hx hs => ?_, fun x hx => Y.acyclic x (Relation.TransGen.mono hrelies x x hx),
    fun q r n m hq hk hr hk' hpos hrel => ?_⟩
  · obtain ⟨m, hm, hkind, _, _, hsucc, _⟩ := hfloat x n hn hk
    exact hsucc.trans (Y.loose x m hm (hkind ▸ hk))
  · by_cases hlt : x < g.capacity
    · obtain ⟨m, hm, _, hcontrol, hguard, _⟩ := hsort x n hn hlt
      rw [hcontrol, hguard]
      exact Y.protects x m hm
    · have hge := Nat.not_lt.mp hlt
      obtain ⟨reason, he, _⟩ := C.fresh x n hn hge
      exact iff_of_true (Or.inl (by rw [he]; rfl)) (L.protects_new x (Nat.le_trans hbase hge))
  · by_cases hlt : c < g.capacity
    · obtain ⟨m, hm, _, hcontrol, _⟩ := hsort c n hn hlt
      exact Y.control c m hm (hcontrol ▸ hk)
    · exact L.pos_new c (Nat.le_trans hbase (Nat.not_lt.mp hlt))
  · obtain ⟨m, hm, hkind, hanchor, _⟩ := hfloat x n hn (hk.elim Kind.isControl_of_isGuard fun hk => by rw [hk]; rfl)
    rw [hanchor]
    exact Y.anchor x m hm (hkind ▸ hk)
  · obtain ⟨m, hm, hkm⟩ := hguard q n hn hk
    have hlt := Nat.lt_of_lt_of_le (Y.anchor q m hm (Or.inl hkm)).2 hbase
    obtain ⟨hself, hprotects, hanchor⟩ := Y.post q m hm hkm
    refine ⟨hself, hprotects, fun k hk' => ?_⟩
    obtain ⟨l, hl, _, _, _, hpost⟩ := hsort _ k hk' hlt
    exact hpost (hanchor l hl)
  · by_cases hlt : s < g.capacity
    · exact Y.step c s ((C.subFlow H).step hs hlt)
    · have hge := Nat.not_lt.mp hlt
      have hc : c < g.capacity := by
        by_contra hc
        obtain ⟨n, hn, _, _, hmem, _⟩ := hs
        obtain ⟨_, _, hnil, _⟩ := C.fresh c n hn (Nat.not_lt.mp hc)
        simp [hnil] at hmem
      exact L.rank_new c s (Nat.le_trans hbase hge) (Nat.lt_of_lt_of_le hc hge)
  · obtain ⟨m, hm, hkind, hanchor, _⟩ := hfloat p n hp (by rw [hk]; rfl)
    obtain ⟨ha, hlt⟩ := Y.anchor p m hm (Or.inr (hkind ▸ hk))
    obtain ⟨l, hl, _⟩ := C.node ht (Nat.lt_of_lt_of_le hlt hbase)
    obtain ⟨m', j, hm', hk', _, hx', hs'⟩ := C.entry H hp hk (hanchor.trans ha) ht hl hx hs
    exact Y.entry p m' l j x s hm' hk' hl hx' hs'
  · obtain ⟨n', hq', hkq⟩ := hguard q n hq hk
    obtain ⟨m', hr', hkr⟩ := hguard r m hr hk'
    exact Y.apart q r n' m' hq' hkq hr' hkr hpos (Relation.TransGen.mono hrelies q r hrel)

/-- Nodes keep their anchors, their control edges and the parts they play. Floating nodes may be gone, and
what the others are computed from and protected by may be another matter. -/
structure Recast (g h : Graph) : Prop where
  ways : SameWays g h
  node : ∀ x n, h.get? x = some n → ∃ m, g.get? x = some m ∧ n.kind.isGuard = m.kind.isGuard ∧
    (n.kind = .phi ↔ m.kind = .phi) ∧ (m.kind.isAnchor = true → n.kind.isAnchor = true) ∧ n.anchor = m.anchor ∧
    n.successors = m.successors ∧ n.predecessors = m.predecessors

/-- A graph that is recast keeps to its layers if what it relies on does. -/
theorem Layered.recast (Y : g.Layered L) (R : Recast g h) (habove : ∀ x y, h.Relies x y → L.Above y x)
    (hentry : ∀ p n m (i : Nat) x, h.get? p = some n → n.kind = .phi → g.get? p = some m → n.inputs[i]? = some x →
      ∃ y, m.inputs[i]? = some y ∧ L.rank (L.pos x) ≤ L.rank (L.pos y))
    (hacyclic : ∀ x, ¬Relation.TransGen h.Relies x x)
    (hapart : ∀ q r n m, g.get? q = some n → n.kind.isGuard = true → g.get? r = some m → m.kind.isGuard = true →
      L.pos q = L.pos r → ¬Relation.TransGen h.Relies q r) : h.Layered L := by
  have hsort : ∀ x n m, h.get? x = some n → g.get? x = some m → m.kind.isControl = n.kind.isControl := by
    intro x n m hn hm
    obtain ⟨m', hm', hsort⟩ := R.ways.live x n hn
    cases hm.symm.trans hm'
    exact hsort
  refine ⟨R.ways.shaped Y.shaped, fun x n hn hk => ?_, R.ways.capacity ▸ Y.capacity, fun x n hn => ?_, fun c n hn hk => ?_,
    fun x n hn hk => ?_, fun q n hn hk => ?_, fun c s hs => Y.step c s ((R.ways.step_iff Y.shaped).mp hs), habove,
    fun p n k i x s hp hk ht hx hs => ?_, hacyclic, fun q r n m hq hk hr hk' hpos => ?_⟩
  · obtain ⟨m, hm, _, _, _, _, hsucc, _⟩ := R.node x n hn
    exact hsucc.trans (Y.loose x m hm (hsort x n m hn hm ▸ hk))
  · obtain ⟨m, hm, hguard, _⟩ := R.node x n hn
    rw [hguard, ← hsort x n m hn hm]
    exact Y.protects x m hm
  · obtain ⟨m, hm, _⟩ := R.node c n hn
    exact Y.control c m hm (hsort c n m hn hm ▸ hk)
  · obtain ⟨m, hm, hguard, hphi, _, hanchor, _⟩ := R.node x n hn
    rw [hanchor]
    exact Y.anchor x m hm (hk.imp (fun hk => hguard ▸ hk) hphi.mp)
  · obtain ⟨m, hm, hguard, _⟩ := R.node q n hn
    obtain ⟨hself, hprotects, hanchor⟩ := Y.post q m hm (hguard ▸ hk)
    refine ⟨hself, hprotects, fun k hk' => ?_⟩
    obtain ⟨l, hl, _, _, hpost, _⟩ := R.node _ k hk'
    exact hpost (hanchor l hl)
  · obtain ⟨m, hm, _, hphi, _⟩ := R.node p n hp
    obtain ⟨l, hl, _, _, _, _, _, hpred⟩ := R.node _ k ht
    obtain ⟨y, hy, hle⟩ := hentry p n m i x hp hk hm hx
    exact Nat.le_trans hle (Y.entry p m l i y s hm (hphi.mp hk) hl hy (hpred ▸ hs))
  · obtain ⟨n', hq', hguard, _⟩ := R.node q n hq
    obtain ⟨m', hr', hguard', _⟩ := R.node r m hr
    exact hapart q r n' m' hq' (hguard ▸ hk) hr' (hguard' ▸ hk') hpos

/-- Relying on less keeps to the layers. -/
theorem Layered.lessen (Y : g.Layered L) (R : Recast g h) (hrelies : ∀ x y, h.Relies x y → g.Relies x y)
    (hphi : ∀ p n m, h.get? p = some n → n.kind = .phi → g.get? p = some m → n.inputs = m.inputs) : h.Layered L := by
  refine Y.recast R (fun x y hr => Y.above x y (hrelies x y hr)) (fun p n m i x hn hk hm hx => ?_)
    (fun x hx => Y.acyclic x (Relation.TransGen.mono hrelies x x hx)) fun q r n m hq hk hr hk' hpos hrel => ?_
  · exact ⟨x, hphi p n m hn hk hm ▸ hx, Nat.le_refl _⟩
  · exact Y.apart q r n m hq hk hr hk' hpos (Relation.TransGen.mono hrelies q r hrel)

/-- Relying on `new` instead of `old` keeps to the layers if `new` stands no lower and does not rely on `old`. -/
theorem Layered.turn (Y : g.Layered L) (R : Recast g h) {old new : NodeId}
    (hturn : ∀ x y, h.Relies x y → g.Relies x y ∨ g.Relies x old ∧ y = new)
    (hphi : ∀ p n m (i : Nat) x, h.get? p = some n → n.kind = .phi → g.get? p = some m → n.inputs[i]? = some x →
      m.inputs[i]? = some x ∨ m.inputs[i]? = some old ∧ x = new) (hup : L.Above new old)
    (hno : ¬Relation.TransGen g.Relies new old)
    (hold : L.pos new = L.pos old → ∃ m, g.get? old = some m ∧ m.kind.isGuard = true) : h.Layered L := by
  refine Y.recast R (fun x y hr => ?_) (fun p n m i x hn hk hm hx => ?_) (fun x hx => ?_)
    fun q r n m hq hk hr hk' hpos hrel => ?_
  · rcases hturn x y hr with hr | ⟨hr, rfl⟩
    · exact Y.above x y hr
    · exact hup.trans (Y.above x old hr)
  · rcases hphi p n m i x hn hk hm hx with hx | ⟨hx, rfl⟩
    · exact ⟨x, hx, Nat.le_refl _⟩
    · exact ⟨old, hx, hup.rank_le⟩
  · rcases transGen_turned hturn hx with hx | ⟨hx, rfl | hnew⟩
    · exact Y.acyclic x hx
    · exact hno hx
    · exact hno (hnew.trans hx)
  · rcases transGen_turned hturn hrel with hrel | ⟨hqo, hnr⟩
    · exact Y.apart q r n m hq hk hr hk' hpos hrel
    · -- the path stays at one position, so `old` is a guard there
      have hqold := Layering.above_of_transGen Y.above hqo
      have hnewr : L.Above r new := by
        rcases hnr with rfl | hnr
        · exact Or.inl rfl
        · exact Layering.above_of_transGen Y.above hnr
      have hle : L.rank (L.pos q) ≤ L.rank (L.pos r) := Nat.le_of_eq (congrArg L.rank hpos)
      have hsame := hup.pos_eq (Nat.le_trans hqold.rank_le (Nat.le_trans hle hnewr.rank_le))
      obtain ⟨o, ho, hko⟩ := hold hsame
      have hat := hqold.pos_eq (Nat.le_trans hle (Nat.le_trans hnewr.rank_le hup.rank_le))
      exact Y.apart q old n o hq hk ho hko hat.symm hqo

/-- A guard may take over what another one at its position relies on. -/
theorem Layered.lend (Y : g.Layered L) (R : Recast g h) {carrier weaker : NodeId} {n m : Node}
    (hc : g.get? carrier = some n) (hk : n.kind.isGuard = true) (hw : g.get? weaker = some m)
    (hk' : m.kind.isGuard = true) (hpos : L.pos carrier = L.pos weaker)
    (hlend : ∀ x y, h.Relies x y → g.Relies x y ∨ x = weaker ∧ g.Relies carrier y)
    (hphi : ∀ p n m, h.get? p = some n → n.kind = .phi → g.get? p = some m → n.inputs = m.inputs) : h.Layered L := by
  have hnot : ¬Relation.TransGen g.Relies carrier weaker := Y.apart carrier weaker n m hc hk hw hk' hpos
  refine Y.recast R (fun x y hr => ?_) (fun p n m i x hn hk hm hx => ?_) (fun x hx => ?_)
    fun q r l o hq hkq hr hkr hqr hrel => ?_
  · rcases hlend x y hr with hold | ⟨rfl, hold⟩
    · exact Y.above x y hold
    · exact (Y.above carrier y hold).trans (Or.inl hpos)
  · exact ⟨x, hphi p n m hn hk hm ▸ hx, Nat.le_refl _⟩
  · rcases transGen_lent hlend hx with hx | ⟨hxw, hcx⟩
    · exact Y.acyclic x hx
    · exact hnot (hxw.elim (fun he => he ▸ hcx) hcx.trans)
  · rcases transGen_lent hlend hrel with hrel | ⟨hqw, hcr⟩
    · exact Y.apart q r l o hq hkq hr hkr hqr hrel
    · refine Y.apart carrier r n o hc hk hr hkr ?_ hcr
      rcases hqw with rfl | hqw
      · exact hpos.trans hqr
      · have hwq := Layering.above_of_transGen Y.above hqw
        have hrc := Layering.above_of_transGen Y.above hcr
        refine (hrc.pos_eq ?_).symm
        rw [hpos, ← hqr]
        exact hwq.rank_le

/-- The layers of a graph whose nodes have places: nodes that are added later are ranked behind all others. -/
def layering (g : Graph) (place : NodeId → NodeId) (rank : NodeId → Nat) : Layering where
  pos x := if x < g.capacity then place x else x
  rank c := if c < g.capacity then rank c else ((List.range g.capacity).map rank).max?.getD 0 + 1 + c
  protects x := (∃ n, g.get? x = some n ∧ (n.kind.isControl = true ∨ n.kind.isGuard = true)) ∨ g.capacity ≤ x
  base := g.capacity
  pos_new c hc := if_neg (Nat.not_lt.mpr hc)
  rank_new c s hs hcs := by
    rw [if_neg (Nat.not_lt.mpr hs)]
    split
    next hc =>
      have hle := List.le_max?_getD_of_mem (List.mem_map_of_mem (f := rank) (List.mem_range.mpr hc)) (k := 0)
      omega
    next => omega
  protects_new c hc := Or.inr hc

section Layering

variable {place : NodeId → NodeId} {rank : NodeId → Nat} {x : NodeId} {n : Node}

theorem layering_pos (hn : g.get? x = some n) : (g.layering place rank).pos x = place x :=
  if_pos (lt_capacity hn)

theorem layering_protects_iff (hn : g.get? x = some n) :
    n.kind.isControl = true ∨ n.kind.isGuard = true ↔ (g.layering place rank).protects x := by
  refine ⟨fun hk => Or.inl ⟨n, hn, hk⟩, ?_⟩
  rintro (⟨m, hm, hk⟩ | hge)
  · cases hn.symm.trans hm
    exact hk
  · exact absurd (lt_capacity hn) (Nat.not_lt.mpr hge)

theorem layering_rank {c : NodeId} (hc : c < g.capacity) : (g.layering place rank).rank c = rank c :=
  if_pos hc

theorem layering_rank_of_dom (hrank : ∀ c s, g.Step c s → rank c < rank s) {a b : NodeId} (hd : g.Dom a b) :
    a = b ∨ (g.layering place rank).rank a < (g.layering place rank).rank b := by
  rw [layering_rank hd.reach_left.lt, layering_rank hd.reach.lt]
  exact Dom.rank hrank hd

end Layering

/-- A chain of reliance either computes all along, or comes to something that protects. -/
theorem relies_cases {x y : NodeId} (h : Relation.TransGen g.Relies x y) : Relation.TransGen g.Computes x y ∨
    ∃ z q n, Relation.ReflTransGen g.Relies x z ∧ g.get? z = some n ∧ n.guard = some q ∧ g.Relies z q ∧
      Relation.ReflTransGen g.Relies q y := by
  have hcases : ∀ {a b}, g.Relies a b → g.Computes a b ∨ ∃ n, g.get? a = some n ∧ n.guard = some b := by
    rintro a b ⟨n, hn, hk, ⟨hphi, hin⟩ | hg⟩
    · exact Or.inl ⟨n, hn, hk, hphi, hin⟩
    · exact Or.inr ⟨n, hn, hg⟩
  induction h with
  | single hs =>
    rcases hcases hs with hc | ⟨n, hn, hg⟩
    · exact Or.inl (.single hc)
    · exact Or.inr ⟨x, _, n, .refl, hn, hg, hs, .refl⟩
  | @tail y w hxy hs ih =>
    rcases ih with hc | ⟨z, q, n, hxz, hn, hg, hz, hqy⟩
    · rcases hcases hs with hc' | ⟨n, hn, hg⟩
      · exact Or.inl (hc.tail hc')
      · exact Or.inr ⟨y, w, n, hxy.to_reflTransGen, hn, hg, hs, .refl⟩
    · exact Or.inr ⟨z, q, n, hxz, hn, hg, hz, hqy.tail hs⟩

namespace InOrder

variable (I : g.InOrder)

include I

/-- In a graph in order nothing relies on itself. -/
theorem relies_acyclic (x : NodeId) : ¬Relation.TransGen g.Relies x x := by
  intro h
  rcases relies_cases h with hc | ⟨z, q, n, hxz, hn, hg, hz, hqx⟩
  · exact I.acyclic x hc
  · have hself : Relation.TransGen g.Relies q q := .tail' (hqx.trans hxz) hz
    obtain ⟨m, hm⟩ := I.live z n q hn (Node.mem_dependencies.mpr (Or.inr (Or.inr (Or.inl hg))))
    rcases I.formed.edge z n q m hn (Or.inr (Or.inl hg)) hm with hc | hk
    · obtain ⟨_, ⟨m', hm', hfloat, _⟩, _⟩ := Relation.TransGen.head'_iff.mp hself
      cases hm.symm.trans hm'
      simp [hc] at hfloat
    · obtain ⟨a, ha, _⟩ := I.formed.guard q m hm hk
      exact Nat.lt_irrefl q (I.ordered q q a m m hm hk ha hm hk ha hself)

theorem anchor_eq_place {place : NodeId → NodeId} (P : g.Placed place g.Dom) {x : NodeId} {n : Node}
    (hn : g.get? x = some n) (hk : n.kind.isGuard = true ∨ n.kind = .phi) : n.anchor = some (place x) := by
  have hanchor : ∃ a, n.anchor = some a := by
    rcases hk with hk | hk
    · exact (I.formed.guard x n hn hk).imp fun _ => And.left
    · obtain ⟨a, _, ha, _⟩ := I.formed.phi x n hn hk
      exact ⟨a, ha⟩
  obtain ⟨a, ha⟩ := hanchor
  rw [P.anchor x n a hn hk ha]
  exact ha

/-- A graph in order has layers, if no guard relies on another one at its anchor. -/
theorem exists_layered (hapart : ∀ q r a n m, g.get? q = some n → n.kind.isGuard = true → n.anchor = some a →
    g.get? r = some m → m.kind.isGuard = true → m.anchor = some a → ¬Relation.TransGen g.Relies q r) :
    ∃ L, g.Layered L := by
  have F := I.formed
  obtain ⟨place, P, hplace⟩ := I.placed
  obtain ⟨rank, hrank⟩ := F.shaped.ranked
  refine ⟨g.layering place rank, F.shaped, F.loose, Nat.le_refl _, fun x n hn => layering_protects_iff hn, fun c n hn hk => ?_,
    fun x n hn hk => ?_, fun q n hn hk => ?_, fun c s hs => ?_, fun x y hr => ?_, fun p n k i x s hp hk hm hx hs => ?_,
    I.relies_acyclic, fun q r n m hq hkq hr hkr hqr => ?_⟩
  · rw [layering_pos hn]
    exact P.control c n hn hk
  · rw [layering_pos hn]
    have ha := I.anchor_eq_place P hn hk
    exact ⟨ha, F.inside x n _ hn (Node.mem_dependencies.mpr (Or.inr (Or.inl ha)))⟩
  · rw [layering_pos hn]
    have ha := I.anchor_eq_place P hn (Or.inl hk)
    obtain ⟨m, hm⟩ := I.live q n _ hn (Node.mem_dependencies.mpr (Or.inr (Or.inl ha)))
    obtain ⟨a, ha', hanchored⟩ := F.guard q n hn hk
    cases ha.symm.trans ha'
    have hc := Kind.isControl_of_isAnchor (hanchored m hm)
    exact ⟨(layering_pos hm).trans (P.control _ m hm hc), (layering_protects_iff hm).mp (Or.inl hc), hanchored⟩
  · obtain ⟨n, hn, _⟩ := id hs
    rw [layering_rank (lt_capacity hn), layering_rank hs.lt]
    exact hrank c s hs
  · obtain ⟨n, hn, _, hr⟩ := hr
    have hrests : n.RestsOn y := hr.imp_right fun hg => Or.inr (Or.inl hg)
    obtain ⟨m, hm⟩ := I.live x n y hn hrests.mem
    unfold Layering.Above
    rw [layering_pos hn, layering_pos hm]
    exact layering_rank_of_dom hrank (P.rests x n y hn hrests)
  · rw [layering_pos hp] at hm
    obtain ⟨m, hm'⟩ := I.live p n x hp (Node.mem_dependencies.mpr (Or.inl (List.mem_of_getElem? hx)))
    rw [layering_pos hm']
    rcases layering_rank_of_dom hrank (P.entry p n _ k i x s hp hk (I.anchor_eq_place P hp (Or.inr hk)) hm hx hs) with he | hlt
    · exact Nat.le_of_eq (congrArg _ he)
    · exact Nat.le_of_lt hlt
  · rw [layering_pos hq, layering_pos hr] at hqr
    exact hapart q r _ n m hq hkq (I.anchor_eq_place P hq (Or.inl hkq)) hr hkr (hqr ▸ I.anchor_eq_place P hr (Or.inl hkr))

end InOrder

end Graph

end GuardElision
