import GuardElision.Proofs.Cleanup.Collapse
import GuardElision.Proofs.Elimination.Transitions
import GuardElision.Proofs.Layers.Basic

namespace GuardElision

namespace Graph

variable {g h : Graph} {L : Layering}

theorem Recast.of_map {f : NodeId → Node → Node} (hcap : h.capacity = g.capacity)
    (hback : ∀ x n, h.get? x = some n → ∃ m, g.get? x = some m ∧ n = f x m)
    (halive : ∀ c m, g.get? c = some m → m.kind.isControl = true → h.get? c = some (f c m))
    (hf : ∀ x m, g.get? x = some m → (f x m).kind.isGuard = m.kind.isGuard ∧
      m.kind.isControl = (f x m).kind.isControl ∧ ((f x m).kind = .phi ↔ m.kind = .phi) ∧
      (m.kind.isControl = true → (f x m).kind = m.kind) ∧ (f x m).anchor = m.anchor ∧
      (f x m).successors = m.successors ∧ (f x m).predecessors = m.predecessors) : Recast g h := by
  refine ⟨⟨hcap, fun x n hn => ?_, fun c m hm hk => ?_⟩, fun x n hn => ?_⟩
  · obtain ⟨m, hm, rfl⟩ := hback x n hn
    exact ⟨m, hm, (hf x m hm).2.1⟩
  · obtain ⟨_, _, _, hkind, _, hsucc, hpred⟩ := hf c m hm
    exact ⟨f c m, halive c m hm hk, hsucc, hpred, Or.inl (hkind hk)⟩
  · obtain ⟨m, hm, rfl⟩ := hback x n hn
    obtain ⟨hguard, _, hphi, hkind, hanchor, hsucc, hpred⟩ := hf x m hm
    refine ⟨m, hm, hguard, hphi, fun ha => ?_, hanchor, hsucc, hpred⟩
    rw [hkind (Kind.isControl_of_isAnchor ha)]
    exact ha

theorem Recast.delete {id : NodeId} (hid : ∀ n, g.get? id = some n → n.kind.isControl = false) :
    Recast g (g.delete id) := by
  refine .of_map (f := fun _ m => m) (capacity_delete ..) (fun x n hn => ⟨n, get?_of_delete hn, rfl⟩)
    (fun c m hm hk => ?_) fun _ _ _ => ⟨rfl, rfl, Iff.rfl, fun _ => rfl, rfl, rfl, rfl⟩
  rw [get?_delete, if_neg, hm]
  rintro rfl
  rw [hid m hm] at hk
  cases hk

theorem Layered.delete (Y : g.Layered L) {id : NodeId} (hid : ∀ n, g.get? id = some n → n.kind.isControl = false) :
    (g.delete id).Layered L := by
  refine Y.lessen (.delete hid) (fun x y hr => ?_) fun p n m hn _ hm => ?_
  · obtain ⟨n, hn, hr⟩ := hr
    exact ⟨n, get?_of_delete hn, hr⟩
  · cases hm.symm.trans (get?_of_delete hn)
    rfl

section SetKind

variable {id : NodeId} {kind : Kind} {inputs : List NodeId}

theorem of_setKind {x : NodeId} {n : Node} (hn : (g.setKind id kind inputs).get? x = some n) :
    ∃ m, g.get? x = some m ∧ n = if x = id then { m with kind, inputs } else m := by
  rw [get?_setKind] at hn
  obtain ⟨m, hm, rfl⟩ := Option.map_eq_some_iff.mp hn
  exact ⟨m, hm, rfl⟩

theorem Recast.setKind (hid : ∀ n, g.get? id = some n → n.kind.isControl = false ∧ n.kind ≠ .phi ∧
      kind.isGuard = n.kind.isGuard) (hkind : kind.isControl = false) (hphi : kind ≠ .phi) :
    Recast g (g.setKind id kind inputs) := by
  refine .of_map (f := fun x m => if x = id then { m with kind, inputs } else m) (capacity_modify ..)
    (fun _ _ => of_setKind) (fun c m hm _ => by rw [get?_setKind, hm]; rfl) fun x m hm => ?_
  by_cases hx : x = id
  · obtain ⟨hfloat, hne, hguard⟩ := hid m (hx ▸ hm)
    rw [if_pos hx]
    exact ⟨hguard, hfloat.trans hkind.symm, iff_of_false hphi hne, by simp [hfloat], rfl, rfl, rfl⟩
  · rw [if_neg hx]
    exact ⟨rfl, rfl, Iff.rfl, fun _ => rfl, rfl, rfl, rfl⟩

theorem inputs_setKind (hphi : kind ≠ .phi) {p : NodeId} {n m : Node}
    (hn : (g.setKind id kind inputs).get? p = some n) (hk : n.kind = .phi) (hm : g.get? p = some m) :
    n.inputs = m.inputs := by
  obtain ⟨m', hm', rfl⟩ := of_setKind hn
  cases hm.symm.trans hm'
  by_cases hp : p = id
  · rw [if_pos hp] at hk
    exact absurd hk hphi
  · rw [if_neg hp]

theorem relies_setKind (hid : ∀ n, g.get? id = some n → n.kind.isControl = false) {x y : NodeId}
    (hr : (g.setKind id kind inputs).Relies x y) : g.Relies x y ∨ x = id ∧ y ∈ inputs := by
  obtain ⟨n, hn, hk, hr⟩ := hr
  obtain ⟨m, hm, rfl⟩ := of_setKind hn
  by_cases hx : x = id
  · rw [if_pos hx] at hr
    rcases hr with ⟨_, hin⟩ | hg
    · exact Or.inr ⟨hx, hin⟩
    · exact Or.inl ⟨m, hm, hid m (hx ▸ hm), Or.inr hg⟩
  · rw [if_neg hx] at hk hr
    exact Or.inl ⟨m, hm, hk, hr⟩

end SetKind

section Decide

variable {id : NodeId} {value : Bool} (hlogic : ∀ n, g.get? id = some n → n.kind.isLogic = true)

include hlogic

theorem Recast.decide : Recast g (g.setKind id (.logicConstant value) []) := by
  refine .setKind (fun n hn => ?_) rfl (by simp)
  have hk := hlogic n hn
  cases he : n.kind <;> simp_all [Kind.isLogic, Kind.isControl, Kind.isGuard]

theorem Layered.decide (Y : g.Layered L) : (g.setKind id (.logicConstant value) []).Layered L := by
  refine Y.lessen (.decide hlogic) (fun x y hr => ?_) fun p n m => inputs_setKind (by simp)
  have hfloat : ∀ n, g.get? id = some n → n.kind.isControl = false := by
    intro n hn
    have hk := hlogic n hn
    cases he : n.kind <;> simp_all [Kind.isLogic, Kind.isControl]
  rcases relies_setKind hfloat hr with hr | ⟨_, hy⟩
  · exact hr
  · simp at hy

end Decide

theorem Layered.flatten (Y : g.Layered L) {merge memory source : NodeId} {k : Node} (hm : g.get? merge = some k)
    (hmerge : k.kind.isMerge = true) (hpred : k.predecessors = [source]) (hend : g.kind? source ≠ some .loopEnd) :
    ((g.replaceMemory merge memory).modify merge ({ · with kind := .begin })).Layered L := by
  have hkind : ∀ x m, g.get? x = some m → (if x = merge then Kind.begin else m.kind) = m.kind ∨
      (if x = merge then Kind.begin else m.kind) = .begin ∧ m.kind.isMerge = true := by
    intro x m hx
    by_cases he : x = merge
    · subst he
      cases hm.symm.trans hx
      exact Or.inr ⟨if_pos rfl, hmerge⟩
    · exact Or.inl (if_neg he)
  have hparts : ∀ x m, g.get? x = some m →
      (if x = merge then Kind.begin else m.kind).isGuard = m.kind.isGuard ∧
      ((if x = merge then Kind.begin else m.kind) = .phi ↔ m.kind = .phi) ∧
      (m.kind.isAnchor = true → (if x = merge then Kind.begin else m.kind).isAnchor = true) := by
    intro x m hx
    rcases hkind x m hx with he | ⟨he, hmerge⟩
    · rw [he]
      exact ⟨rfl, Iff.rfl, id⟩
    · rw [he]
      cases hk : m.kind <;> simp_all [Kind.isMerge, Kind.isGuard, Kind.isAnchor]
  refine Y.lessen ⟨.flatten hm hmerge hpred hend, fun x n hn => ?_⟩ (fun x y hr => ?_) fun p n m hn _ hm => ?_
  · obtain ⟨m, hx, rfl⟩ := get?_flatten.mp hn
    obtain ⟨hguard, hphi, hpost⟩ := hparts x m hx
    exact ⟨m, hx, hguard, hphi, hpost, rfl, rfl, rfl⟩
  · obtain ⟨n, hn, hk, hr⟩ := hr
    obtain ⟨m, hx, rfl⟩ := get?_flatten.mp hn
    rcases hkind x m hx with he | ⟨he, _⟩
    · rw [he] at hk hr
      exact ⟨m, hx, hk, hr⟩
    · rw [he] at hk
      cases hk
  · obtain ⟨m', hx, rfl⟩ := get?_flatten.mp hn
    cases hm.symm.trans hx
    rfl

section ReplaceGuard

variable {q new : NodeId} {n : Node}

theorem Recast.dropGuard (hq : ∀ n, g.get? q = some n → n.kind.isControl = false) :
    Recast g ((g.replaceGuard q (some new)).delete q) := by
  refine .of_map (f := fun _ m => { m with guard := if m.guard = some q then some new else m.guard })
    ((capacity_delete ..).trans (capacity_mapLive ..)) (fun x n hn => (get?_dropGuard_iff.mp hn).2) (fun c m hm hk => ?_)
    fun _ _ _ => ⟨rfl, rfl, Iff.rfl, fun _ => rfl, rfl, rfl, rfl⟩
  refine get?_dropGuard_iff.mpr ⟨?_, m, hm, rfl⟩
  rintro rfl
  rw [hq m hm] at hk
  cases hk

theorem relies_dropGuard {x y : NodeId} (hr : ((g.replaceGuard q (some new)).delete q).Relies x y) :
    g.Relies x y ∨ g.Relies x q ∧ y = new := by
  obtain ⟨n, hn, hk, hr⟩ := hr
  obtain ⟨_, m, hm, rfl⟩ := get?_dropGuard_iff.mp hn
  rcases hr with hin | hg
  · exact Or.inl ⟨m, hm, hk, Or.inl hin⟩
  · dsimp only at hg
    split at hg
    next he => exact Or.inr ⟨⟨m, hm, hk, Or.inr he⟩, (Option.some.inj hg).symm⟩
    next => exact Or.inl ⟨m, hm, hk, Or.inr hg⟩

/-- Something that can protect does not rely on a guard below it, nor on another one at its position. -/
theorem Layered.not_relies (Y : g.Layered L) (hq : g.get? q = some n) (hk : n.kind.isGuard = true) (hup : L.Above new q)
    (hnew : L.protects new) : ¬Relation.TransGen g.Relies new q := by
  intro hpath
  have hpos := hup.pos_eq (Layering.above_of_transGen Y.above hpath).rank_le
  obtain ⟨_, ⟨m, hm, hfloat, _⟩, _⟩ := Relation.TransGen.head'_iff.mp hpath
  rcases (Y.protects new m hm).mpr hnew with hc | hg
  · rw [hc] at hfloat
    cases hfloat
  · exact Y.apart new q m n hm hg hq hk hpos hpath

theorem Layered.dropGuard (Y : g.Layered L) (hq : g.get? q = some n) (hk : n.kind.isGuard = true) (hup : L.Above new q)
    (hnew : L.protects new) : ((g.replaceGuard q (some new)).delete q).Layered L := by
  have R : Recast g ((g.replaceGuard q (some new)).delete q) := .dropGuard fun m hm => by
    cases hq.symm.trans hm
    exact Kind.isControl_of_isGuard hk
  refine Y.turn R (fun _ _ => relies_dropGuard) (fun p l m i x hl _ hm hx => Or.inl ?_) hup
    (Y.not_relies hq hk hup hnew) fun _ => ⟨n, hq, hk⟩
  obtain ⟨_, m', hm', rfl⟩ := get?_dropGuard_iff.mp hl
  cases hm.symm.trans hm'
  exact hx

end ReplaceGuard

section MoveTest

variable {carrier weaker : NodeId} {n m : Node} (hc : g.get? carrier = some n) (hk : n.kind.isGuard = true)
  (hw : g.get? weaker = some m) (hk' : m.kind.isGuard = true) (hmove : Walk.moveTest g carrier weaker = .ok h)

include hc hk hw hk' hmove

theorem Recast.moveTest : Recast g h := by
  obtain ⟨n', hn', _, hcap, hget⟩ := moveTest_ok hmove
  cases hc.symm.trans hn'
  have hphi : ∀ k : Kind, k.isGuard = true → k ≠ .phi := by
    rintro _ hg rfl
    cases hg
  refine .of_map (f := fun j m =>
    { m with
      kind := if j = weaker then n.kind else m.kind
      inputs := if j = weaker then n.inputs else m.inputs
      guard := if m.guard = some carrier then some weaker else m.guard }) hcap (fun x l hl => ?_) (fun c l hl hctl => ?_)
    fun x l hl => ?_
  · rw [hget] at hl
    split at hl
    next => cases hl
    next =>
      obtain ⟨l', hl', rfl⟩ := Option.map_eq_some_iff.mp hl
      exact ⟨l', hl', rfl⟩
  · rw [hget, if_neg, hl, Option.map_some]
    rintro rfl
    cases hc.symm.trans hl
    rw [Kind.isControl_of_isGuard hk] at hctl
    cases hctl
  · dsimp only
    by_cases hx : x = weaker
    · subst hx
      cases hw.symm.trans hl
      rw [if_pos rfl, Kind.isControl_of_isGuard hk, Kind.isControl_of_isGuard hk']
      exact ⟨hk.trans hk'.symm, rfl, iff_of_false (hphi _ hk) (hphi _ hk'), by simp, rfl, rfl, rfl⟩
    · rw [if_neg hx]
      exact ⟨rfl, rfl, Iff.rfl, fun _ => rfl, rfl, rfl, rfl⟩

theorem Layered.moveTest (Y : g.Layered L) (hne : carrier ≠ weaker) (hpos : L.pos carrier = L.pos weaker) :
    h.Layered L := by
  obtain ⟨n', hn', hmove⟩ := except_bind_ok.mp hmove
  cases hc.symm.trans (node_eq_ok_iff.mp hn')
  obtain rfl := Except.ok.inj hmove
  have hphi : ∀ k : Kind, k.isGuard = true → k ≠ .phi := by
    rintro _ hg rfl
    cases hg
  have hfloat : ∀ l, g.get? weaker = some l → l.kind.isControl = false := by
    intro l hl
    cases hw.symm.trans hl
    exact Kind.isControl_of_isGuard hk'
  have R : Recast g (g.setKind weaker n.kind n.inputs) := by
    refine .setKind (fun l hl => ?_) (Kind.isControl_of_isGuard hk) (hphi _ hk)
    cases hw.symm.trans hl
    exact ⟨hfloat m hw, hphi _ hk', hk.trans hk'.symm⟩
  have Y' : (g.setKind weaker n.kind n.inputs).Layered L := by
    refine Y.lend R hc hk hw hk' hpos (fun x y hr => ?_) fun p l o => inputs_setKind (hphi _ hk)
    refine (relies_setKind hfloat hr).imp_right fun hin => ⟨hin.1, n, hc, Kind.isControl_of_isGuard hk, Or.inl ?_⟩
    exact ⟨hphi _ hk, hin.2⟩
  have hc' : (g.setKind weaker n.kind n.inputs).get? carrier = some n := by
    rw [get?_setKind, hc, Option.map_some, if_neg hne]
  exact Y'.dropGuard hc' hk (Or.inl hpos.symm) ((Y.protects weaker m hw).mp (Or.inr hk'))

end MoveTest

theorem Recast.resolve {p v : NodeId} (hp : ∀ n, g.get? p = some n → n.kind.isControl = false) :
    Recast g ((g.replaceInput p v).delete p) := by
  refine .of_map (f := fun _ m => { m with inputs := m.inputs.map fun y => if y = p then v else y })
    ((capacity_delete ..).trans (capacity_mapLive ..)) (fun x n hn => (get?_resolve.mp hn).2) (fun c m hm hk => ?_)
    fun _ _ _ => ⟨rfl, rfl, Iff.rfl, fun _ => rfl, rfl, rfl, rfl⟩
  refine get?_resolve.mpr ⟨?_, m, hm, rfl⟩
  rintro rfl
  rw [hp m hm] at hk
  cases hk

theorem Layered.resolve (Y : g.Layered L) {p v source : NodeId} {n k : Node} (hp : g.get? p = some n)
    (hphi : n.kind = .phi) (hm : g.get? (L.pos p) = some k) (hpred : k.predecessors = [source])
    (hstep : g.Step source (L.pos p)) (hv : n.inputs.head? = some v) : ((g.replaceInput p v).delete p).Layered L := by
  have hentry := Y.entry p n k 0 v source hp hphi hm (by rw [← hv, List.head?_eq_getElem?]) (by rw [hpred]; rfl)
  have hlt := Nat.lt_of_le_of_lt hentry (Y.step _ _ hstep)
  have hinput : ∀ (m : Node) (i : Nat) x, (m.inputs.map fun y => if y = p then v else y)[i]? = some x →
      m.inputs[i]? = some x ∨ m.inputs[i]? = some p ∧ x = v := by
    intro m i x hx
    rw [List.getElem?_map] at hx
    obtain ⟨z, hz, rfl⟩ := Option.map_eq_some_iff.mp hx
    by_cases he : z = p
    · rw [if_pos he]
      exact Or.inr ⟨he ▸ hz, rfl⟩
    · rw [if_neg he]
      exact Or.inl hz
  have R : Recast g ((g.replaceInput p v).delete p) := .resolve fun l hl => by
    cases hp.symm.trans hl
    rw [hphi]
    rfl
  have hturn : ∀ x y, ((g.replaceInput p v).delete p).Relies x y → g.Relies x y ∨ g.Relies x p ∧ y = v := by
    rintro x y ⟨l, hl, hk, hr⟩
    obtain ⟨_, m, hm, rfl⟩ := get?_resolve.mp hl
    rcases hr with ⟨hne, hin⟩ | hg
    · obtain ⟨i, hi⟩ := List.mem_iff_getElem?.mp hin
      rcases hinput m i y hi with hold | ⟨hold, rfl⟩
      · exact Or.inl ⟨m, hm, hk, Or.inl ⟨hne, List.mem_of_getElem? hold⟩⟩
      · exact Or.inr ⟨⟨m, hm, hk, Or.inl ⟨hne, List.mem_of_getElem? hold⟩⟩, rfl⟩
    · exact Or.inl ⟨m, hm, hk, Or.inr hg⟩
  refine Y.turn R hturn (fun q l m i x hl _ hm hx => ?_) (Or.inr hlt) (fun hpath => ?_) fun hpos => ?_
  · obtain ⟨_, m', hm', rfl⟩ := get?_resolve.mp hl
    cases hm.symm.trans hm'
    exact hinput m i x hx
  · exact absurd hlt (Nat.not_lt.mpr (Layering.above_of_transGen Y.above hpath).rank_le)
  · rw [hpos] at hlt
    exact absurd hlt (Nat.lt_irrefl _)

end Graph

end GuardElision
