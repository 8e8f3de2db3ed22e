import GuardElision.Placement
import GuardElision.Proofs.Attempt
import GuardElision.Proofs.Graph.InOrder
import Mathlib.Data.Finset.Card

namespace GuardElision

namespace Placement

/-- The node stands at the given control node, or nowhere that control reaches. -/
inductive At (p : Placement) : NodeId → Option NodeId → Prop
  | control {id : NodeId} {n : Node} (hn : p.graph.get? id = some n) (hk : n.kind.standing = .control) :
    At p id (p.reachable? id)
  | anchored {id a : NodeId} {n : Node} (hn : p.graph.get? id = some n) (hk : n.kind.standing = .anchored)
    (ha : n.anchor = some a) : At p id (p.reachable? a)
  | leaf {id : NodeId} {n : Node} (hn : p.graph.get? id = some n) (hk : n.kind.standing = .leaf) :
    At p id (some Graph.start)
  | computed {id : NodeId} {n : Node} {own : List NodeId} {r : Option NodeId} (place : NodeId → NodeId)
    (hn : p.graph.get? id = some n) (hk : n.kind.standing = .computed) (hown : p.ownPositions id n = .ok own)
    (hins : ∀ i ∈ n.inputs, At p i (some (place i)))
    (hr : p.deepest? id (own ++ n.inputs.map place) = .ok r) : At p id r
  | unreached {id i : NodeId} {n : Node} {own before after : List NodeId} (place : NodeId → NodeId)
    (hn : p.graph.get? id = some n) (hk : n.kind.standing = .computed) (hown : p.ownPositions id n = .ok own)
    (hsplit : n.inputs = before ++ i :: after) (hbefore : ∀ j ∈ before, At p j (some (place j)))
    (hi : At p i none) : At p id none

variable {p : Placement} {id : NodeId} {n : Node} {r r' : Option NodeId} {memo memo' : Memo} {bound : Nat}

theorem At.exists_node (h : p.At id r) : ∃ n, p.graph.get? id = some n := by
  cases h <;> exact ⟨_, ‹_›⟩

theorem At.unique (h : p.At id r) (h' : p.At id r') : r = r' := by
  induction h generalizing r' with
  | control hn hk =>
    cases h' with
    | control => rfl
    | anchored hn' hk' | leaf hn' hk' | computed _ hn' hk' | unreached _ hn' hk' =>
      cases hn.symm.trans hn'
      cases hk.symm.trans hk'
  | anchored hn hk ha =>
    cases h' with
    | anchored hn' _ ha' =>
      cases hn.symm.trans hn'
      cases ha.symm.trans ha'
      rfl
    | control hn' hk' | leaf hn' hk' | computed _ hn' hk' | unreached _ hn' hk' =>
      cases hn.symm.trans hn'
      cases hk.symm.trans hk'
  | leaf hn hk =>
    cases h' with
    | leaf => rfl
    | control hn' hk' | anchored hn' hk' | computed _ hn' hk' | unreached _ hn' hk' =>
      cases hn.symm.trans hn'
      cases hk.symm.trans hk'
  | computed place hn hk hown hins hr ih =>
    cases h' with
    | computed place' hn' _ hown' hins' hr' =>
      cases hn.symm.trans hn'
      cases hown.symm.trans hown'
      have hplace : ∀ i ∈ _, place i = place' i := fun i hi => Option.some.inj (ih i hi (hins' i hi))
      rw [List.map_congr_left hplace, hr'] at hr
      exact (Except.ok.inj hr).symm
    | unreached _ hn' _ _ hsplit _ hi =>
      cases hn.symm.trans hn'
      exact absurd (ih _ (hsplit ▸ List.mem_append_right _ List.mem_cons_self) hi) (by simp)
    | control hn' hk' | anchored hn' hk' | leaf hn' hk' =>
      cases hn.symm.trans hn'
      cases hk.symm.trans hk'
  | unreached place hn hk hown hsplit hbefore hi _ ih =>
    cases h' with
    | computed place' hn' _ hown' hins' hr' =>
      cases hn.symm.trans hn'
      exact absurd (ih (hins' _ (hsplit ▸ List.mem_append_right _ List.mem_cons_self))) (by simp)
    | unreached => rfl
    | control hn' hk' | anchored hn' hk' | leaf hn' hk' =>
      cases hn.symm.trans hn'
      cases hk.symm.trans hk'

theorem At.of_computed {q : NodeId} (h : p.At id (some q)) (hn : p.graph.get? id = some n)
    (hk : n.kind.standing = .computed) :
    ∃ place own, p.ownPositions id n = .ok own ∧ (∀ i ∈ n.inputs, p.At i (some (place i))) ∧
      p.deepest? id (own ++ n.inputs.map place) = .ok (some q) := by
  generalize hq : some q = r at h
  cases h with
  | computed place hn' _ hown hins hr =>
    cases hn.symm.trans hn'
    exact ⟨place, _, hown, hins, hq ▸ hr⟩
  | unreached => cases hq
  | control hn' hk' | anchored hn' hk' | leaf hn' hk' =>
    cases hn.symm.trans hn'
    cases hk.symm.trans hk'

/-- Where a node stands, for a node that has a position. -/
noncomputable def spot (p : Placement) (id : NodeId) : NodeId :=
  open Classical in if h : ∃ q, p.At id (some q) then h.choose else Graph.start

theorem At.eq_spot {q : NodeId} (h : p.At id (some q)) : q = p.spot id := by
  have hex : ∃ q, p.At id (some q) := ⟨q, h⟩
  rw [spot, dif_pos hex]
  exact Option.some.inj (h.unique hex.choose_spec)

/-- Every position remembered is right. -/
def Sound (p : Placement) (memo : Memo) : Prop :=
  ∀ id r, memo.get? id = some r → p.At id r

theorem Sound.insert (h : p.Sound memo) (hr : p.At id r) : p.Sound (memo.insert id r) := by
  intro x s hx
  rw [IdMap.get?_insert] at hx
  split at hx
  next he =>
    cases hx
    exact he ▸ hr
  next => exact h x s hx

/-- One input more: its position is put behind those found. -/
def seek (p : Placement) (bound : Nat) (acc : Option (List NodeId)) (input : NodeId) :
    Search (Option (List NodeId)) :=
  match acc with
  | none => pure none
  | some found => do
    match ← p.position? bound input with
    | some q => pure (some (found ++ [q]))
    | none => pure none

/-- Once an input without a position is met, the others are not looked at. -/
theorem foldlM_seek_none (bound : Nat) (inputs : List NodeId) (memo : Memo) :
    inputs.foldlM (p.seek bound) none memo = .ok (none, memo) := by
  induction inputs with
  | nil => rfl
  | cons i rest ih => exact ih

theorem foldlM_seek_cons (bound : Nat) (i : NodeId) (rest found : List NodeId) (memo : Memo) :
    (i :: rest).foldlM (p.seek bound) (some found) memo = (do
      match ← p.position? bound i memo with
      | (some q, memo') => rest.foldlM (p.seek bound) (some (found ++ [q])) memo'
      | (none, memo') => .ok (none, memo')) := by
  rw [List.foldlM_cons]
  simp only [seek, bind, StateT.bind, Except.bind]
  cases p.position? bound i memo with
  | error e => rfl
  | ok r =>
    obtain ⟨_ | q, memo'⟩ := r
    · exact foldlM_seek_none bound rest memo'
    · rfl

/-- The position of a node that is not known yet, by its kind. -/
def locate (p : Placement) (bound : Nat) (id : NodeId) (n : Node) : Search (Option NodeId) :=
  match n.kind.standing with
  | .control => pure (p.reachable? id)
  | .anchored => do
    let anchor ← expect n.anchor (.withoutAnchor id n.kind)
    pure (p.reachable? anchor)
  | .leaf => pure (some Graph.start)
  | .computed => do
    let own ← p.ownPositions id n
    match ← n.inputs.foldlM (p.seek bound) (some own) with
    | some positions => p.deepest? id positions
    | none => pure none

theorem position?_of_known (hknown : memo.get? id = some r) :
    p.position? (bound + 1) id memo = .ok (r, memo) := by
  rw [position?, stateT_bind_of_ok (stateT_get_ok.mpr ⟨rfl, rfl⟩), hknown]
  rfl

theorem position?_of_unknown (hmiss : memo.get? id = none) :
    p.position? (bound + 1) id memo = (do
      let n ← p.graph.node id
      let r ← p.locate bound id n
      modify (·.insert id r)
      return r : Search (Option NodeId)) memo := by
  rw [position?, stateT_bind_of_ok (stateT_get_ok.mpr ⟨rfl, rfl⟩), hmiss]
  refine congrFun (bind_congr fun n => ?_) memo
  cases hk : n.kind with
  | pi | read | compare | isNull | instanceOf =>
    simp only [locate, Kind.standing, hk, Kind.isControl, Bool.false_eq_true, ↓reduceIte, bind_assoc]
    refine bind_congr fun own => bind_congr fun all => ?_
    cases all <;> rfl
  | _ => simp [locate, Kind.standing, hk, Kind.isControl]

/-- The search finds only positions: it says so of its result and of all that it remembers. -/
def Finds (p : Placement) (search : Search (Option NodeId)) (id : NodeId) : Prop :=
  ∀ memo r memo', p.Sound memo → search memo = .ok (r, memo') → p.At id r ∧ p.Sound memo'

theorem foldlM_seek_ok (hfinds : ∀ i, p.Finds (p.position? bound i) i) {inputs found : List NodeId}
    {all : Option (List NodeId)} (hs : p.Sound memo)
    (h : inputs.foldlM (p.seek bound) (some found) memo = .ok (all, memo')) :
    p.Sound memo' ∧
      (all = some (found ++ inputs.map p.spot) ∧ (∀ i ∈ inputs, p.At i (some (p.spot i))) ∨
        all = none ∧ ∃ before i after, inputs = before ++ i :: after ∧
          (∀ j ∈ before, p.At j (some (p.spot j))) ∧ p.At i none) := by
  induction inputs generalizing found memo with
  | nil =>
    obtain ⟨rfl, rfl⟩ := stateT_pure_ok.mp h
    exact ⟨hs, Or.inl ⟨by simp, by simp⟩⟩
  | cons i rest ih =>
    rw [foldlM_seek_cons] at h
    obtain ⟨⟨r, memo₁⟩, hi, h⟩ := except_bind_ok.mp h
    obtain ⟨hat, hs₁⟩ := hfinds i memo r memo₁ hs hi
    cases r with
    | none =>
      cases h
      exact ⟨hs₁, Or.inr ⟨rfl, [], i, rest, rfl, by simp, hat⟩⟩
    | some q =>
      have hq := hat.eq_spot
      obtain ⟨hs', ⟨rfl, hrest⟩ | ⟨rfl, before, j, after, rfl, hbefore, hj⟩⟩ := ih hs₁ h
      · refine ⟨hs', Or.inl ⟨by simp [hq], List.forall_mem_cons.mpr ⟨hq ▸ hat, hrest⟩⟩⟩
      · exact ⟨hs', Or.inr ⟨rfl, i :: before, j, after, rfl,
          List.forall_mem_cons.mpr ⟨hq ▸ hat, hbefore⟩, hj⟩⟩

theorem locate_finds (hfinds : ∀ i, p.Finds (p.position? bound i) i) (hn : p.graph.get? id = some n) :
    p.Finds (p.locate bound id n) id := by
  intro memo r memo' hs h
  cases hk : n.kind.standing <;> simp only [locate, hk] at h
  case control =>
    obtain ⟨rfl, rfl⟩ := stateT_pure_ok.mp h
    exact ⟨.control hn hk, hs⟩
  case anchored =>
    obtain ⟨a, _, hlift, h⟩ := stateT_bind_ok.mp h
    obtain ⟨ha, rfl⟩ := stateT_lift_ok.mp hlift
    obtain ⟨rfl, rfl⟩ := stateT_pure_ok.mp h
    exact ⟨.anchored hn hk (expect_ok.mp ha), hs⟩
  case leaf =>
    obtain ⟨rfl, rfl⟩ := stateT_pure_ok.mp h
    exact ⟨.leaf hn hk, hs⟩
  case computed =>
    obtain ⟨own, _, hlift, h⟩ := stateT_bind_ok.mp h
    obtain ⟨hown, rfl⟩ := stateT_lift_ok.mp hlift
    obtain ⟨all, memo₁, hall, h⟩ := stateT_bind_ok.mp h
    obtain ⟨hs₁, ⟨rfl, hins⟩ | ⟨rfl, before, i, after, hsplit, hbefore, hi⟩⟩ := foldlM_seek_ok hfinds hs hall
    · obtain ⟨hr, rfl⟩ := stateT_lift_ok.mp h
      exact ⟨.computed p.spot hn hk hown hins hr, hs₁⟩
    · obtain ⟨rfl, rfl⟩ := stateT_pure_ok.mp h
      exact ⟨.unreached p.spot hn hk hown hsplit hbefore hi, hs₁⟩

theorem position?_finds (p : Placement) (bound : Nat) (id : NodeId) : p.Finds (p.position? bound id) id := by
  induction bound generalizing id with
  | zero => exact fun memo r memo' _ h => (stateT_throw_ok.mp h).elim
  | succ bound ih =>
    intro memo r memo' hs h
    cases hmemo : memo.get? id with
    | some known =>
      rw [position?_of_known hmemo] at h
      cases h
      exact ⟨hs id _ hmemo, hs⟩
    | none =>
      rw [position?_of_unknown hmemo] at h
      obtain ⟨n, _, hlift, h⟩ := stateT_bind_ok.mp h
      obtain ⟨hn, rfl⟩ := stateT_lift_ok.mp hlift
      obtain ⟨r₁, memo₁, hr, h⟩ := stateT_bind_ok.mp h
      obtain ⟨hat, hs₁⟩ := locate_finds ih (Graph.node_eq_ok_iff.mp hn) memo r₁ memo₁ hs hr
      obtain ⟨_, memo₂, hinsert, h⟩ := stateT_bind_ok.mp h
      obtain ⟨rfl, rfl⟩ := stateT_pure_ok.mp h
      exact ⟨hat, stateT_modify_ok.mp hinsert ▸ hs₁.insert hat⟩

/-- Whatever is remembered, the search ends with `r`. -/
def Settles (p : Placement) (search : Search (Option NodeId)) (r : Option NodeId) : Prop :=
  ∀ memo, p.Sound memo → ∃ memo', p.Sound memo' ∧ search memo = .ok (r, memo')

theorem foldlM_seek_found {place : NodeId → NodeId} {inputs : List NodeId} (found : List NodeId)
    (hins : ∀ i ∈ inputs, p.Settles (p.position? bound i) (some (place i))) (hs : p.Sound memo) :
    ∃ memo', p.Sound memo' ∧
      inputs.foldlM (p.seek bound) (some found) memo = .ok (some (found ++ inputs.map place), memo') := by
  induction inputs generalizing found memo with
  | nil => exact ⟨memo, hs, by rw [List.map_nil, List.append_nil]; rfl⟩
  | cons i rest ih =>
    obtain ⟨memo₁, hs₁, hi⟩ := hins i List.mem_cons_self memo hs
    obtain ⟨memo', hs', hrest⟩ := ih (found ++ [place i]) (fun j hj => hins j (List.mem_cons_of_mem i hj)) hs₁
    refine ⟨memo', hs', ?_⟩
    rw [foldlM_seek_cons, hi, List.map_cons, List.append_cons]
    exact hrest

/-- If the inputs have positions, the node stands at the deepest of what it rests on. -/
theorem locate_of_inputs {place : NodeId → NodeId} {own : List NodeId} (hk : n.kind.standing = .computed)
    (hown : p.ownPositions id n = .ok own)
    (hins : ∀ i ∈ n.inputs, p.Settles (p.position? bound i) (some (place i))) (hs : p.Sound memo) :
    ∃ memo', p.Sound memo' ∧
      p.locate bound id n memo = (p.deepest? id (own ++ n.inputs.map place)).map (·, memo') := by
  obtain ⟨memo', hs', hfold⟩ := foldlM_seek_found own hins hs
  refine ⟨memo', hs', ?_⟩
  simp only [locate, hk]
  rw [stateT_bind_of_ok (stateT_lift_ok.mpr ⟨hown, rfl⟩), stateT_bind_of_ok hfold]
  change (liftM (p.deepest? id (own ++ n.inputs.map place)) : Search (Option NodeId)) memo' = _
  cases p.deepest? id (own ++ n.inputs.map place) <;> rfl

theorem locate_of_unreached (place : NodeId → NodeId) {own before after : List NodeId} {i : NodeId}
    (hk : n.kind.standing = .computed) (hown : p.ownPositions id n = .ok own)
    (hsplit : n.inputs = before ++ i :: after)
    (hbefore : ∀ j ∈ before, p.Settles (p.position? bound j) (some (place j)))
    (hi : p.Settles (p.position? bound i) none) : p.Settles (p.locate bound id n) none := by
  intro memo hs
  obtain ⟨memo₁, hs₁, hfold⟩ := foldlM_seek_found own hbefore hs
  obtain ⟨memo', hs', hi⟩ := hi memo₁ hs₁
  refine ⟨memo', hs', ?_⟩
  have hnone : n.inputs.foldlM (p.seek bound) (some own) memo = .ok (none, memo') := by
    rw [hsplit, List.foldlM_append, stateT_bind_of_ok hfold, foldlM_seek_cons, hi]
    rfl
  simp only [locate, hk]
  rw [stateT_bind_of_ok (stateT_lift_ok.mpr ⟨hown, rfl⟩), stateT_bind_of_ok hnone]
  rfl

theorem position?_settles (hn : p.graph.get? id = some n) (hat : p.At id r)
    (h : p.Settles (p.locate bound id n) r) : p.Settles (p.position? (bound + 1) id) r := by
  intro memo hs
  cases hmemo : memo.get? id with
  | some known =>
    rw [hat.unique (hs id known hmemo)]
    exact ⟨memo, hs, position?_of_known hmemo⟩
  | none =>
    obtain ⟨memo', hs', hr⟩ := h memo hs
    refine ⟨memo'.insert id r, hs'.insert hat, ?_⟩
    rw [position?_of_unknown hmemo]
    refine stateT_bind_ok.mpr ⟨n, memo, stateT_lift_ok.mpr ⟨Graph.node_eq_ok_iff.mpr hn, rfl⟩, ?_⟩
    refine stateT_bind_ok.mpr ⟨r, memo', hr, ?_⟩
    exact stateT_bind_ok.mpr ⟨(), _, stateT_modify_ok.mpr rfl, stateT_pure_ok.mpr ⟨rfl, rfl⟩⟩

end Placement

namespace Graph

variable {g : Graph} {x y : NodeId}

/-- How many nodes a value is computed from. -/
noncomputable def height (g : Graph) (x : NodeId) : Nat :=
  open Classical in ((Finset.range g.capacity).filter fun y => Relation.TransGen g.Computes x y).card

theorem height_lt (hacyclic : ∀ x, ¬Relation.TransGen g.Computes x x) (h : g.Computes x y)
    (hy : y < g.capacity) : g.height y < g.height x := by
  classical
  refine Finset.card_lt_card ((Finset.ssubset_iff_of_subset fun z hz => ?_).mpr ⟨y, ?_, fun hm => ?_⟩)
  · obtain ⟨hlt, hyz⟩ := Finset.mem_filter.mp hz
    exact Finset.mem_filter.mpr ⟨hlt, .head h hyz⟩
  · exact Finset.mem_filter.mpr ⟨Finset.mem_range.mpr hy, .single h⟩
  · exact hacyclic y (Finset.mem_filter.mp hm).2

theorem height_lt_capacity (hacyclic : ∀ x, ¬Relation.TransGen g.Computes x x) (hx : x < g.capacity) :
    g.height x < g.capacity := by
  classical
  have hcard : g.height x < (Finset.range g.capacity).card := by
    refine Finset.card_lt_card ((Finset.ssubset_iff_of_subset (Finset.filter_subset _ _)).mpr
      ⟨x, Finset.mem_range.mpr hx, fun hm => ?_⟩)
    exact hacyclic x (Finset.mem_filter.mp hm).2
  rwa [Finset.card_range] at hcard

end Graph

namespace Placement

variable {p : Placement} {id : NodeId} {n : Node} {r : Option NodeId} {bound : Nat}

theorem computes_of_mem (hn : p.graph.get? id = some n) (hk : n.kind.standing = .computed) {i : NodeId}
    (hi : i ∈ n.inputs) : p.graph.Computes id i := by
  refine ⟨n, hn, Kind.isControl_of_standing hk, ?_, hi⟩
  intro hphi
  rw [hphi] at hk
  cases hk

/-- A search that may go deep enough finds the position of every node that has one. -/
theorem At.settles (hacyclic : ∀ x, ¬Relation.TransGen p.graph.Computes x x) (h : p.At id r)
    (hbound : p.graph.height id < bound) : p.Settles (p.position? bound id) r := by
  have hat := h
  induction bound generalizing id r with
  | zero => exact absurd hbound (Nat.not_lt_zero _)
  | succ bound ih =>
    -- An input is computed from fewer nodes, so that one less is deep enough for it.
    have hinput : ∀ {n i s}, p.graph.get? id = some n → n.kind.standing = .computed → i ∈ n.inputs →
        p.At i s → p.Settles (p.position? bound i) s := by
      intro n i s hn hk hi hs
      obtain ⟨m, hm⟩ := hs.exists_node
      have hlt := Graph.height_lt hacyclic (computes_of_mem hn hk hi) (Graph.lt_capacity hm)
      exact ih hs (by omega) hs
    cases h with
    | control hn hk =>
      refine position?_settles hn hat fun memo hs => ⟨memo, hs, ?_⟩
      simp only [locate, hk]
      rfl
    | anchored hn hk ha =>
      refine position?_settles hn hat fun memo hs => ⟨memo, hs, ?_⟩
      simp only [locate, hk, ha]
      rfl
    | leaf hn hk =>
      refine position?_settles hn hat fun memo hs => ⟨memo, hs, ?_⟩
      simp only [locate, hk]
      rfl
    | computed place hn hk hown hins hr =>
      refine position?_settles hn hat fun memo hs => ?_
      obtain ⟨memo', hs', hlocate⟩ :=
        locate_of_inputs hk hown (fun i hi => hinput hn hk hi (hins i hi)) hs
      exact ⟨memo', hs', by rw [hlocate, hr]; rfl⟩
    | unreached place hn hk hown hsplit hbefore hi =>
      refine position?_settles hn hat (locate_of_unreached place hk hown hsplit (fun j hj => ?_) ?_)
      · exact hinput hn hk (hsplit ▸ List.mem_append_left _ hj) (hbefore j hj)
      · exact hinput hn hk (hsplit ▸ List.mem_append_right _ List.mem_cons_self) hi

/-- The position of a node by a search of its own. -/
def position (p : Placement) (id : NodeId) : Except Fault (Option NodeId) :=
  (p.position? p.bound id).run' .empty

theorem sound_empty (p : Placement) : p.Sound .empty :=
  fun id r h => absurd h (by simp)

theorem position_ok (h : p.position id = .ok r) : p.At id r := by
  obtain ⟨memo, hrun⟩ := stateT_run'_ok.mp h
  exact (position?_finds p p.bound id .empty r memo p.sound_empty hrun).1

/-- The bound of the search is deep enough for every node. -/
theorem At.found (hacyclic : ∀ x, ¬Relation.TransGen p.graph.Computes x x) (h : p.At id r) :
    p.Settles (p.position? p.bound id) r := by
  obtain ⟨n, hn⟩ := h.exists_node
  exact h.settles hacyclic (Nat.lt_succ_of_lt (Graph.height_lt_capacity hacyclic (Graph.lt_capacity hn)))

theorem At.position (hacyclic : ∀ x, ¬Relation.TransGen p.graph.Computes x x) (h : p.At id r) :
    p.position id = .ok r := by
  obtain ⟨memo', _, hrun⟩ := h.found hacyclic .empty p.sound_empty
  exact stateT_run'_ok.mpr ⟨memo', hrun⟩

/-- The position of a computed node whose inputs have one: the deepest of those it rests on, which
fails to exist only if these do not lie on one chain. -/
theorem position_eq (hacyclic : ∀ x, ¬Relation.TransGen p.graph.Computes x x) {place : NodeId → NodeId}
    {own : List NodeId} (hn : p.graph.get? id = some n) (hk : n.kind.standing = .computed)
    (hown : p.ownPositions id n = .ok own) (hins : ∀ i ∈ n.inputs, p.At i (some (place i))) :
    p.position id = p.deepest? id (own ++ n.inputs.map place) := by
  have hinput : ∀ i ∈ n.inputs, p.Settles (p.position? p.graph.capacity i) (some (place i)) := by
    intro i hi
    obtain ⟨m, hm⟩ := (hins i hi).exists_node
    exact (hins i hi).settles hacyclic (Graph.height_lt_capacity hacyclic (Graph.lt_capacity hm))
  obtain ⟨memo', _, hlocate⟩ := locate_of_inputs hk hown hinput p.sound_empty
  rw [position, StateT.run', bound, position?_of_unknown (IdMap.get?_empty id),
    stateT_bind_of_ok (stateT_lift_ok.mpr ⟨Graph.node_eq_ok_iff.mpr hn, rfl⟩)]
  simp only [bind, StateT.bind, hlocate]
  cases p.deepest? id (own ++ n.inputs.map place) <;> rfl

end Placement

end GuardElision
