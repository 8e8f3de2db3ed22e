import GuardElision.Proofs.Cleanup.Loops
import GuardElision.Proofs.Effects.Rounds

/-!
Guards, undecided conditions, branches and merges weigh two, other live nodes one. A round that notes a node
makes the graph lighter.
-/

namespace GuardElision

/-- Nodes that a round may remove or turn into something lighter. -/
def Kind.isHeavy (k : Kind) : Bool :=
  k.isGuard || Round.isUndecidedLogic k || k = .branch || k.isMerge

theorem Kind.MayBecome.isHeavy {k k' : Kind} (h : MayBecome k k') (hk : k'.isHeavy = true) : k.isHeavy = true := by
  cases h with
  | same => exact hk
  | guard => rfl
  | _ => cases hk

namespace Graph

variable {g h k : Graph} {id : NodeId} {n m : Node}

def heavyCount (g : Graph) : Nat :=
  g.count Kind.isHeavy

/-- Every live node counts, and heavy nodes count twice. -/
def weight (g : Graph) : Nat :=
  g.liveCount + g.heavyCount

theorem weight_le (g : Graph) : g.weight ≤ 2 * g.capacity := by
  have hle : ∀ p : Node → Bool, (g.select p).length ≤ g.capacity := fun p =>
    Nat.le_trans (List.length_filter_le ..) (Nat.le_of_eq List.length_range)
  have hlive : g.liveCount ≤ g.capacity := hle _
  have hheavy : g.heavyCount ≤ g.capacity := hle _
  rw [weight]
  omega

namespace MayBecome

section SameCapacity

variable (A : g.MayBecome .all h) (hcap : h.capacity = g.capacity)

include A hcap

theorem liveCount_le : h.liveCount ≤ g.liveCount := by
  refine length_select_le fun x m hm _ => ?_
  obtain ⟨n, hn, _⟩ := A.live hm (hcap ▸ lt_capacity hm)
  exact ⟨n, hn, rfl⟩

theorem heavyCount_le : h.heavyCount ≤ g.heavyCount := by
  refine length_select_le fun x m hm hk => ?_
  obtain ⟨n, hn, hnm⟩ := A.live hm (hcap ▸ lt_capacity hm)
  exact ⟨n, hn, hnm.kind.isHeavy hk⟩

theorem weight_le : h.weight ≤ g.weight :=
  Nat.add_le_add (A.liveCount_le hcap) (A.heavyCount_le hcap)

theorem liveCount_lt (hn : g.get? id = some n) (hgone : h.get? id = none) : h.liveCount < g.liveCount := by
  refine length_select_lt (fun x m hm _ => ?_) hn rfl fun m hm => ?_
  · obtain ⟨n, hn, _⟩ := A.live hm (hcap ▸ lt_capacity hm)
    exact ⟨n, hn, rfl⟩
  · cases hgone.symm.trans hm

theorem heavyCount_lt (hn : g.get? id = some n) (hk : n.kind.isHeavy = true)
    (hlight : ∀ m, h.get? id = some m → m.kind.isHeavy = false) : h.heavyCount < g.heavyCount := by
  refine length_select_lt (fun x m hm hk => ?_) hn hk hlight
  obtain ⟨n, hn, hnm⟩ := A.live hm (hcap ▸ lt_capacity hm)
  exact ⟨n, hn, hnm.kind.isHeavy hk⟩

/-- A node that is gone makes the graph lighter. -/
theorem weight_lt_of_gone (hn : g.get? id = some n) (hgone : h.get? id = none) : h.weight < g.weight :=
  Nat.add_lt_add_of_lt_of_le (A.liveCount_lt hcap hn hgone) (A.heavyCount_le hcap)

theorem weight_lt_of_light (hn : g.get? id = some n) (hk : n.kind.isHeavy = true)
    (hlight : ∀ m, h.get? id = some m → m.kind.isHeavy = false) : h.weight < g.weight :=
  Nat.add_lt_add_of_le_of_lt (A.liveCount_le hcap) (A.heavyCount_lt hcap hn hk hlight)

end SameCapacity

end MayBecome

theorem weight_addTrap (g : Graph) (reason : Reason) :
    (g.add { kind := .deoptimize reason, synthetic := true }).2.weight ≤ g.weight + 1 := by
  set trap : Node := { kind := .deoptimize reason, synthetic := true } with htrap
  have hget : ∀ j, (g.add trap).2.get? j = if j = g.capacity then some trap else g.get? j := get?_add g trap rfl
  have hsubset : (g.add trap).2.liveIds ⊆ g.capacity :: g.liveIds := by
    intro x hx
    obtain ⟨m, hm, _⟩ := mem_select.mp hx
    rw [hget] at hm
    split at hm
    next heq => exact heq ▸ List.mem_cons_self
    next => exact List.mem_cons_of_mem _ (mem_select.mpr ⟨m, hm, rfl⟩)
  have hlive : (g.add trap).2.liveCount ≤ g.liveCount + 1 :=
    (List.subperm_of_subset ((select_sorted _ _).imp Nat.ne_of_lt) hsubset).length_le
  have hheavy : (g.add trap).2.heavyCount ≤ g.heavyCount := by
    refine length_select_le fun x m hm hk => ?_
    rw [hget] at hm
    split at hm
    next => cases hm; cases hk
    next => exact ⟨m, hm, hk⟩
  simp only [weight]
  omega

theorem weight_strengthenGuard {anchor guard : NodeId} {reason : Reason} {s : Strengthened}
    (hguard : guard ∈ g.guardsAt anchor) (hs : g.strengthenGuard anchor guard reason = .ok (s, k)) :
    k.weight < g.weight := by
  have hmem := mem_removed_of_strengthenGuard hguard hs
  obtain ⟨g₁, hedge, hremoved, rfl⟩ := strengthenGuard_steps hs
  have hadd := weight_addTrap g reason
  have hturn : g₁.weight ≤ (g.add { kind := .deoptimize reason, synthetic := true }).2.weight := by
    rcases hedge with ⟨old, hedge⟩ | hedge
    · obtain ⟨_, _, _, _, _, hcap, _⟩ := redirectEdge_ok hedge
      exact MayBecome.weight_le (.redirectEdge trivial hedge) hcap
    · exact MayBecome.weight_le (.addEdge trivial hedge) (addEdge_ok hedge).2.1
  have hguards : ∀ id ∈ s.removed, ∃ n, g₁.get? id = some n ∧ n.kind.isGuard = true := by
    intro id hid
    rw [hremoved] at hid
    obtain ⟨n, hn, hk, _⟩ := mem_guardsAt.mp (List.mem_filter.mp hid).1
    exact ⟨n, hn, hk⟩
  obtain ⟨n, hn, hk⟩ := hguards guard hmem
  have hgone : (s.removed.foldl Graph.delete g₁).get? guard = none := by rw [get?_foldl_delete, if_pos hmem]
  have A : g₁.MayBecome .all (s.removed.foldl Graph.delete g₁) := .deleteGuards hguards
  have hlive := A.liveCount_lt (capacity_foldl_delete ..) hn hgone
  have hheavy := A.heavyCount_lt (capacity_foldl_delete ..) hn (by simp [Kind.isHeavy, hk]) (by simp [hgone])
  simp only [weight] at *
  omega

end Graph

namespace Sweep

variable {s s' : Sweep} {size : Nat}

def Sized (size : Nat) (s : Sweep) : Prop :=
  s.graph.capacity = size

theorem removeControl_sized (id : NodeId) (successors : List NodeId) : (removeControl id successors).Keeps (Sized size) := by
  refine .bind (.forM fun next _ => .bind (fun s _ s' hs h => ?_) fun _ => .modify fun _ hs => hs) fun _ => .modify fun s hs => ?_
  · obtain ⟨k, hk, rfl⟩ := onGraph_ok.mp h
    obtain ⟨_, _, _, hcap, _⟩ := Graph.detachEdge_ok hk
    exact hcap.trans hs
  · rw [Sized, (foldl_drop _ s).1, Graph.capacity_foldl_delete]
    exact hs

theorem prune_sized (bound : Nat) (stack : List NodeId) : (prune bound stack).Keeps (Sized size) := by
  induction bound generalizing stack with
  | zero => cases stack <;> exact .pure _
  | succ bound ih =>
    cases stack with
    | nil => exact .pure _
    | cons id rest =>
      refine .bind (fun s next s' hs h => ?_) fun next => ih _
      rcases pruneNode_cases h with ⟨hgraph, _⟩ | ⟨n, s₁, _, _, _, hgraph, _, hremove, _⟩
      · rw [Sized, hgraph]
        exact hs
      · refine removeControl_sized id n.successors s₁ _ s' ?_ hremove
        rw [Sized, hgraph]
        exact hs

theorem simplifyMerge_sized (merge : NodeId) : (simplifyMerge merge).Keeps (Sized size) := by
  intro s a s' hs h
  rcases simplifyMerge_cases h with rfl | ⟨n, source, s₁, memory, _, _, _, hphis, _, hgraph⟩
  · exact hs
  · rw [Sized, hgraph, Graph.capacity_modify, Graph.replaceMemory, Graph.capacity_mapLive]
    exact (resolvePhis_ok hphis).capacity.trans hs

theorem run_sized (changed : List NodeId) : (run changed).Keeps (Sized size) := by
  intro s a s' hs h
  obtain ⟨control, s₁, s₂, hseeds, hprune, ids, hmerges⟩ := run_cases h
  have hs₁ : s₁.Sized size := by
    refine (Attempt.Keeps.flatMapM fun id _ s next s' hs h => ?_) s _ s₁ hs hseeds
    rcases seed_cases h with ⟨_, _, _, rfl⟩ | ⟨_, _, hgraph⟩ | ⟨truth, folded, _, hfold, _⟩
    · exact hs
    · rw [Sized, hgraph]
      exact hs
    · obtain ⟨_, _, _, _, _, hcap, _, A, _⟩ := Graph.foldBranch_steps hfold
      exact (A.capacity.trans hcap).trans hs
  have hs₂ : s₂.Sized size := prune_sized _ _ s₁ _ s₂ hs₁ hprune
  exact (Attempt.Keeps.forM fun merge _ => simplifyMerge_sized merge) _ _ s'
    ((dropOrphans_aside _ _ s₂).capacity.trans hs₂) hmerges

end Sweep

theorem Graph.cleanUp_weight {g h : Graph} {changed : List NodeId} {changes : Changes}
    (hc : cleanUp changed g = .ok changes h) : h.weight ≤ g.weight := by
  have A : g.MayBecome .all h := cleanUp_mayBecome g.within_all hc
  obtain ⟨s, hrun, _, rfl⟩ := cleanUp_ok hc
  exact A.weight_le (Sweep.run_sized changed { graph := g } _ s rfl hrun)

namespace Round

variable {g : Graph} {method : Option MethodId} {r r' : Round} {id : NodeId} {u : PUnit}

/-- The round has not made `g` heavier, and has made it lighter if a node is noted. -/
structure Lightens (g : Graph) (r : Round) : Prop where
  le : r.graph.weight ≤ g.weight
  lt : r.changes.nodes ≠ [] → r.graph.weight < g.weight

theorem Lightens.edit (L : r.Lightens g) (hlt : r'.graph.weight < r.graph.weight) : r'.Lightens g :=
  have hless := Nat.lt_of_lt_of_le hlt L.le
  ⟨Nat.le_of_lt hless, fun _ => hless⟩

theorem Lightens.later (L : r.Lightens g) (hnoted : r.changes.nodes ≠ []) (hle : r'.graph.weight ≤ r.graph.weight) :
    r'.Lightens g :=
  have hless := Nat.lt_of_le_of_lt hle (L.lt hnoted)
  ⟨Nat.le_of_lt hless, fun _ => hless⟩

theorem Edit.weight_lt (h : Edit r r') : r'.graph.weight < r.graph.weight := by
  cases h with
  | decide hn hk htruth =>
    obtain ⟨m, hm, hbecome⟩ := stampTruth?_ok htruth
    cases hn.symm.trans hm
    refine Graph.MayBecome.weight_lt_of_light (.decide hn hbecome) (Graph.capacity_modify ..) hn
      (by simp [Kind.isHeavy, hk])
      fun l hl => ?_
    rw [graph, Graph.get?_setKind, hn, Option.map_some, if_pos rfl] at hl
    obtain rfl := Option.some.inj hl
    rfl
  | drop hn hk =>
    exact Graph.MayBecome.weight_lt_of_gone (.dropGuard hn (by rw [hk]; rfl) _)
      ((Graph.capacity_delete ..).trans (Graph.capacity_mapLive ..)) hn ((Graph.get?_delete ..).trans (if_pos rfl))
  | trap hn hk ha _ _ hs => exact Graph.weight_strengthenGuard (Graph.mem_guardsAt.mpr ⟨_, hn, by rw [hk]; rfl, ha⟩) hs
  | fold _ _ _ hfold =>
    obtain ⟨n, k, hn, hk, _, hcap, _, A, hbegin⟩ := Graph.foldBranch_steps hfold
    refine Graph.MayBecome.weight_lt_of_light (.foldBranch hfold) (A.capacity.trans hcap) hn (by rw [hk]; rfl)
      fun m hm => ?_
    rw [hbegin m hm]
    rfl

/-- A round that notes a node makes the graph lighter. -/
theorem run_lightens (hnodes : r.changes.nodes = []) (hseeds : r.seeds = []) (h : run method r = .ok u r') :
    r'.Lightens r.graph := by
  refine run_induct (P := Lightens r.graph) (fun _ _ L hedit => L.edit hedit.weight_lt)
    (fun _ _ _ L hnoted hclean => L.later hnoted (Graph.cleanUp_weight hclean)) (fun _ id n e L hn _ _ => L.edit ?_) hseeds
    ⟨Nat.le_refl _, fun hn => absurd hnodes hn⟩ h
  exact Graph.MayBecome.weight_lt_of_gone (.delete fun _ _ => Or.inl trivial) (Graph.capacity_delete ..) hn
    ((Graph.get?_delete ..).trans (if_pos rfl))

end Round

namespace Draft

variable {method : Option MethodId} {d d' : Draft} {changes : Changes}

theorem canonicalizeOnce_weight (h : canonicalizeOnce method d = .ok changes d') (hsome : ¬changes.isEmpty = true) :
    d'.graph.weight < d.graph.weight := by
  have hnodes : changes.nodes ≠ [] := fun hn => hsome (canonicalizeOnce_unchanged h hn).2
  unfold canonicalizeOnce at h
  split at h
  next r hrun =>
    obtain ⟨rfl, rfl⟩ := EStateM.Result.ok.inj h
    exact (Round.run_lightens (r := { draft := d }) rfl rfl hrun).lt hnodes
  next => cases h

def roundStep (method : Option MethodId) (w : Changes × Draft) : (Changes × Draft) ⊕ EStateM.Result Fault Draft Changes :=
  match canonicalizeOnce method w.2 with
  | .error e d => .inr (.error e d)
  | .ok changes d => if changes.isEmpty then .inr (.ok w.1 d) else .inl (w.1.append changes, d)

theorem canonicalizeRounds_succ (method : Option MethodId) (bound : Nat) (w : Changes × Draft) :
    canonicalizeRounds method (bound + 1) w.1 w.2 =
      Sum.elim (fun w => canonicalizeRounds method bound w.1 w.2) (fun r => r) (roundStep method w) := by
  rw [canonicalizeRounds, roundStep]
  cases honce : canonicalizeOnce method w.2 with
  | error e d => exact Attempt.bind_of_error honce
  | ok changes d =>
    rw [Attempt.bind_of_ok honce]
    split
    next hempty => simp only [if_pos hempty, Sum.elim_inr]; rfl
    next hsome => simp only [if_neg hsome, Sum.elim_inl]

/-- Some round changes nothing or fails, whatever the graph is like. -/
theorem canonicalize_stops (method : Option MethodId) (d : Draft) :
    ∃ n ≤ 2 * d.graph.capacity + 1, StopsAfter (roundStep method) n ({}, d) (canonicalize method d) := by
  let size : Changes × Draft → Nat := fun w => w.2.graph.weight + 1
  have hless : ∀ w w', roundStep method w = .inl w' → size w' < size w := by
    intro w w' hw
    rw [roundStep] at hw
    cases honce : canonicalizeOnce method w.2 with
    | error e d =>
      rw [honce] at hw
      cases hw
    | ok changes d =>
      simp only [honce] at hw
      split at hw
      next => cases hw
      next hsome =>
        cases hw
        exact Nat.succ_lt_succ (canonicalizeOnce_weight honce hsome)
  have hbound : size ({}, d) ≤ 2 * d.graph.capacity + 1 := Nat.succ_le_succ d.graph.weight_le
  have hrounds : canonicalize method d = canonicalizeRounds method (2 * d.graph.capacity + 1) {} d :=
    Attempt.bind_of_ok (Attempt.get_ok.mpr ⟨rfl, rfl⟩)
  rw [hrounds]
  exact StopsAfter.of_bounded (f := fun bound w => canonicalizeRounds method bound w.1 w.2) (s := ({}, d))
    (fun w hw => absurd hw (Nat.succ_ne_zero w.2.graph.weight)) (canonicalizeRounds_succ method) hless hbound

end Draft

end GuardElision
