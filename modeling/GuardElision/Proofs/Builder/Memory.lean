import GuardElision.Builder
import GuardElision.Cleanup.Local
import GuardElision.Proofs.Attempt
import GuardElision.Proofs.Graph.Lookup

namespace GuardElision

theorem Kind.killsMemory_of_isMerge {k : Kind} (hk : k.isMerge = true) : k.killsMemory = true := by
  cases k <;> simp_all [isMerge, killsMemory]

namespace Builder

/-- A call to the builder. -/
inductive Call where
  | setCursor (control : NodeId)
  | parameter (stamp : Stamp)
  | int (value : Word)
  | null
  | logic (value : Bool)
  | compare (op : Comparison) (a b : NodeId)
  | isNull (x : NodeId)
  | instanceOf (x : NodeId) (cls : ClassId)
  | guard (condition : NodeId) (negated : Bool) (reason : Reason)
  | pi (value guard : NodeId) (stamp : Stamp)
  | read (object : NodeId) (field : Nat) (guard : Option NodeId) (stamp : Stamp)
  | begin
  | invoke
  | loopBegin
  | branch (condition : NodeId)
  | merge (ends : List NodeId)
  | phi (merge : NodeId) (inputs : List NodeId) (stamp : Stamp)
  | loopEnd (header : NodeId) (values : List NodeId)
  | ret (value : Option NodeId)
  | deoptimize (reason : Reason)

/-- Does what a call does, and forgets the result. -/
def unvalued {α : Type} (x : Attempt Builder α) : Attempt Builder Unit := do
  let _ ← x

def Call.perform : Call → Attempt Builder Unit
  | .setCursor control => Builder.setCursor (some control)
  | .parameter stamp => unvalued (Builder.parameter stamp)
  | .int value => unvalued (Builder.int value)
  | .null => unvalued Builder.null
  | .logic value => unvalued (Builder.logic value)
  | .compare op a b => unvalued (Builder.compare op a b)
  | .isNull x => unvalued (Builder.isNull x)
  | .instanceOf x cls => unvalued (Builder.instanceOf x cls)
  | .guard condition negated reason => unvalued (Builder.guard condition negated reason)
  | .pi value q stamp => unvalued (Builder.pi value q stamp)
  | .read object field q stamp => unvalued (Builder.read object field q stamp)
  | .begin => unvalued Builder.begin
  | .invoke => unvalued Builder.invoke
  | .loopBegin => unvalued Builder.loopBegin
  | .branch condition => unvalued (Builder.branch condition)
  | .merge ends => unvalued (Builder.merge ends)
  | .phi m inputs stamp => unvalued (Builder.phi m inputs stamp)
  | .loopEnd header values => unvalued (Builder.loopEnd header values)
  | .ret value => unvalued (Builder.ret value)
  | .deoptimize reason => unvalued (Builder.deoptimize reason)

/-- The builder after a list of calls that all succeeded. -/
def Built (classes : ClassTable) (calls : List Call) (b : Builder) : Prop :=
  calls.forM Call.perform (ofClasses classes) = .ok () b

/-- Memory states are recorded as control goes. -/
structure Tracked (b : Builder) : Prop where
  start : b.graph.kind? Graph.start = some .start
  own : ∀ c n, b.graph.get? c = some n → n.kind.killsMemory = true → b.memoryAt c = c
  taken : ∀ c n, b.graph.get? c = some n → n.kind.isControl = true → n.kind.killsMemory = false →
    ∃ p k, n.predecessors = [p] ∧ p < c ∧ b.graph.get? p = some k ∧ k.kind.isControl = true ∧
      b.memoryAt c = b.memoryAt p
  edge : ∀ c n s, b.graph.get? c = some n → n.kind.isControl = true → s ∈ n.successors →
    ∃ k, b.graph.get? s = some k ∧ k.kind.isControl = true ∧ c ∈ k.predecessors

/-- What a change may do to nodes that are there, and how it may add control nodes and edges. -/
structure Grows (b b' : Builder) : Prop where
  old : ∀ c n, b.graph.get? c = some n → ∃ n', b'.graph.get? c = some n' ∧ n'.kind = n.kind ∧
    n.predecessors ⊆ n'.predecessors ∧ (n.kind.killsMemory = false → n'.predecessors = n.predecessors)
  memory : ∀ c n, b.graph.get? c = some n → b'.memoryAt c = b.memoryAt c
  fresh : ∀ c n, b'.graph.get? c = some n → n.kind.isControl = true → b.graph.get? c = none →
    (n.kind.killsMemory = true → b'.memoryAt c = c) ∧ (n.kind.killsMemory = false →
      ∃ p k, n.predecessors = [p] ∧ p < c ∧ b.graph.get? p = some k ∧ k.kind.isControl = true ∧
        b'.memoryAt c = b.memoryAt p)
  edge : ∀ c n s, b'.graph.get? c = some n → n.kind.isControl = true → s ∈ n.successors →
    (∃ m, b.graph.get? c = some m ∧ s ∈ m.successors) ∨
      ∃ k, b'.graph.get? s = some k ∧ k.kind.isControl = true ∧ c ∈ k.predecessors

variable {b b' : Builder} {c id source : NodeId} {n : Node} {kind : Kind}

theorem Grows.kind? (h : Grows b b') (hk : b.graph.kind? c = some kind) : b'.graph.kind? c = some kind := by
  obtain ⟨n, hn, rfl⟩ := Graph.kind?_eq_some_iff.mp hk
  obtain ⟨n', hn', hkind, _⟩ := h.old c n hn
  exact Graph.kind?_eq_some_iff.mpr ⟨n', hn', hkind⟩

theorem Tracked.grow (h : b.Tracked) (hg : Grows b b') : b'.Tracked := by
  refine ⟨hg.kind? h.start, fun c n' hn' hkill => ?_, fun c n' hn' hc hkill => ?_, fun c n' s hn' hc hs => ?_⟩
  · cases hn : b.graph.get? c with
    | none => exact (hg.fresh c n' hn' (Kind.isControl_of_killsMemory hkill) hn).1 hkill
    | some n =>
      obtain ⟨m, hm, hkind, _⟩ := hg.old c n hn
      cases hn'.symm.trans hm
      exact (hg.memory c n hn).trans (h.own c n hn (hkind ▸ hkill))
  · cases hn : b.graph.get? c with
    | none =>
      obtain ⟨p, k, hp, hlt, hpk, hck, hmem⟩ := (hg.fresh c n' hn' hc hn).2 hkill
      obtain ⟨k', hk', hkind, _⟩ := hg.old p k hpk
      exact ⟨p, k', hp, hlt, hk', hkind ▸ hck, hmem.trans (hg.memory p k hpk).symm⟩
    | some n =>
      obtain ⟨m, hm, hkind, _, hpred⟩ := hg.old c n hn
      cases hn'.symm.trans hm
      obtain ⟨p, k, hp, hlt, hpk, hck, hmem⟩ := h.taken c n hn (hkind ▸ hc) (hkind ▸ hkill)
      obtain ⟨k', hk', hkind', _⟩ := hg.old p k hpk
      refine ⟨p, k', (hpred (hkind ▸ hkill)).trans hp, hlt, hk', hkind' ▸ hck, ?_⟩
      rw [hg.memory c n hn, hg.memory p k hpk, hmem]
  · rcases hg.edge c n' s hn' hc hs with ⟨n, hn, hs⟩ | hnew
    · obtain ⟨m, hm, hkind, _⟩ := hg.old c n hn
      cases hn'.symm.trans hm
      obtain ⟨k, hk, hck, hmem⟩ := h.edge c n s hn (hkind ▸ hc) hs
      obtain ⟨k', hk', hkind', hsub, _⟩ := hg.old s k hk
      exact ⟨k', hk', hkind' ▸ hck, hsub hmem⟩
    · exact hnew

/-- A change of nodes that leaves kinds and edges alone. -/
theorem Grows.of_map {f : NodeId → Node → Node} (hmem : b'.memory = b.memory)
    (hget : ∀ j, b'.graph.get? j = (b.graph.get? j).map (f j)) (hkind : ∀ j n, (f j n).kind = n.kind)
    (hsucc : ∀ j n, (f j n).successors = n.successors) (hpred : ∀ j n, (f j n).predecessors = n.predecessors) :
    Grows b b' := by
  refine ⟨fun c n hn => ⟨f c n, by rw [hget, hn]; rfl, hkind c n, ?_, fun _ => hpred c n⟩, fun c n _ => ?_,
    fun c n hn _ hnone => ?_, fun c n s hn _ hs => ?_⟩
  · rw [hpred]
    exact List.Subset.refl _
  · rw [memoryAt, memoryAt, hmem]
  · simp [hget, hnone] at hn
  · rw [hget] at hn
    obtain ⟨m, hm, rfl⟩ := Option.map_eq_some_iff.mp hn
    exact Or.inl ⟨m, hm, hsucc c m ▸ hs⟩

theorem Grows.add (hgraph : b'.graph = (b.graph.add n).2) (hn : n.removed = false) (hsucc : n.successors = [])
    (hmem : ∀ c < b.graph.capacity, b'.memoryAt c = b.memoryAt c)
    (hk : n.kind.isControl = true → n.kind.killsMemory = true ∧ b'.memoryAt b.graph.capacity = b.graph.capacity) :
    Grows b b' := by
  have hget : ∀ j, b'.graph.get? j = if j = b.graph.capacity then some n else b.graph.get? j := by
    intro j
    rw [hgraph, Graph.get?_add _ _ hn]
  refine ⟨fun c m hm => ⟨m, ?_, rfl, List.Subset.refl _, fun _ => rfl⟩, fun c m hm => hmem c (Graph.lt_capacity hm),
    fun c m hm hc hnone => ?_, fun c m s hm hc hs => ?_⟩
  · rw [hget, if_neg (Nat.ne_of_lt (Graph.lt_capacity hm)), hm]
  · rw [hget, hnone] at hm
    split at hm
    next hcap =>
      cases hm
      obtain ⟨hkill, hown⟩ := hk hc
      exact ⟨fun _ => hcap ▸ hown, fun hfalse => by simp [hkill] at hfalse⟩
    next => cases hm
  · rw [hget] at hm
    split at hm
    next =>
      cases hm
      simp [hsucc] at hs
    next => exact Or.inl ⟨m, hm, hs⟩

theorem Grows.attach {g : Graph} (hkind : kind.isControl = true) (hsource : b.graph.get? source = some n)
    (hc : n.kind.isControl = true)
    (hg : (b.graph.add { kind }).2.addEdge source b.graph.capacity = .ok g) (hgraph : b'.graph = g)
    (hmem : b'.memory = b.memory.insert b.graph.capacity
      (if kind.killsMemory = true then b.graph.capacity else b.memoryAt source)) : Grows b b' := by
  obtain ⟨_, _, hget⟩ := Graph.addEdge_ok hg
  have hnew : b'.graph.get? b.graph.capacity = some { kind, predecessors := [source] } := by
    have hne : b.graph.capacity ≠ source := (Nat.ne_of_lt (Graph.lt_capacity hsource)).symm
    rw [hgraph, hget, Graph.get?_add _ _ rfl]
    simp [hne]
  have hold : ∀ c m, b.graph.get? c = some m → b'.graph.get? c =
      some { m with successors := if c = source then m.successors ++ [b.graph.capacity] else m.successors } := by
    intro c m hm
    have hne : c ≠ b.graph.capacity := Nat.ne_of_lt (Graph.lt_capacity hm)
    rw [hgraph, hget, Graph.get?_add _ _ rfl, if_neg hne, hm]
    simp [hne]
  have hat : ∀ c, b'.memoryAt c = if c = b.graph.capacity then
      (if kind.killsMemory = true then b.graph.capacity else b.memoryAt source) else b.memoryAt c := by
    intro c
    rw [memoryAt, hmem, IdMap.get?_insert]
    split <;> rfl
  have honly : ∀ c m, b'.graph.get? c = some m → b.graph.get? c = none → c = b.graph.capacity := by
    intro c m hm hnone
    by_contra hne
    rw [hgraph, hget, Graph.get?_add _ _ rfl, if_neg hne, hnone] at hm
    cases hm
  refine ⟨fun c m hm => ⟨_, hold c m hm, rfl, List.Subset.refl _, fun _ => rfl⟩, fun c m hm => ?_,
    fun c m hm hcm hnone => ?_, fun c m s hm hcm hs => ?_⟩
  · rw [hat, if_neg (Nat.ne_of_lt (Graph.lt_capacity hm))]
  · obtain rfl := honly c m hm hnone
    cases hnew.symm.trans hm
    refine ⟨fun hkill => ?_, fun hkill => ⟨source, n, rfl, Graph.lt_capacity hsource, hsource, hc, ?_⟩⟩
    · rw [hat, if_pos rfl, if_pos hkill]
    · have hkill' : ¬kind.killsMemory = true := by
        intro h
        cases h.symm.trans hkill
      rw [hat, if_pos rfl, if_neg hkill']
  · cases hbm : b.graph.get? c with
    | none =>
      obtain rfl := honly c m hm hbm
      cases hnew.symm.trans hm
      cases hs
    | some m' =>
      cases (hold c m' hbm).symm.trans hm
      by_cases hcs : c = source
      · rw [if_pos hcs, List.mem_append, List.mem_singleton] at hs
        rcases hs with hs | rfl
        · exact Or.inl ⟨m', rfl, hs⟩
        · exact Or.inr ⟨_, hnew, hkind, List.mem_singleton.mpr hcs⟩
      · rw [if_neg hcs] at hs
        exact Or.inl ⟨m', rfl, hs⟩

theorem Grows.addEdge {target : NodeId} {m : Node} (htarget : b.graph.get? target = some m)
    (hm : m.kind.isMerge = true) (hg : b.graph.addEdge source target = .ok b'.graph) (hmem : b'.memory = b.memory) :
    Grows b b' := by
  obtain ⟨_, _, hget⟩ := Graph.addEdge_ok hg
  have hold : ∀ c k, b.graph.get? c = some k → b'.graph.get? c = some { k with
      successors := if c = source then k.successors ++ [target] else k.successors
      predecessors := if c = target then k.predecessors ++ [source] else k.predecessors } := by
    intro c k hk
    rw [hget, hk]
    rfl
  refine ⟨fun c k hk => ⟨_, hold c k hk, rfl, ?_, fun hkill => ?_⟩, fun c k _ => ?_, fun c k hk _ hnone => ?_,
    fun c k s hk hck hs => ?_⟩
  · intro p hp
    dsimp only
    split
    · exact List.mem_append_left _ hp
    · exact hp
  · refine if_neg fun hct => ?_
    subst hct
    cases htarget.symm.trans hk
    simp [Kind.killsMemory_of_isMerge hm] at hkill
  · rw [memoryAt, memoryAt, hmem]
  · simp [hget, hnone] at hk
  · rw [hget] at hk
    obtain ⟨k', hk', rfl⟩ := Option.map_eq_some_iff.mp hk
    by_cases hcs : c = source
    · rw [if_pos hcs, List.mem_append, List.mem_singleton] at hs
      rcases hs with hs | rfl
      · exact Or.inl ⟨k', hk', hs⟩
      · refine Or.inr ⟨_, hold s m htarget, Kind.isControl_of_isMerge hm, ?_⟩
        simp [hcs]
    · rw [if_neg hcs] at hs
      exact Or.inl ⟨k', hk', hs⟩

theorem openCursor_ok (h : b.openCursor = .ok c) : ∃ n, b.graph.get? c = some n ∧ n.kind.isControl = true := by
  unfold openCursor at h
  cases hcursor : b.cursor with
  | none => simp [hcursor] at h
  | some d =>
    simp only [hcursor] at h
    obtain ⟨n, hn, h⟩ := except_bind_ok.mp h
    split at h
    next hopen =>
      cases h
      rw [Bool.and_eq_true] at hopen
      exact ⟨n, Graph.node_eq_ok_iff.mp hn, Kind.isControl_of_isAnchor hopen.1⟩
    next => cases h

theorem addNode_ok : addNode n b = .ok id b' ↔ b.graph.capacity = id ∧ { b with graph := (b.graph.add n).2 } = b' := by
  change EStateM.Result.ok b.graph.capacity { b with graph := (b.graph.add n).2 } = .ok id b' ↔ _
  simp

theorem addEdge_ok {target : NodeId} {u : Unit} (h : addEdge source target b = .ok u b') :
    b.graph.addEdge source target = .ok b'.graph ∧ b'.memory = b.memory := by
  obtain ⟨g, hg, hb⟩ := except_bind_ok.mp (Attempt.step_ok.mp h)
  cases hb
  exact ⟨hg, rfl⟩

theorem attach_grows {s : NodeId → NodeId} (hkind : kind.isControl = true) (hsource : b.graph.get? source = some n)
    (hc : n.kind.isControl = true)
    (hs : s b.graph.capacity = if kind.killsMemory = true then b.graph.capacity else b.memoryAt source)
    (h : (do
      let id ← addNode { kind }
      addEdge source id
      setMemory id (s id)
      return id : Attempt Builder NodeId) b = .ok id b') : Grows b b' ∧ b'.graph.kind? id = some kind := by
  obtain ⟨_, b₁, hadd, h⟩ := Attempt.bind_ok.mp h
  obtain ⟨rfl, rfl⟩ := addNode_ok.mp hadd
  obtain ⟨_, b₂, hedge, h⟩ := Attempt.bind_ok.mp h
  obtain ⟨_, b₃, hset, h⟩ := Attempt.bind_ok.mp h
  obtain ⟨rfl, rfl⟩ := Attempt.pure_ok.mp h
  obtain ⟨hg, hmem⟩ := addEdge_ok hedge
  obtain rfl := Attempt.modify_ok.mp hset
  refine ⟨.attach hkind hsource hc hg rfl (by rw [← hs, hmem]), ?_⟩
  obtain ⟨_, _, hget⟩ := Graph.addEdge_ok hg
  simp [Graph.kind?, hget, Graph.get?_add]

theorem append_grows (hkind : kind.isControl = true) (h : append kind b = .ok id b') :
    Grows b b' ∧ b'.graph.kind? id = some kind := by
  obtain ⟨source, hopen, h⟩ := Attempt.ask_bind_ok.mp h
  have h := Attempt.get_bind_ok.mp h
  obtain ⟨n, hn, hc⟩ := openCursor_ok hopen
  exact attach_grows (s := fun id => if kind.killsMemory = true then id else b.memoryAt source) hkind hn hc rfl h

theorem arm_grows (hsource : b.graph.kind? source = some .branch) (h : arm source b = .ok id b') : Grows b b' := by
  have h := Attempt.get_bind_ok.mp h
  obtain ⟨n, hn, hk⟩ := Graph.kind?_eq_some_iff.mp hsource
  have hc : n.kind.isControl = true := by rw [hk]; rfl
  exact (attach_grows (s := fun _ => b.memoryAt source) (by rfl) hn hc rfl h).1

theorem addInput_grows {x : NodeId} {u : Unit} (h : addInput id x b = .ok u b') : Grows b b' := by
  obtain rfl := Attempt.modify_ok.mp h
  refine .of_map (f := fun j n => if j = id then { n with inputs := n.inputs ++ [x] } else n) rfl
    (fun j => Graph.get?_modify (f := fun n => { n with inputs := n.inputs ++ [x] }) (fun _ => rfl) _ _ _) ?_ ?_ ?_
  all_goals
    intro j n
    split <;> rfl

theorem tracked_of_eq (h : b.Tracked) (hgraph : b'.graph = b.graph) (hmem : b'.memory = b.memory) : b'.Tracked :=
  h.grow (.of_map (f := fun _ n => n) hmem (fun j => by rw [hgraph]; simp) (fun _ _ => rfl) (fun _ _ => rfl)
    fun _ _ => rfl)

open Attempt (Keeps)

theorem keeps_addNode (hn : n.removed = false) (hsucc : n.successors = []) (hk : n.kind.isControl = false) :
    Keeps Tracked (addNode n) := by
  intro b id b' hb h
  obtain ⟨rfl, rfl⟩ := addNode_ok.mp h
  exact hb.grow (.add rfl hn hsucc (fun _ _ => rfl) fun hc => by simp [hk] at hc)

theorem keeps_setCursor (cursor : Option NodeId) : Keeps Tracked (setCursor cursor) := by
  intro b u b' hb h
  obtain rfl := Attempt.modify_ok.mp h
  exact tracked_of_eq hb rfl rfl

theorem keeps_append (hkind : kind.isControl = true) : Keeps Tracked (append kind) :=
  fun _ _ _ hb h => hb.grow (append_grows hkind h).1

theorem keeps_addInput (id x : NodeId) : Keeps Tracked (addInput id x) :=
  fun _ _ _ hb h => hb.grow (addInput_grows h)

theorem keeps_advance (hkind : kind.isControl = true) : Keeps Tracked (advance kind) :=
  (keeps_append hkind).bind fun _ => (keeps_setCursor _).bind fun _ => .pure _

theorem keeps_close (hkind : kind.isControl = true) : Keeps Tracked (close kind) :=
  (keeps_append hkind).bind fun _ => (keeps_setCursor _).bind fun _ => .pure _

theorem keeps_branch (condition : NodeId) : Keeps Tracked (branch condition) := by
  intro b r b' hb h
  have h := Attempt.get_bind_ok.mp h
  split at h
  next =>
    obtain ⟨split, b₂, happend, h⟩ := Attempt.bind_ok.mp h
    obtain ⟨hg₂, hkind₂⟩ := append_grows rfl happend
    obtain ⟨_, b₃, hinput, h⟩ := Attempt.bind_ok.mp h
    have hg₃ := addInput_grows hinput
    have hkind₃ := hg₃.kind? hkind₂
    obtain ⟨yes, b₄, hyes, h⟩ := Attempt.bind_ok.mp h
    have hg₄ := arm_grows hkind₃ hyes
    obtain ⟨no, b₅, hno, h⟩ := Attempt.bind_ok.mp h
    have hg₅ := arm_grows (hg₄.kind? hkind₃) hno
    have hb₅ := (((hb.grow hg₂).grow hg₃).grow hg₄).grow hg₅
    exact ((keeps_setCursor none).bind fun _ => .pure _) b₅ r b' hb₅ h
  next => exact (Attempt.throw_ok.mp h).elim

theorem keeps_merge (ends : List NodeId) : Keeps Tracked (merge ends) := by
  intro b id b' hb h
  unfold merge at h
  split at h
  next => exact (Attempt.throw_ok.mp h).elim
  next =>
    obtain ⟨_, b₁, hadd, h⟩ := Attempt.bind_ok.mp h
    obtain ⟨rfl, rfl⟩ := addNode_ok.mp hadd
    obtain ⟨_, b₂, hloop, h⟩ := Attempt.bind_ok.mp h
    -- The memory state of the merge is recorded at the end; the edges before do not touch what is recorded.
    have hedges := Attempt.forM_ok
      (P := fun s : Builder => { s with memory := s.memory.insert b.graph.capacity b.graph.capacity }.Tracked ∧
        s.graph.kind? b.graph.capacity = some .merge) ?_ ?_ hloop
    · have h := Attempt.modify_bind_ok.mp h
      exact ((keeps_setCursor _).bind fun _ => .pure _) _ _ b' hedges.1 h
    · rintro e _ s s' u ⟨hs, hk⟩ h
      have h := Attempt.modify_bind_ok.mp h
      obtain ⟨_, _, h⟩ := Attempt.ask_bind_ok.mp h
      obtain ⟨hg, hmem⟩ := addEdge_ok h
      obtain ⟨m, hm, hmerge⟩ := Graph.kind?_eq_some_iff.mp hk
      have hgrows : Grows { s with memory := s.memory.insert b.graph.capacity b.graph.capacity }
          { s' with memory := s'.memory.insert b.graph.capacity b.graph.capacity } :=
        .addEdge hm (by rw [hmerge]; rfl) hg (by rw [hmem])
      exact ⟨hs.grow hgrows, hgrows.kind? hk⟩
    · refine ⟨hb.grow (.add rfl rfl rfl (fun c hc => ?_) fun _ => ⟨rfl, ?_⟩), ?_⟩
      · rw [memoryAt, IdMap.get?_insert, if_neg (Nat.ne_of_lt hc)]
        rfl
      · rw [memoryAt, IdMap.get?_insert, if_pos rfl]
        rfl
      · simp [Graph.kind?, Graph.get?_add]

theorem loopPhis_ok {g : Graph} {header : NodeId} {values : Nat} {phis : List NodeId}
    (h : g.loopPhis header values = .ok phis) : g.kind? header = some .loopBegin := by
  obtain ⟨n, hn, h⟩ := except_bind_ok.mp h
  split at h
  next hk => exact Graph.kind?_eq_some_iff.mpr ⟨n, Graph.node_eq_ok_iff.mp hn, hk⟩
  next => cases h

theorem keeps_loopEnd (header : NodeId) (values : List NodeId) : Keeps Tracked (loopEnd header values) := by
  intro b id b' hb h
  obtain ⟨phis, hphis, h⟩ := Attempt.ask_bind_ok.mp h
  obtain ⟨id', b₂, happend, h⟩ := Attempt.bind_ok.mp h
  obtain ⟨hg₂, _⟩ := append_grows rfl happend
  obtain ⟨m, hm, hk⟩ := Graph.kind?_eq_some_iff.mp (hg₂.kind? (loopPhis_ok hphis))
  obtain ⟨_, b₃, hedge, h⟩ := Attempt.bind_ok.mp h
  obtain ⟨hg, hmem⟩ := addEdge_ok hedge
  have hb₃ := (hb.grow hg₂).grow (.addEdge hm (by rw [hk]; rfl) hg hmem)
  refine (Keeps.forM fun p _ => ?_).bind (fun _ => (keeps_setCursor none).bind fun _ => .pure _) b₃ id b' hb₃ h
  exact keeps_addInput p.1 p.2

theorem keeps_ret (value : Option NodeId) : Keeps Tracked (ret value) := by
  refine (keeps_close rfl).bind fun id => .bind ?_ fun _ => .pure _
  cases value with
  | none => exact .pure _
  | some v => exact keeps_addInput id v

theorem keeps_perform (call : Call) : Keeps Tracked call.perform := by
  have hignored : ∀ {α : Type} {x : Attempt Builder α}, Keeps Tracked x → Keeps Tracked (unvalued x) :=
    fun hx => hx.bind fun _ => .pure _
  cases call with
  | setCursor control => exact keeps_setCursor _
  | parameter stamp =>
    refine hignored (.bind .get fun _ => .bind (.modify fun b hb => ?_) fun _ => keeps_addNode rfl rfl rfl)
    exact tracked_of_eq hb rfl rfl
  | int | null | logic | compare | isNull | instanceOf => exact hignored (keeps_addNode rfl rfl rfl)
  | guard condition negated reason =>
    refine hignored (.bind (.ask _) fun anchor => .bind .get fun b => ?_)
    split
    · exact keeps_addNode rfl rfl rfl
    · exact .throw _
  | pi value guard stamp =>
    refine hignored (.bind .get fun b => ?_)
    dsimp only
    split
    · exact keeps_addNode rfl rfl rfl
    · exact .throw _
  | read object field guard stamp =>
    refine hignored (.bind .get fun b => ?_)
    split
    · exact keeps_addNode rfl rfl rfl
    · exact .throw _
  | begin | invoke | loopBegin => exact hignored (keeps_advance rfl)
  | branch condition => exact hignored (keeps_branch condition)
  | merge ends => exact hignored (keeps_merge ends)
  | phi merge inputs stamp =>
    refine hignored (.bind (.ask _) fun n => ?_)
    split
    · exact keeps_addNode rfl rfl rfl
    · exact .throw _
  | loopEnd header values => exact hignored (keeps_loopEnd header values)
  | ret value => exact hignored (keeps_ret value)
  | deoptimize reason => exact hignored (keeps_close rfl)

theorem tracked_ofClasses (classes : ClassTable) : (ofClasses classes).Tracked := by
  have honly : ∀ c n, (ofClasses classes).graph.get? c = some n → c = Graph.start ∧ n = { kind := .start } := by
    intro c n hn
    have hlt : c < 1 := Graph.lt_capacity hn
    obtain rfl : c = Graph.start := Nat.lt_one_iff.mp hlt
    exact ⟨rfl, (Option.some.inj hn).symm⟩
  refine ⟨rfl, fun c n hn _ => ?_, fun c n hn hk hm => ?_, fun c n s hn hk hs => ?_⟩
  · obtain ⟨rfl, _⟩ := honly c n hn
    rfl
  · obtain ⟨_, rfl⟩ := honly c n hn
    cases hm
  · obtain ⟨_, rfl⟩ := honly c n hn
    cases hs

theorem Built.tracked {classes : ClassTable} {calls : List Call} (h : Built classes calls b) : b.Tracked :=
  Keeps.forM (fun call _ => keeps_perform call) _ _ _ (tracked_ofClasses classes) h

theorem Tracked.memoryAbove (hb : b.Tracked) {control : NodeId} {bound : Nat} (hn : b.graph.get? c = some n)
    (hc : n.kind.isControl = true) (hbound : c < bound) :
    Sweep.memoryAbove b.graph control bound c = .ok (b.memoryAt c) := by
  induction bound generalizing c n with
  | zero => exact absurd hbound (Nat.not_lt_zero c)
  | succ bound ih =>
    refine except_bind_ok.mpr ⟨n.kind, expect_ok.mpr (Graph.kind?_eq_some_iff.mpr ⟨n, hn, rfl⟩), ?_⟩
    by_cases hkill : n.kind.killsMemory = true
    · rw [if_pos hkill, hb.own c n hn hkill]
      rfl
    · obtain ⟨p, k, hp, hlt, hk, hck, hmem⟩ := hb.taken c n hn hc (by simpa using hkill)
      have hhead : (b.graph.forwardPredecessors c).head? = some p := by
        have hloop : n.kind ≠ .loopBegin := fun h => hkill (by rw [h]; rfl)
        simp [Graph.forwardPredecessors, hn, hp, hloop]
      rw [if_neg hkill, hmem]
      exact except_bind_ok.mpr ⟨p, expect_ok.mpr hhead, ih hk hck (Nat.lt_of_lt_of_le hlt (Nat.le_of_lt_succ hbound))⟩

theorem Tracked.memoryState (hb : b.Tracked) (hn : b.graph.get? c = some n) (hc : n.kind.isControl = true) :
    Sweep.memoryState b.graph c = .ok (b.memoryAt c) :=
  hb.memoryAbove hn hc (Nat.lt_succ_of_lt (Graph.lt_capacity hn))

end Builder

end GuardElision
