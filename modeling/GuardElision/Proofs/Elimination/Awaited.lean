import GuardElision.Proofs.Elimination.Transitions

/-!
What waits with the open visits. A child is taken from a visit's list without a second look at the tree. The lists
agree with the tree nevertheless whenever one is taken: only a branch that is going to be folded makes a list
further out too long, and when it has been folded all lists are made anew.
-/

namespace GuardElision

namespace Graph

variable {g h k : Graph} {a b c u : NodeId}

def StrictDom (g : Graph) (a b : NodeId) : Prop :=
  g.forwardFlow.StrictlyDominates start a b

theorem Reach.exists_node (hr : g.Reach c) (hstart : ∃ n, g.get? Graph.start = some n) :
    ∃ n, g.get? c = some n := by
  by_cases hc : c = Graph.start
  · exact hc ▸ hstart
  · obtain ⟨_, _, _, _, _, _, _, hlive⟩ := hr.exists_step hc
    exact hlive

theorem SameFlow.strictDom (S : SameFlow g h) (hd : g.StrictDom a b) : h.StrictDom a b :=
  ⟨hd.1, S.dom hd.2⟩

theorem CutAt.strictDom (C : CutAt u g h) (hd : g.StrictDom a b) (hb : h.Reach b) : h.StrictDom a b :=
  ⟨hd.1, C.dom hd.2 hb⟩

/-- A tree gives each node children that it strictly dominates, and no node is given twice. -/
structure Current (g : Graph) (tree : DominatorTree) : Prop where
  dominated : ∀ p c, c ∈ tree.children p → g.StrictDom p c
  nodup : ∀ p, (tree.children p).Nodup
  parent : ∀ p q c, c ∈ tree.children p → c ∈ tree.children q → p = q

theorem current_dominators (g : Graph) : g.Current g.dominators := by
  refine ⟨fun p c hc => ?_, fun p => Digraph.nodup_children, fun p q c hp hq => ?_⟩
  · exact Digraph.strictlyDominates_of_idom? (Digraph.mem_children.mp hc)
  · exact Option.some.inj ((Digraph.mem_children.mp hp).symm.trans (Digraph.mem_children.mp hq))

variable {tree : DominatorTree}

/-- As long as no step is lost a tree stays right. -/
theorem Current.cutAt (T : g.Current tree) (C : CutAt u g h) (hkeep : ∀ c s, g.Step c s → h.Step c s) :
    h.Current tree := by
  refine { T with dominated := fun p c hc => ?_ }
  have hd := T.dominated p c hc
  have hr : g.Reach c := Dom.reach hd.2
  refine C.strictDom hd (hr.induct (P := h.Reach) ?_ fun a b _ ha hs => ha.step (hkeep a b hs))
  exact .start (Nat.lt_of_lt_of_le hr.start_lt C.capacity)

theorem Current.sameFlow (T : g.Current tree) (S : SameFlow g h) : h.Current tree :=
  { T with dominated := fun p c hc => S.strictDom (T.dominated p c hc) }

end Graph

namespace Walk

variable {w w' : Walk} {v : Visit} {vs outer : List Visit} {c : NodeId}

/-- A visit that ends with a trap. -/
def Trapped (v : Visit) : Prop :=
  ∃ q reason, v.deferred = some (.strengthen q reason)

theorem traps_iff : v.traps = true ↔ Trapped v := by
  unfold Visit.traps Trapped
  split
  next q reason hd => simp [hd]
  next hno => simpa using hno

theorem mem_childrenToEnter : c ∈ w.childrenToEnter v ↔
    ¬Trapped v ∧ c ∈ w.dominators.children v.node ∧ c ∉ w.visited ∧ c ∉ w.excluded ∧ w.graph.isLive c = true := by
  unfold childrenToEnter pendingChildren
  by_cases ht : Trapped v
  · simp [ht, traps_iff.mpr ht]
  · simp [ht, mt traps_iff.mp ht, and_assoc]

/-- Whether the tree's children are alive need not be asked. -/
theorem childrenToEnter_eq (T : w.graph.Current w.dominators) (hstart : ∃ n, w.graph.get? Graph.start = some n)
    (v : Visit) : w.childrenToEnter v = if v.traps then [] else
      (w.dominators.children v.node).filter fun c => !w.visited.contains c && !w.excluded.contains c := by
  unfold childrenToEnter pendingChildren
  refine if_congr Iff.rfl rfl (List.filter_congr fun c hc => ?_)
  have hreach : w.graph.Reach c := Graph.Dom.reach (T.dominated v.node c hc).2
  rw [Graph.isLive_iff.mpr (hreach.exists_node hstart), Bool.and_true]

theorem nodup_childrenToEnter (T : w.graph.Current w.dominators) : (w.childrenToEnter v).Nodup := by
  unfold childrenToEnter pendingChildren
  split
  · exact .nil
  · exact (T.nodup v.node).filter _

/-- What a visit lists is what is left to enter, but for arms that are going to be cut off. -/
structure Waits (w : Walk) (folding : Prop) (v : Visit) : Prop where
  children : v.pending.filter (!w.excluded.contains ·) = w.childrenToEnter v
  kept : ¬folding → ∀ c ∈ v.pending, c ∉ w.excluded

/-- The lists of the open visits, innermost first. A branch that is going to be folded may have excluded an arm that
a visit further out still lists. -/
def Awaited (w : Walk) : Prop → List Visit → Prop
  | _, [] => True
  | folding, v :: outer => Waits w folding v ∧ Awaited w (folding ∨ Folds v) outer

variable {folding folding' : Prop}

theorem waits_of_eq (h : v.pending = w.childrenToEnter v) : Waits w folding v := by
  have hkept : ∀ c ∈ v.pending, c ∉ w.excluded := fun c hc => (mem_childrenToEnter.mp (h ▸ hc)).2.2.2.1
  refine ⟨?_, fun _ => hkept⟩
  rw [List.filter_eq_self.mpr (by simpa using hkept), h]

theorem Waits.eq (h : Waits w folding v) (hfolding : ¬folding) : v.pending = w.childrenToEnter v := by
  rw [← h.children]
  exact (List.filter_eq_self.mpr (by simpa using h.kept hfolding)).symm

namespace Awaited

theorem of_eq (h : ∀ v ∈ vs, v.pending = w.childrenToEnter v) : Awaited w folding vs := by
  induction vs generalizing folding with
  | nil => trivial
  | cons v outer ih =>
    obtain ⟨hv, houter⟩ := List.forall_mem_cons.mp h
    exact ⟨waits_of_eq hv, ih houter⟩

theorem waits (h : Awaited w folding vs) : ∀ v ∈ vs, ∃ p, Waits w p v := by
  induction vs generalizing folding with
  | nil => exact List.forall_mem_nil _
  | cons v outer ih => exact List.forall_mem_cons.mpr ⟨⟨_, h.1⟩, ih h.2⟩

theorem imp (h : Awaited w folding vs) (hfolding : folding → folding')
    (hw : ∀ v ∈ vs, ∀ p p' : Prop, (folding' → p') → (p → p') → Waits w p v → Waits w' p' v) :
    Awaited w' folding' vs := by
  induction vs generalizing folding folding' with
  | nil => trivial
  | cons v outer ih =>
    obtain ⟨hv, houter⟩ := List.forall_mem_cons.mp hw
    refine ⟨hv _ _ id hfolding h.1, ih h.2 (Or.imp_left hfolding) fun u hu p p' hp' => ?_⟩
    exact houter u hu p p' (hp' ∘ .inl)

/-- Nothing is excluded, and what is left to enter stays the same. -/
theorem congr (h : Awaited w folding vs) (hfolding : folding → folding') (hexcluded : w'.excluded = w.excluded)
    (hchildren : ∀ v ∈ vs, w'.childrenToEnter v = w.childrenToEnter v) : Awaited w' folding' vs := by
  refine h.imp hfolding fun v hv p p' _ hp hw => ⟨?_, fun hp' => ?_⟩
  · rw [hexcluded, hchildren v hv, hw.children]
  · rw [hexcluded]
    exact hw.kept (mt hp hp')

/-- An arm is excluded by a branch further in that is going to be folded. -/
theorem exclude {arm : NodeId} (h : Awaited w folding vs) (hfolding : folding')
    (hexcluded : w'.excluded = arm :: w.excluded)
    (hchildren : ∀ v ∈ vs, w'.childrenToEnter v = (w.childrenToEnter v).filter (· != arm)) :
    Awaited w' folding' vs := by
  refine h.imp (fun _ => hfolding) fun v hv p p' hp' _ hw => ⟨?_, fun hno => absurd (hp' hfolding) hno⟩
  rw [hexcluded, hchildren v hv, ← hw.children, List.filter_filter]
  refine List.filter_congr fun c _ => ?_
  simp only [List.contains_cons, Bool.not_or, bne]

end Awaited

section Steps

variable (T : w.graph.Current w.dominators) (T' : w'.graph.Current w'.dominators)
  (hstart : ∃ n, w.graph.get? Graph.start = some n) (hstart' : ∃ n, w'.graph.get? Graph.start = some n)
  (htree : w'.dominators = w.dominators)

include T T' hstart hstart' htree

theorem childrenToEnter_congr (hvisited : w'.visited = w.visited) (hexcluded : w'.excluded = w.excluded) (v : Visit) :
    w'.childrenToEnter v = w.childrenToEnter v := by
  rw [childrenToEnter_eq T hstart, childrenToEnter_eq T' hstart', htree, hvisited, hexcluded]

theorem childrenToEnter_without
    (hgone : ∀ d, d ∈ w'.visited ∨ d ∈ w'.excluded ↔ d = c ∨ d ∈ w.visited ∨ d ∈ w.excluded) (v : Visit) :
    w'.childrenToEnter v = (w.childrenToEnter v).filter (· != c) := by
  rw [childrenToEnter_eq T hstart, childrenToEnter_eq T' hstart', htree]
  split
  · rfl
  · rw [List.filter_filter]
    refine List.filter_congr fun d _ => Bool.eq_iff_iff.mpr ?_
    simpa [not_or] using not_congr (hgone d)

/-- A child is taken from the innermost list and entered. No other list has it, as it has one parent. -/
theorem Awaited.enter {pending : List NodeId} (h : Awaited w False (v :: outer)) (hpending : v.pending = c :: pending)
    (hne : ∀ u ∈ outer, u.node ≠ v.node) (hvisited : w'.visited = c :: w.visited)
    (hexcluded : w'.excluded = w.excluded) : Awaited w' False ({ v with pending } :: outer) := by
  have hchildren := childrenToEnter_without (c := c) T T' hstart hstart' htree (by simp [hvisited, hexcluded, or_assoc])
  have hv : c :: pending = w.childrenToEnter v := hpending ▸ h.1.eq id
  have hc : c ∈ w.childrenToEnter v := hv ▸ List.mem_cons_self
  refine ⟨waits_of_eq ?_, h.2.congr id hexcluded fun u hu => ?_⟩
  · have hnew : c ∉ pending := (List.nodup_cons.mp (hv ▸ nodup_childrenToEnter T)).1
    change pending = w'.childrenToEnter v
    rw [hchildren v, ← hv, List.filter_cons_of_neg (by simp), List.filter_eq_self.mpr]
    exact fun d hd => bne_iff_ne.mpr fun he => hnew (he ▸ hd)
  · rw [hchildren u, List.filter_eq_self.mpr]
    intro d hd
    refine bne_iff_ne.mpr fun he => hne u hu ?_
    subst he
    exact T.parent u.node v.node d (mem_childrenToEnter.mp hd).2.1 (mem_childrenToEnter.mp hc).2.1

end Steps

end Walk

end GuardElision
