import GuardElision.Proofs.Flow.DominatorTree

namespace GuardElision

namespace Digraph

section

variable {g : Digraph} {entry a b c d v x : Nat}

theorem strictlyDominates_of_idom? (h : (g.dominators entry).idom? c = some v) :
    g.StrictlyDominates entry v c :=
  ((g.dominators_idom?_eq_some_iff entry c v).mp h).2.1

theorem not_dominates_of_sibling (hc : (g.dominators entry).idom? c = some v)
    (hd : (g.dominators entry).idom? d = some v) (hne : c ≠ d) (hcx : g.Dominates entry c x) :
    ¬g.Dominates entry d x := by
  have habove : ∀ {c d}, (g.dominators entry).idom? c = some v → (g.dominators entry).idom? d = some v → c ≠ d →
      ¬g.Dominates entry c d := by
    intro c d hc hd hne hcd
    have hcv := ((g.dominators_idom?_eq_some_iff entry d v).mp hd).2.2 c ⟨hne, hcd⟩
    obtain ⟨hvne, hvc⟩ := strictlyDominates_of_idom? hc
    exact hvne (hvc.antisymm hcv)
  intro hdx
  exact (hcx.total hdx).elim (habove hc hd hne) (habove hd hc hne.symm)

end

open Classical in
/-- The dominators of a node, itself included. -/
noncomputable def dominatorSet (g : Digraph) (entry v : Nat) : Finset Nat :=
  (Finset.range g.size).filter (g.Dominates entry · v)

section

variable {g : Digraph} {entry a b v : Nat}

open Classical in
theorem mem_dominatorSet : a ∈ g.dominatorSet entry v ↔ g.Dominates entry a v := by
  rw [dominatorSet, Finset.mem_filter, Finset.mem_range]
  refine ⟨And.right, fun h => ⟨?_, h⟩⟩
  obtain ⟨p, hp⟩ := h.reaches_left
  exact hp.target_lt

open Classical in
theorem card_dominatorSet_le : (g.dominatorSet entry v).card ≤ g.size := by
  have hle := Finset.card_le_card (Finset.filter_subset (g.Dominates entry · v) (Finset.range g.size))
  rwa [Finset.card_range] at hle

theorem card_dominatorSet_pos (hv : g.Reaches entry v) : 0 < (g.dominatorSet entry v).card :=
  Finset.card_pos.mpr ⟨v, mem_dominatorSet.mpr (.refl hv)⟩

/-- A node has one dominator more than its immediate dominator: itself. -/
theorem card_dominatorSet_idom {d : Nat} (hd : (g.dominators entry).idom? v = some d) :
    (g.dominatorSet entry v).card = (g.dominatorSet entry d).card + 1 := by
  obtain ⟨hv, hs, hnearest⟩ := (g.dominators_idom?_eq_some_iff entry v d).mp hd
  have hnotMem : v ∉ g.dominatorSet entry d := fun hm =>
    hs.1 (hs.2.antisymm (mem_dominatorSet.mp hm))
  have hset : g.dominatorSet entry v = insert v (g.dominatorSet entry d) := by
    ext a
    rw [Finset.mem_insert, mem_dominatorSet, mem_dominatorSet]
    constructor
    · intro ha
      by_cases he : a = v
      · exact Or.inl he
      · exact Or.inr (hnearest a ⟨he, ha⟩)
    · rintro (rfl | ha)
      · exact .refl hv
      · exact ha.trans hs.2
  rw [hset, Finset.card_insert_of_notMem hnotMem]

theorem card_dominatorSet_entry (h : g.Reaches entry entry) : (g.dominatorSet entry entry).card = 1 := by
  refine Finset.card_eq_one.mpr ⟨entry, Finset.ext fun a => ?_⟩
  rw [mem_dominatorSet, Finset.mem_singleton]
  constructor
  · exact fun ha => ha.antisymm (.entry_left ha.reaches_left)
  · rintro rfl
    exact .refl h

theorem StrictlyDominates.exists_child (h : g.StrictlyDominates entry a b) :
    ∃ c ∈ (g.dominators entry).children a, g.Dominates entry c b := by
  induction hm : (g.dominatorSet entry b).card generalizing b with
  | zero => exact absurd hm (Nat.pos_iff_ne_zero.mp (card_dominatorSet_pos h.2.1))
  | succ m ih =>
    have hne : b ≠ entry := by
      rintro rfl
      exact h.1 (h.2.antisymm (.entry_left h.2.reaches_left))
    obtain ⟨e, he, _⟩ := exists_idom? h.2.1 hne
    obtain ⟨_, heb, hnearest⟩ := (g.dominators_idom?_eq_some_iff entry b e).mp he
    by_cases hae : a = e
    · exact ⟨b, mem_children.mpr (hae ▸ he), .refl h.2.1⟩
    · have hcard := card_dominatorSet_idom he
      obtain ⟨c, hc, hce⟩ := ih ⟨hae, hnearest a h⟩ (by omega)
      exact ⟨c, hc, hce.trans heb.2⟩

end

end Digraph

namespace Layout

/-- There is room for the numbers of all nodes. -/
def Sized (n : Nat) (l : Layout) : Prop :=
  l.pre.size = n ∧ l.post.size = n ∧ l.depth.size = n

section

variable {l : Layout} {n v x depth : Nat}

theorem sized_blank (n : Nat) : (blank n).Sized n := by
  simp [Sized, blank]

theorem Sized.enter (h : l.Sized n) (v depth : Nat) : (l.enter v depth).Sized n := by
  simpa [Sized, Layout.enter] using h

theorem Sized.leave (h : l.Sized n) (v : Nat) : (l.leave v).Sized n := by
  simpa [Sized, Layout.leave] using h

@[simp] theorem next_enter : (l.enter v depth).next = l.next + 1 := rfl

@[simp] theorem next_leave : (l.leave v).next = l.next + 1 := rfl

@[simp] theorem preOf_leave : (l.leave v).preOf x = l.preOf x := rfl

@[simp] theorem depthOf_leave : (l.leave v).depthOf x = l.depthOf x := rfl

theorem getD_set {xs : Array Nat} {k : Nat} (hv : v < xs.size) :
    (xs.setIfInBounds v k).getD x 0 = if x = v then k else xs.getD x 0 := by
  rw [Array.getD_eq_getD_getElem?, Array.getElem?_setIfInBounds, Array.getD_eq_getD_getElem?]
  by_cases h : x = v
  · subst h
    simp [hv]
  · simp [h, Ne.symm h]

theorem Sized.preOf_enter (h : l.Sized n) (hv : v < n) :
    (l.enter v depth).preOf x = if x = v then l.next else l.preOf x :=
  getD_set (h.1.symm ▸ hv)

theorem Sized.depthOf_enter (h : l.Sized n) (hv : v < n) :
    (l.enter v depth).depthOf x = if x = v then depth else l.depthOf x :=
  getD_set (h.2.2.symm ▸ hv)

theorem Sized.postOf_leave (h : l.Sized n) (hv : v < n) :
    (l.leave v).postOf x = if x = v then l.next else l.postOf x :=
  getD_set (h.2.1.symm ▸ hv)

theorem encloses_iff {a b : Nat} : l.encloses a b = true ↔ l.preOf a ≤ l.preOf b ∧ l.postOf b ≤ l.postOf a := by
  simp [encloses]

end

end Layout

namespace Digraph

/-- What the walk through the trees below some roots does to the numbers: the nodes that the roots
dominate get the next ones, each more on leaving than on entering, so that one encloses another exactly
if it dominates it; all other nodes keep theirs. -/
structure Numbers (g : Digraph) (entry : Nat) (roots : List Nat) (s t : Layout) (new : List Nat) : Prop where
  sized : t.Sized g.size
  next : t.next = s.next + 2 * new.length
  nodup : new.Nodup
  mem_iff : ∀ x, x ∈ new ↔ ∃ c ∈ roots, g.Dominates entry c x
  frame : ∀ x ∉ new, t.preOf x = s.preOf x ∧ t.postOf x = s.postOf x ∧ t.depthOf x = s.depthOf x
  within : ∀ x ∈ new, s.next ≤ t.preOf x ∧ t.preOf x < t.postOf x ∧ t.postOf x < t.next
  encloses_iff : ∀ a ∈ new, ∀ b ∈ new, t.encloses a b = true ↔ g.Dominates entry a b
  depth : ∀ x ∈ new, t.depthOf x + 1 = (g.dominatorSet entry x).card

namespace Numbers

variable {g : Digraph} {entry c v : Nat} {cs new newer : List Nat} {s t u : Layout}

theorem refl (h : s.Sized g.size) : g.Numbers entry [] s s [] where
  sized := h
  next := rfl
  nodup := .nil
  mem_iff := by simp
  frame := fun _ _ => ⟨rfl, rfl, rfl⟩
  within := by simp
  encloses_iff := by simp
  depth := by simp

/-- Entering a node, walking through the trees of its children and leaving it. -/
theorem node (hs : s.Sized g.size) (hc : g.Reaches entry c) {depth : Nat}
    (hdepth : depth + 1 = (g.dominatorSet entry c).card)
    (h : g.Numbers entry ((g.dominators entry).children c) (s.enter c depth) t new) :
    g.Numbers entry [c] s (t.leave c) (c :: new) := by
  obtain ⟨p, hp⟩ := hc
  have hlt := hp.target_lt
  have hbelow : ∀ x ∈ new, g.StrictlyDominates entry c x := by
    intro x hx
    obtain ⟨d, hd, hdx⟩ := (h.mem_iff x).mp hx
    have hcd := strictlyDominates_of_idom? (mem_children.mp hd)
    refine ⟨?_, hcd.2.trans hdx⟩
    rintro rfl
    exact hcd.1 (hcd.2.antisymm hdx)
  have hnot : c ∉ new := fun hm => (hbelow c hm).1 rfl
  obtain ⟨hpre, -, hdep⟩ := h.frame c hnot
  rw [hs.preOf_enter hlt, if_pos rfl] at hpre
  rw [hs.depthOf_enter hlt, if_pos rfl] at hdep
  have hkeep : ∀ x ≠ c, (t.leave c).postOf x = t.postOf x := fun x hx => by
    rw [h.sized.postOf_leave hlt, if_neg hx]
  have hpost : (t.leave c).postOf c = t.next := by rw [h.sized.postOf_leave hlt, if_pos rfl]
  have hnext : t.next = s.next + 1 + 2 * new.length := h.next
  have hne : ∀ x ∈ new, x ≠ c := fun x hx he => hnot (he ▸ hx)
  refine ⟨h.sized.leave c, ?_, List.nodup_cons.mpr ⟨hnot, h.nodup⟩, fun x => ?_, fun x hx => ?_, ?_, ?_, ?_⟩
  · rw [Layout.next_leave, List.length_cons]
    omega
  · simp only [List.mem_cons, h.mem_iff, List.not_mem_nil, or_false, exists_eq_left]
    constructor
    · rintro (rfl | ⟨d, hd, hdx⟩)
      · exact .refl ⟨p, hp⟩
      · exact (strictlyDominates_of_idom? (mem_children.mp hd)).2.trans hdx
    · intro hcx
      by_cases he : x = c
      · exact Or.inl he
      · exact Or.inr (StrictlyDominates.exists_child ⟨Ne.symm he, hcx⟩)
  · obtain ⟨hxc, hxn⟩ := List.ne_and_not_mem_of_not_mem_cons hx
    obtain ⟨hp', ho', hd'⟩ := h.frame x hxn
    rw [hs.preOf_enter hlt, if_neg hxc] at hp'
    rw [hs.depthOf_enter hlt, if_neg hxc] at hd'
    exact ⟨hp', (hkeep x hxc).trans ho', hd'⟩
  · refine List.forall_mem_cons.mpr ⟨?_, fun x hx => ?_⟩
    · rw [Layout.preOf_leave, hpre, hpost, Layout.next_leave]
      omega
    · have hw := h.within x hx
      rw [Layout.next_enter] at hw
      rw [Layout.preOf_leave, hkeep x (hne x hx), Layout.next_leave]
      omega
  · have hin : ∀ x ∈ new, (t.leave c).encloses c x = true ∧ (t.leave c).encloses x c = false := by
      intro x hx
      have hw := h.within x hx
      rw [Layout.next_enter] at hw
      rw [← Bool.not_eq_true, Layout.encloses_iff, Layout.encloses_iff, hpost, hkeep x (hne x hx),
        Layout.preOf_leave, Layout.preOf_leave, hpre]
      omega
    refine List.forall_mem_cons.mpr ⟨List.forall_mem_cons.mpr ⟨?_, fun b hb => ?_⟩, fun a ha =>
      List.forall_mem_cons.mpr ⟨?_, fun b hb => ?_⟩⟩
    · exact iff_of_true (by simp [Layout.encloses_iff]) (.refl ⟨p, hp⟩)
    · exact iff_of_true (hin b hb).1 (hbelow b hb).2
    · refine iff_of_false (by simp [(hin a ha).2]) fun hac => ?_
      exact (hbelow a ha).1 ((hbelow a ha).2.antisymm hac)
    · rw [← h.encloses_iff a ha b hb, Layout.encloses_iff, Layout.encloses_iff, hkeep a (hne a ha),
        hkeep b (hne b hb), Layout.preOf_leave, Layout.preOf_leave]
  · refine List.forall_mem_cons.mpr ⟨?_, h.depth⟩
    rw [Layout.depthOf_leave, hdep, hdepth]

theorem cons (hc : (g.dominators entry).idom? c = some v) (hcs : ∀ d ∈ cs, (g.dominators entry).idom? d = some v)
    (hnot : c ∉ cs) (h : g.Numbers entry [c] s t new) (k : g.Numbers entry cs t u newer) :
    g.Numbers entry (c :: cs) s u (new ++ newer) := by
  have hdisjoint : ∀ a ∈ new, ∀ b ∈ newer, ¬g.Dominates entry a b ∧ ¬g.Dominates entry b a := by
    intro a ha b hb
    obtain ⟨c', hc', hca⟩ := (h.mem_iff a).mp ha
    obtain rfl := List.mem_singleton.mp hc'
    obtain ⟨d, hd, hdb⟩ := (k.mem_iff b).mp hb
    have hne : c' ≠ d := fun he => hnot (he ▸ hd)
    exact ⟨fun hab => not_dominates_of_sibling hc (hcs d hd) hne (hca.trans hab) hdb,
      fun hba => not_dominates_of_sibling hc (hcs d hd) hne hca (hdb.trans hba)⟩
  have hnew : ∀ a ∈ new, a ∉ newer := by
    intro a ha hm
    obtain ⟨_, _, hda⟩ := (k.mem_iff a).mp hm
    exact (hdisjoint a ha a hm).1 (.refl hda.1)
  have hkeep : ∀ a ∈ new, u.preOf a = t.preOf a ∧ u.postOf a = t.postOf a ∧ u.depthOf a = t.depthOf a :=
    fun a ha => k.frame a (hnew a ha)
  have hearlier : ∀ a ∈ new, s.next ≤ u.preOf a ∧ u.preOf a < u.postOf a ∧ u.postOf a < t.next := by
    intro a ha
    obtain ⟨hpre, hpost, -⟩ := hkeep a ha
    rw [hpre, hpost]
    exact h.within a ha
  have hnext := k.next
  refine ⟨k.sized, ?_, ?_, fun x => ?_, fun x hx => ?_, ?_, ?_, ?_⟩
  · rw [hnext, h.next, List.length_append]
    omega
  · exact List.nodup_append'.mpr ⟨h.nodup, k.nodup, fun a ha hm => hnew a ha hm⟩
  · simp [h.mem_iff, k.mem_iff]
  · obtain ⟨hxn, hxm⟩ := not_or.mp (mt List.mem_append.mpr hx)
    obtain ⟨hp, ho, hd⟩ := h.frame x hxn
    obtain ⟨hp', ho', hd'⟩ := k.frame x hxm
    exact ⟨hp'.trans hp, ho'.trans ho, hd'.trans hd⟩
  · refine List.forall_mem_append.mpr ⟨fun a ha => ?_, fun b hb => ?_⟩
    · have hw := hearlier a ha
      omega
    · have hw := k.within b hb
      have := h.next
      omega
  · refine List.forall_mem_append.mpr ⟨fun a ha => List.forall_mem_append.mpr ⟨fun b hb => ?_, fun b hb => ?_⟩,
      fun a ha => List.forall_mem_append.mpr ⟨fun b hb => ?_, k.encloses_iff a ha⟩⟩
    · obtain ⟨hpa, hoa, -⟩ := hkeep a ha
      obtain ⟨hpb, hob, -⟩ := hkeep b hb
      rw [← h.encloses_iff a ha b hb, Layout.encloses_iff, Layout.encloses_iff, hpa, hoa, hpb, hob]
    · refine iff_of_false (fun he => ?_) (hdisjoint a ha b hb).1
      have hab := Layout.encloses_iff.mp he
      have ha' := hearlier a ha
      have hb' := k.within b hb
      omega
    · refine iff_of_false (fun he => ?_) (hdisjoint b hb a ha).2
      have hab := Layout.encloses_iff.mp he
      have ha' := k.within a ha
      have hb' := hearlier b hb
      omega
  · refine List.forall_mem_append.mpr ⟨fun a ha => ?_, k.depth⟩
    rw [(hkeep a ha).2.2]
    exact h.depth a ha

end Numbers

/-- The walk through the trees of some children of an open node takes two steps for each node that these
dominate, and then goes on with the open node. The induction is on the room below the children: the
dominators of a child are one more than those of its parent, and there are no more than nodes. -/
theorem walk_numbers (g : Digraph) {entry : Nat} (room : Nat) (v : Nat) (cs : List Nat) (s : Layout)
    (hs : s.Sized g.size) (hdepth : s.depthOf v + 1 = (g.dominatorSet entry v).card)
    (hcs : ∀ c ∈ cs, (g.dominators entry).idom? c = some v) (hnodup : cs.Nodup)
    (hroom : ∀ c ∈ cs, g.size < (g.dominatorSet entry c).card + room) :
    ∃ t new, g.Numbers entry cs s t new ∧ ∀ k rest,
      Layout.walk (g.dominators entry).children (2 * new.length + k) ((v, cs) :: rest) s =
        Layout.walk (g.dominators entry).children k ((v, []) :: rest) t := by
  induction room generalizing v cs s with
  | zero =>
    cases cs with
    | nil => exact ⟨s, [], .refl hs, fun k rest => by rw [List.length_nil, Nat.mul_zero, Nat.zero_add]⟩
    | cons c cs =>
      have hlt := hroom c List.mem_cons_self
      have hle : (g.dominatorSet entry c).card ≤ g.size := card_dominatorSet_le
      omega
  | succ room ih =>
    induction cs generalizing s with
    | nil => exact ⟨s, [], .refl hs, fun k rest => by rw [List.length_nil, Nat.mul_zero, Nat.zero_add]⟩
    | cons c cs ihcs =>
      obtain ⟨hc, hcs⟩ := List.forall_mem_cons.mp hcs
      obtain ⟨hnot, hnodup⟩ := List.nodup_cons.mp hnodup
      obtain ⟨hroomc, hroom⟩ := List.forall_mem_cons.mp hroom
      have hvc := strictlyDominates_of_idom? hc
      have hcard := card_dominatorSet_idom hc
      obtain ⟨p, hp⟩ := hvc.2.1
      have hcdepth : (s.enter c (s.depthOf v + 1)).depthOf c + 1 = (g.dominatorSet entry c).card := by
        rw [hs.depthOf_enter hp.target_lt, if_pos rfl]
        omega
      obtain ⟨t, new, hnumbers, hwalk⟩ := ih c ((g.dominators entry).children c) (s.enter c (s.depthOf v + 1))
        (hs.enter _ _) hcdepth (fun d hd => mem_children.mp hd) nodup_children (fun d hd => by
          have := card_dominatorSet_idom (mem_children.mp hd)
          omega)
      have hnode := Numbers.node hs hvc.2.1 (by omega) hnumbers
      have hvnew : v ∉ c :: new := by
        intro hm
        obtain ⟨c', hc', hcv⟩ := (hnode.mem_iff v).mp hm
        obtain rfl := List.mem_singleton.mp hc'
        exact hvc.1 (hvc.2.antisymm hcv)
      have hvdepth : (t.leave c).depthOf v + 1 = (g.dominatorSet entry v).card := by
        rw [(hnode.frame v hvnew).2.2]
        exact hdepth
      obtain ⟨u, newer, hrest, hwalk'⟩ := ihcs (t.leave c) hnode.sized hvdepth hcs hnodup hroom
      refine ⟨u, (c :: new) ++ newer, hnode.cons hc hcs hnot hrest, fun k rest => ?_⟩
      have hsteps : 2 * ((c :: new) ++ newer).length + k = (2 * new.length + (2 * newer.length + k + 1)) + 1 := by
        rw [List.length_append, List.length_cons]
        omega
      rw [hsteps, Layout.walk, hwalk, Layout.walk, hwalk']

theorem layout_numbers (g : Digraph) {entry : Nat} (hentry : entry < g.size) :
    ∃ new, g.Numbers entry [entry] (.blank g.size) (g.dominators entry).layout new := by
  have hreach : g.Reaches entry entry := ⟨[entry], .nil hentry⟩
  have hcard := card_dominatorSet_entry hreach
  have hblank := Layout.sized_blank g.size
  have hdepth : ((Layout.blank g.size).enter entry 0).depthOf entry + 1 = (g.dominatorSet entry entry).card := by
    rw [hblank.depthOf_enter hentry, if_pos rfl, hcard]
  obtain ⟨t, new, hnumbers, hwalk⟩ := g.walk_numbers g.size entry ((g.dominators entry).children entry) _
    (hblank.enter entry 0) hdepth (fun c hc => mem_children.mp hc) nodup_children (fun c hc => by
      have := card_dominatorSet_pos (strictlyDominates_of_idom? (mem_children.mp hc)).2.1
      omega)
  have hnode := hnumbers.node hblank hreach (by omega)
  have hcount : (entry :: new).length ≤ g.size := by
    have hsub : (entry :: new) ⊆ List.range g.size := by
      intro x hx
      obtain ⟨c, _, hcx⟩ := (hnode.mem_iff x).mp hx
      obtain ⟨p, hp⟩ := hcx.1
      exact List.mem_range.mpr hp.target_lt
    simpa using (hnode.nodup.subperm hsub).length_le
  refine ⟨entry :: new, ?_⟩
  have hlayout : (g.dominators entry).layout = t.leave entry := by
    have hsteps : 2 * g.size = 2 * new.length + ((2 * (g.size - (entry :: new).length) + 1) + 1) := by
      rw [List.length_cons] at hcount ⊢
      omega
    change Layout.ofTree g.size entry (g.dominators entry).children = _
    rw [Layout.ofTree, hsteps, hwalk, Layout.walk, Layout.walk]
  rw [hlayout]
  exact hnode

theorem layout_encloses (g : Digraph) {entry a b : Nat} (ha : g.Reaches entry a) (hb : g.Reaches entry b) :
    (g.dominators entry).layout.encloses a b = true ↔ g.Dominates entry a b := by
  obtain ⟨p, hp⟩ := ha
  obtain ⟨new, h⟩ := g.layout_numbers hp.source_lt
  have hall : ∀ {x}, g.Reaches entry x → x ∈ new := fun hx =>
    (h.mem_iff _).mpr ⟨entry, List.mem_singleton_self entry, .entry_left hx⟩
  exact h.encloses_iff a (hall ⟨p, hp⟩) b (hall hb)

theorem layout_depth (g : Digraph) {entry v : Nat} (hv : g.Reaches entry v) :
    (g.dominators entry).layout.depthOf v + 1 = (g.dominatorSet entry v).card := by
  obtain ⟨p, hp⟩ := hv
  obtain ⟨new, h⟩ := g.layout_numbers hp.source_lt
  exact h.depth v ((h.mem_iff v).mpr ⟨entry, List.mem_singleton_self entry, .entry_left ⟨p, hp⟩⟩)

end Digraph

end GuardElision
