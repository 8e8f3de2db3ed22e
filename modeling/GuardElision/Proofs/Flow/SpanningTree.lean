import GuardElision.Flow.SpanningTree
import GuardElision.Proofs.Flow.Search

namespace GuardElision

/-- `a` is `b` or stands above it in a tree. -/
inductive Anc (parent : Nat → Option Nat) (a : Nat) : Nat → Prop where
  | refl : Anc parent a a
  | down {b c : Nat} : parent c = some b → Anc parent a b → Anc parent a c

namespace Anc

variable {parent parent' : Nat → Option Nat} {a b c : Nat}

theorem trans (h : Anc parent a b) (k : Anc parent b c) : Anc parent a c := by
  induction k with
  | refl => exact h
  | down hp _ ih => exact ih.down hp

theorem mono (hsub : ∀ v p, parent v = some p → parent' v = some p) (h : Anc parent a b) : Anc parent' a b := by
  induction h with
  | refl => exact .refl
  | down hp _ ih => exact ih.down (hsub _ _ hp)

/-- A node strictly above another stands above the other's parent. -/
theorem up (h : Anc parent a b) (hne : a ≠ b) : ∃ p, parent b = some p ∧ Anc parent a p := by
  cases h with
  | refl => exact absurd rfl hne
  | down hp h => exact ⟨_, hp, h⟩

/-- A node strictly above another has a child that stands above it. -/
theorem exists_child (h : Anc parent a b) (hne : a ≠ b) : ∃ c, parent c = some a ∧ Anc parent c b := by
  induction h with
  | refl => exact absurd rfl hne
  | @down b c hp h ih =>
    by_cases hab : a = b
    · exact ⟨c, hab ▸ hp, .refl⟩
    · obtain ⟨d, hd, hdb⟩ := ih hab
      exact ⟨d, hd, hdb.down hp⟩

end Anc

/-- The numbers and the parents of the nodes that a search has met so far. The nodes below one have the
numbers that follow its own, and an edge to a higher number stays below its source. -/
structure Grown (g : Digraph) (entry : Nat) (num : Nat → Nat) (parent : Nat → Option Nat) : Prop where
  lt_size : ∀ v, num v ≠ 0 → v < g.size
  inj : ∀ v w, num v ≠ 0 → num v = num w → v = w
  num_entry : num entry = 1
  parent_spec : ∀ w p, parent w = some p → num p ≠ 0 ∧ num p < num w ∧ w ∈ g.succ p
  exists_parent : ∀ w, num w ≠ 0 → w ≠ entry → ∃ p, parent w = some p
  between : ∀ a b c, Anc parent a c → num a ≠ 0 → num a ≤ num b → num b ≤ num c → Anc parent a b
  edge : ∀ v w, num v ≠ 0 → w ∈ g.succ v → num v < num w → Anc parent v w

/-- What waits on the stack: successors of nodes on one way down, and every node above which all that was met
later stands. -/
structure Stacked (g : Digraph) (num : Nat → Nat) (parent : Nat → Option Nat) (stack : List (Nat × Option Nat)) :
    Prop where
  origin : ∀ e ∈ stack, ∃ f, e.2 = some f ∧ num f ≠ 0 ∧ e.1 ∈ g.succ f ∧ ∀ x, num f ≤ num x → Anc parent f x
  falling : stack.Pairwise fun e e' => ∀ f f', e.2 = some f → e'.2 = some f' → num f' ≤ num f
  waiting : ∀ v w, num v ≠ 0 → w ∈ g.succ v → w < g.size → num w = 0 → (w, some v) ∈ stack

section

variable {g : Digraph} {entry f k v : Nat} {num : Nat → Nat} {parent : Nat → Option Nat} {a b : Nat}

theorem Grown.num_le (h : Grown g entry num parent) (hab : Anc parent a b) : num a ≤ num b := by
  induction hab with
  | refl => exact Nat.le_refl _
  | down hp _ ih => exact ih.trans (h.parent_spec _ _ hp).2.1.le

/-- What stands above a node that was met before does so already. -/
theorem Grown.anc_of_update (h : Grown g entry num parent) (hb : num b ≠ 0) (hv : num v = 0)
    (hab : Anc (Function.update parent v (some f)) a b) : Anc parent a b := by
  induction hab with
  | refl => exact .refl
  | @down b c hp _ ih =>
    have hcv : c ≠ v := fun he => hb (he ▸ hv)
    rw [Function.update_of_ne hcv] at hp
    exact (ih (h.parent_spec c b hp).1).down hp

/-- The unmarked successors of the node with the highest number go on the stack. -/
theorem Stacked.push {stack : List (Nat × Option Nat)} {marked : Nat → Bool}
    (horigin : ∀ e ∈ stack, ∃ x, e.2 = some x ∧ num x ≠ 0 ∧ num x ≤ num v ∧ e.1 ∈ g.succ x ∧
      ∀ y, num x ≤ num y → Anc parent x y)
    (hfalling : stack.Pairwise fun e e' => ∀ f f', e.2 = some f → e'.2 = some f' → num f' ≤ num f)
    (hwaiting : ∀ x w, x ≠ v → num x ≠ 0 → w ∈ g.succ x → w < g.size → num w = 0 → (w, some x) ∈ stack)
    (htop : ∀ x, num v ≤ num x → x = v) (hv : num v ≠ 0)
    (hmarked : ∀ u, marked u = false ↔ u < g.size ∧ num u = 0) :
    Stacked g num parent (Digraph.pushUnmarked marked (·, some v) (g.succ v) stack) := by
  have hpushed : ∀ {e}, e ∈ (((g.succ v).filter (!marked ·)).map (·, some v)).reverse → e.1 ∈ g.succ v ∧ e.2 = some v := by
    intro e he
    obtain ⟨u, hu, rfl⟩ := List.mem_map.mp (List.mem_reverse.mp he)
    exact ⟨List.mem_of_mem_filter hu, rfl⟩
  rw [Digraph.pushUnmarked_eq]
  refine ⟨fun e he => ?_, List.pairwise_append.mpr ⟨?_, hfalling, ?_⟩, fun x w hx hw hwlt hw0 => ?_⟩
  · rcases List.mem_append.mp he with he | he
    · obtain ⟨hmem, ho⟩ := hpushed he
      exact ⟨v, ho, hv, hmem, fun y hy => htop y hy ▸ .refl⟩
    · obtain ⟨x, ho, hx, _, hmem, habove⟩ := horigin e he
      exact ⟨x, ho, hx, hmem, habove⟩
  · refine List.pairwise_of_forall_mem_list fun e he e' he' x x' hx hx' => ?_
    rw [(hpushed he).2, Option.some.injEq] at hx
    rw [(hpushed he').2, Option.some.injEq] at hx'
    rw [← hx, ← hx']
  · intro e he e' he' x x' hx hx'
    obtain ⟨y, hy, _, hle, _⟩ := horigin e' he'
    rw [(hpushed he).2, Option.some.injEq] at hx
    cases hx'.symm.trans hy
    exact hx ▸ hle
  · refine List.mem_append.mpr ?_
    by_cases hxv : x = v
    · refine Or.inl (List.mem_reverse.mpr (List.mem_map.mpr ⟨w, List.mem_filter.mpr ⟨hxv ▸ hw, ?_⟩, by rw [hxv]⟩))
      simpa using (hmarked w).mpr ⟨hwlt, hw0⟩
    · exact Or.inr (hwaiting x w hxv hx hw hwlt hw0)

/-- A node that is met already can be dropped from the stack. -/
theorem Stacked.pop {e : Nat × Option Nat} {stack : List (Nat × Option Nat)} (h : Stacked g num parent (e :: stack))
    (he : e.1 < g.size → num e.1 ≠ 0) : Stacked g num parent stack := by
  refine ⟨fun e' he' => h.origin e' (List.mem_cons_of_mem e he'), (List.pairwise_cons.mp h.falling).2,
    fun x w hx hw hlt hw0 => ?_⟩
  refine (List.mem_cons.mp (h.waiting x w hx hw hlt hw0)).resolve_left ?_
  rintro rfl
  exact he hlt hw0

section

variable {stack : List (Nat × Option Nat)} (h : Grown g entry num parent)
  (hstack : Stacked g num parent ((v, some f) :: stack)) (hv : num v = 0)

include h hv in
theorem Grown.anc_update (hab : Anc parent a b) : Anc (Function.update parent v (some f)) a b := by
  refine hab.mono fun w p hp => ?_
  have hless := (h.parent_spec w p hp).2.1
  rwa [Function.update_of_ne]
  rintro rfl
  omega

include h hstack hv in
/-- All nodes above which the stack promises what is met later stand above the node on top. -/
theorem Stacked.anc_top {w x : Nat} (hx : (w, some x) ∈ (v, some f) :: stack) :
    Anc (Function.update parent v (some f)) x v := by
  have hfv : Anc (Function.update parent v (some f)) f v := .down (Function.update_self ..) .refl
  rcases List.mem_cons.mp hx with he | hx
  · cases he
    exact hfv
  · obtain ⟨_, he, _, _, habove⟩ := hstack.origin _ (List.mem_cons_of_mem _ hx)
    cases he
    have hle := (List.pairwise_cons.mp hstack.falling).1 _ hx f x rfl rfl
    exact (h.anc_update hv (habove f hle)).trans hfv

variable (hlt : v < g.size) (hk : ∀ x, num x < k)

include hk in
theorem eq_of_update_le {x : Nat} (hx : Function.update num v k v ≤ Function.update num v k x) : x = v := by
  by_contra hne
  have := hk x
  rw [Function.update_self, Function.update_of_ne hne] at hx
  omega

include h hstack hv hk in
/-- The nodes numbered between `x` and a node below `x` stay below `x` when `v` gets the highest number. -/
theorem Grown.between_update {x y z : Nat} (hxz : Anc (Function.update parent v (some f)) x z)
    (hx : Function.update num v k x ≠ 0) (hxy : Function.update num v k x ≤ Function.update num v k y)
    (hyz : Function.update num v k y ≤ Function.update num v k z) : Anc (Function.update parent v (some f)) x y := by
  obtain ⟨_, he, hf, _, habove⟩ := hstack.origin _ List.mem_cons_self
  cases he
  by_cases hyv : y = v
  · rw [hyv] at hyz ⊢
    exact eq_of_update_le hk hyz ▸ hxz
  · have hxv : x ≠ v := by
      rintro rfl
      exact hyv (eq_of_update_le hk hxy)
    rw [Function.update_of_ne hxv] at hx hxy
    rw [Function.update_of_ne hyv] at hxy hyz
    refine h.anc_update hv ?_
    by_cases hzv : z = v
    · rw [hzv] at hxz
      obtain ⟨p, hp, hxp⟩ := hxz.up hxv
      rw [Function.update_self, Option.some.injEq] at hp
      subst hp
      have hxf := h.anc_of_update hf hv hxp
      by_cases hyf : num y ≤ num f
      · exact h.between x y f hxf hx hxy hyf
      · exact hxf.trans (habove y (by omega))
    · rw [Function.update_of_ne hzv] at hyz
      exact h.between x y z (h.anc_of_update (by omega) hv hxz) hx hxy hyz

include h hstack hv hlt hk in
/-- An edge to a node with a higher number still leads down the tree. -/
theorem Grown.edge_update {x w : Nat} (hx : Function.update num v k x ≠ 0) (hw : w ∈ g.succ x)
    (hxw : Function.update num v k x < Function.update num v k w) : Anc (Function.update parent v (some f)) x w := by
  have hxv : x ≠ v := by
    rintro rfl
    exact hxw.ne (congrArg _ (eq_of_update_le hk hxw.le).symm)
  rw [Function.update_of_ne hxv] at hx hxw
  by_cases hwv : w = v
  · rw [hwv] at hw ⊢
    exact hstack.anc_top h hv (hstack.waiting x v hx hw hlt hv)
  · rw [Function.update_of_ne hwv] at hxw
    exact h.anc_update hv (h.edge x w hx hw hxw)

include h hstack hv hlt hk in
/-- The node on top of the stack gets the next number. -/
theorem Grown.meet : Grown g entry (Function.update num v k) (Function.update parent v (some f)) := by
  obtain ⟨_, he, hf, hvf, _⟩ := hstack.origin _ List.mem_cons_self
  cases he
  have hold : ∀ {x}, x ≠ v → Function.update num v k x = num x := fun hx => Function.update_of_ne hx ..
  have hne : ∀ {x}, num x ≠ 0 → x ≠ v := fun hx he => hx (he ▸ hv)
  refine ⟨fun x hx => ?_, fun x y hx hxy => ?_, ?_, fun w p hp => ?_, fun w hw hwe => ?_,
    fun x y z hxz hx hxy hyz => h.between_update hstack hv hk hxz hx hxy hyz,
    fun x w hx hw hxw => h.edge_update hstack hv hlt hk hx hw hxw⟩
  · by_cases hxv : x = v
    · exact hxv ▸ hlt
    · exact h.lt_size x (hold hxv ▸ hx)
  · by_cases hxv : x = v
    · rw [hxv] at hxy ⊢
      exact (eq_of_update_le hk hxy.le).symm
    · have hyv : y ≠ v := by
        rintro rfl
        exact hxv (eq_of_update_le hk hxy.ge)
      rw [hold hxv] at hx hxy
      rw [hold hyv] at hxy
      exact h.inj x y hx hxy
  · have hentry : entry ≠ v := hne (by simp [h.num_entry])
    rw [hold hentry, h.num_entry]
  · by_cases hwv : w = v
    · rw [hwv, Function.update_self, Option.some.injEq] at hp
      rw [hwv, ← hp, Function.update_self, hold (hne hf)]
      exact ⟨hf, hk f, hvf⟩
    · rw [Function.update_of_ne hwv] at hp
      obtain ⟨hp0, hpw, hmem⟩ := h.parent_spec w p hp
      rw [hold (hne hp0), hold hwv]
      exact ⟨hp0, hpw, hmem⟩
  · by_cases hwv : w = v
    · exact ⟨f, hwv ▸ Function.update_self ..⟩
    · rw [hold hwv] at hw
      rw [Function.update_of_ne hwv]
      exact h.exists_parent w hw hwe

include h hstack hv hk in
theorem Stacked.meet {marked : Nat → Bool}
    (hmarked : ∀ u, marked u = false ↔ u < g.size ∧ Function.update num v k u = 0) :
    Stacked g (Function.update num v k) (Function.update parent v (some f))
      (Digraph.pushUnmarked marked (·, some v) (g.succ v) stack) := by
  have hold : ∀ {x}, x ≠ v → Function.update num v k x = num x := fun hx => Function.update_of_ne hx ..
  have hnew : Function.update num v k v = k := Function.update_self ..
  have hne : ∀ {x}, num x ≠ 0 → x ≠ v := fun hx he => hx (he ▸ hv)
  have hvk := hk v
  have horigin : ∀ e ∈ stack, ∃ x, e.2 = some x ∧ x ≠ v ∧ num x ≠ 0 ∧ e.1 ∈ g.succ x ∧
      ∀ y, num x ≤ Function.update num v k y → Anc (Function.update parent v (some f)) x y := by
    rintro ⟨w, o⟩ he
    obtain ⟨x, rfl, hx, hwx, habove⟩ := hstack.origin _ (List.mem_cons_of_mem _ he)
    refine ⟨x, rfl, hne hx, hx, hwx, fun y hy => ?_⟩
    by_cases hyv : y = v
    · exact hyv ▸ hstack.anc_top h hv (List.mem_cons_of_mem _ he)
    · exact h.anc_update hv (habove y (hold hyv ▸ hy))
  refine .push (fun e he => ?_) ?_ (fun x w hxv hx hw hwlt hw0 => ?_) (fun x hx => ?_) (by omega) hmarked
  · obtain ⟨x, ho, hxv, hx, hmem, habove⟩ := horigin e he
    rw [← hold hxv] at hx habove
    exact ⟨x, ho, hx, by rw [hnew, hold hxv]; exact (hk x).le, hmem, habove⟩
  · refine (List.pairwise_cons.mp hstack.falling).2.imp_of_mem fun he he' hle x x' hx hx' => ?_
    obtain ⟨y, hy, hyv, _⟩ := horigin _ he
    obtain ⟨y', hy', hyv', _⟩ := horigin _ he'
    cases hx.symm.trans hy
    cases hx'.symm.trans hy'
    rw [hold hyv, hold hyv']
    exact hle x x' hx hx'
  · have hwv : w ≠ v := by
      rintro rfl
      omega
    rw [hold hxv] at hx
    rw [hold hwv] at hw0
    exact (List.mem_cons.mp (hstack.waiting x w hx hw hwlt hw0)).resolve_left fun he => hwv (congrArg Prod.fst he)
  · exact eq_of_update_le hk hx

end

/-- The first node is the entry, which has no parent. -/
theorem grown_entry (hentry : entry < g.size) : Grown g entry (Function.update (fun _ => 0) entry 1) fun _ => none := by
  have hmet : ∀ {x}, Function.update (fun _ => 0) entry 1 x ≠ 0 → x = entry := by
    intro x hx
    by_contra hne
    exact hx (Function.update_of_ne hne ..)
  refine ⟨fun x hx => hmet hx ▸ hentry, fun x y hx hxy => ?_, Function.update_self .., nofun, fun w hw hne => ?_,
    fun x y z _ hx hxy _ => ?_, fun x w hx _ hxw => ?_⟩
  · exact (hmet hx).trans (hmet (x := y) (hxy ▸ hx)).symm
  · exact absurd (hmet hw) hne
  · rw [hmet hx, hmet (by omega : Function.update (fun _ => 0) entry 1 y ≠ 0)]
    exact .refl
  · rw [hmet hx, hmet (Nat.ne_zero_of_lt hxw)]
    exact .refl

theorem stacked_entry {marked : Nat → Bool}
    (hmarked : ∀ u, marked u = false ↔ u < g.size ∧ Function.update (fun _ => 0) entry 1 u = 0) :
    Stacked g (Function.update (fun _ => 0) entry 1) (fun _ => none)
      (Digraph.pushUnmarked marked (·, some entry) (g.succ entry) []) := by
  have hnum : Function.update (fun _ => 0) entry 1 entry = 1 := Function.update_self ..
  refine .push (by simp) .nil (fun x w hne hx => absurd (Function.update_of_ne hne ..) hx) (fun x hx => ?_)
    (by omega) hmarked
  by_contra hne
  rw [hnum, Function.update_of_ne hne] at hx
  omega

end

namespace SpanningTree

variable {g : Digraph} {entry : Nat} {t : SpanningTree g.size} {u v w x : Nat}

theorem hasMet_eq_false : t.hasMet v = false ↔ v < g.size ∧ t.number.read v = 0 := by
  simp [hasMet]

theorem number_meet (hv : v < g.size) (origin : Option Nat) :
    (t.meet g v origin).number.read = Function.update t.number.read v (t.met.length + 1) := by
  funext x
  rw [meet, Table.read_write _ hv, Function.update_apply]

theorem parent_meet (hv : v < g.size) (origin : Option Nat) :
    (t.meet g v origin).parent.read = Function.update t.parent.read v origin := by
  funext x
  rw [meet, Table.read_write _ hv, Function.update_apply]

theorem mem_preds_meet (hw : w < g.size) (origin : Option Nat) :
    x ∈ (t.meet g v origin).preds.read w ↔ x ∈ t.preds.read w ∨ x = v ∧ w ∈ g.succ v := by
  have hfold : ∀ (us : List Nat) (preds : Table g.size (List Nat)),
      x ∈ (us.foldl (fun preds u => preds.write u (preds.read u ++ [v])) preds).read w ↔
        x ∈ preds.read w ∨ x = v ∧ w ∈ us := by
    intro us
    induction us with
    | nil => simp
    | cons u us ih =>
      intro preds
      rw [List.foldl_cons, ih, List.mem_cons]
      by_cases hwu : w = u
      · rw [← hwu, Table.read_write_self _ hw, List.mem_append, List.mem_singleton]
        tauto
      · rw [Table.read_write_of_ne _ hwu]
        tauto
  exact hfold (g.succ v) t.preds

/-- The nodes in the order of their numbers, and the edges between them. -/
structure Listed (g : Digraph) (t : SpanningTree g.size) : Prop where
  numbers : t.met.map t.number.read = (List.range' 1 t.met.length).reverse
  mem_met : ∀ v, v ∈ t.met ↔ t.number.read v ≠ 0
  mem_preds : ∀ v w, w < g.size → (v ∈ t.preds.read w ↔ t.number.read v ≠ 0 ∧ w ∈ g.succ v)

theorem Listed.number_lt (h : t.Listed g) (v : Nat) : t.number.read v < t.met.length + 1 := by
  by_cases hv : t.number.read v = 0
  · omega
  · have hmem := List.mem_map_of_mem (f := t.number.read) ((h.mem_met v).mpr hv)
    rw [h.numbers, List.mem_reverse, List.mem_range'_1] at hmem
    omega

theorem Listed.meet (h : t.Listed g) (hlt : v < g.size) (hv : t.number.read v = 0) (origin : Option Nat) :
    (t.meet g v origin).Listed g where
  numbers := by
    have hold : t.met.map (Function.update t.number.read v (t.met.length + 1)) = t.met.map t.number.read := by
      refine List.map_congr_left fun x hx => Function.update_of_ne ?_ ..
      rintro rfl
      exact (h.mem_met x).mp hx hv
    rw [number_meet hlt, SpanningTree.meet, List.map_cons, Function.update_self, hold, h.numbers, List.length_cons,
      List.range'_1_concat, List.reverse_append, Nat.add_comm 1]
    rfl
  mem_met x := by
    rw [number_meet hlt, SpanningTree.meet, List.mem_cons, h.mem_met]
    by_cases hx : x = v <;> simp [hx]
  mem_preds x w hw := by
    rw [mem_preds_meet hw, h.mem_preds x w hw, number_meet hlt]
    by_cases hx : x = v <;> simp [hx, hv]

/-- The nodes not met yet. -/
def unmet (t : SpanningTree g.size) : Finset Nat :=
  (Finset.range g.size).filter (t.number.read · = 0)

theorem mem_unmet : v ∈ t.unmet ↔ v < g.size ∧ t.number.read v = 0 := by
  rw [unmet, Finset.mem_filter, Finset.mem_range]

theorem unmet_meet (hlt : v < g.size) (origin : Option Nat) : (t.meet g v origin).unmet = t.unmet.erase v := by
  ext x
  simp only [mem_unmet, number_meet hlt, Finset.mem_erase]
  by_cases hx : x = v <;> simp [hx]

structure Searching (g : Digraph) (entry : Nat) (w : List (Nat × Option Nat) × SpanningTree g.size) : Prop where
  grown : Grown g entry w.2.number.read w.2.parent.read
  stacked : Stacked g w.2.number.read w.2.parent.read w.1
  listed : w.2.Listed g

theorem Searching.step {w w' : List (Nat × Option Nat) × SpanningTree g.size} (h : Searching g entry w)
    (hstep : step g w = .inl w') :
    Searching g entry w' ∧ w'.1.length + g.roomOf w'.2.unmet < w.1.length + g.roomOf w.2.unmet := by
  unfold SpanningTree.step at hstep
  split at hstep
  next => cases hstep
  next v origin stack t =>
    split at hstep
    next hmet =>
      cases hstep
      refine ⟨⟨h.grown, h.stacked.pop fun hlt h0 => ?_, h.listed⟩, by simp⟩
      rw [hasMet_eq_false.mpr ⟨hlt, h0⟩] at hmet
      cases hmet
    next hmet =>
      cases hstep
      obtain ⟨hlt, hv⟩ := hasMet_eq_false.mp (Bool.eq_false_iff.mpr hmet)
      obtain ⟨f, rfl, _⟩ := h.stacked.origin _ List.mem_cons_self
      have hmarked := fun u => (hasMet_eq_false (t := t.meet g v (some f)) (v := u))
      refine ⟨⟨?_, ?_, h.listed.meet hlt hv (some f)⟩, ?_⟩
      · rw [number_meet hlt, parent_meet hlt]
        exact h.grown.meet h.stacked hv hlt h.listed.number_lt
      · simp only [number_meet hlt, parent_meet hlt] at hmarked ⊢
        exact h.stacked.meet h.grown hv h.listed.number_lt hmarked
      · have hlength := (g.succ v).length_filter_le (!(t.meet g v (some f)).hasMet ·)
        have hroom := Digraph.roomOf_erase (g := g) (mem_unmet.mpr ⟨hlt, hv⟩)
        simp only [Digraph.pushUnmarked_eq, List.length_append, List.length_reverse, List.length_map, List.length_cons,
          unmet_meet hlt] at hlength ⊢
        omega

theorem step_eq_inr {w : List (Nat × Option Nat) × SpanningTree g.size} (h : step g w = .inr t) :
    w.1 = [] ∧ w.2 = t := by
  unfold step at h
  split at h
  next => exact ⟨rfl, Sum.inr.inj h⟩
  next => split at h <;> cases h

theorem Searching.begin (hentry : entry < g.size) :
    Searching g entry (Digraph.pushUnmarked ((blank g.size).meet g entry none).hasMet (·, some entry) (g.succ entry) [],
      (blank g.size).meet g entry none) := by
  have hnum : (blank g.size).number.read = fun _ => 0 := funext (Table.read_fill g.size)
  have hparent : (blank g.size).parent.read = fun _ => none := funext (Table.read_fill g.size)
  have hpreds : (blank g.size).preds.read = fun _ => [] := funext (Table.read_fill g.size)
  have hblank : (blank g.size).Listed g := by
    refine ⟨rfl, fun v => ?_, fun v w _ => ?_⟩ <;> rw [hnum]
    · simp [blank]
    · simp [hpreds]
  have hmarked := fun u => hasMet_eq_false (t := (blank g.size).meet g entry none) (v := u)
  simp only [number_meet hentry, hnum] at hmarked
  refine ⟨?_, ?_, hblank.meet hentry (congrFun hnum entry) none⟩
  · simp only [number_meet hentry, parent_meet hentry, hnum, hparent, Function.update_eq_self]
    exact grown_entry hentry
  · simp only [number_meet hentry, parent_meet hentry, hnum, hparent, Function.update_eq_self]
    exact stacked_entry hmarked

theorem Listed.number_le (h : t.Listed g) (hgrown : Grown g entry t.number.read t.parent.read) (v : Nat) :
    t.number.read v ≤ g.size := by
  have hnodup : t.met.Nodup := by
    refine List.Nodup.of_map t.number.read ?_
    rw [h.numbers, List.nodup_reverse]
    exact List.nodup_range'
  have hsub : t.met ⊆ List.range g.size := fun x hx =>
    List.mem_range.mpr (hgrown.lt_size x ((h.mem_met x).mp hx))
  have hlength := (hnodup.subperm hsub).length_le
  have hlt := h.number_lt v
  rw [List.length_range] at hlength
  omega

/-- The entry was met first. -/
theorem Listed.exists_met (h : t.Listed g) (hgrown : Grown g entry t.number.read t.parent.read) :
    ∃ ws, t.met = ws ++ [entry] := by
  have hmem : entry ∈ t.met := (h.mem_met entry).mpr (by simp [hgrown.num_entry])
  obtain ⟨ws, x, hws⟩ := List.eq_nil_or_concat t.met |>.resolve_left (List.ne_nil_of_mem hmem)
  have hnumbers := h.numbers
  rw [hws, List.concat_eq_append, List.map_append, List.length_append] at hnumbers
  have hx := congrArg List.getLast? hnumbers
  rw [List.getLast?_reverse] at hx
  have hx : t.number.read x = 1 := by simpa [List.range'_succ] using hx
  refine ⟨ws, ?_⟩
  rw [hws, List.concat_eq_append, hgrown.inj x entry (by omega) (hx.trans hgrown.num_entry.symm)]

end SpanningTree

/-- The numbers and parents that a search from the entry ends with: every reachable node has a number. -/
structure Spans (g : Digraph) (entry : Nat) (num : Nat → Nat) (parent : Nat → Option Nat) : Prop
    extends Grown g entry num parent where
  closed : ∀ v w, num v ≠ 0 → w ∈ g.succ v → w < g.size → num w ≠ 0

theorem Digraph.spanningTree_spans (g : Digraph) {entry : Nat} (hentry : entry < g.size) :
    Spans g entry (g.spanningTree entry).number.read (g.spanningTree entry).parent.read ∧
      (g.spanningTree entry).Listed g := by
  obtain ⟨t, hrun, hgrown, hstacked, hlisted⟩ := Loop.exists_run (SpanningTree.step g)
    (SpanningTree.Searching g entry) (fun t => SpanningTree.Searching g entry ([], t))
    (fun w => w.1.length + g.roomOf w.2.unmet) (g.room + 1) (fun w w' hw hstep => hw.step hstep)
    (fun w t hw hstep => by
      obtain ⟨hdone, rfl⟩ := SpanningTree.step_eq_inr hstep
      exact hdone ▸ hw)
    (.begin hentry) (by
      have hblank : entry ∈ (SpanningTree.blank g.size).unmet :=
        SpanningTree.mem_unmet.mpr ⟨hentry, Table.read_fill g.size entry⟩
      have hroom : g.roomOf (SpanningTree.blank g.size).unmet ≤ g.room := roomOf_le_room (Finset.filter_subset _ _)
      have herase := roomOf_erase (g := g) hblank
      have hlength := (g.succ entry).length_filter_le (!((SpanningTree.blank g.size).meet g entry none).hasMet ·)
      simp only [pushUnmarked_eq, List.length_append, List.length_reverse, List.length_map, List.length_nil,
        SpanningTree.unmet_meet hentry]
      omega)
  have ht : g.spanningTree entry = t := by
    have hfresh : (SpanningTree.blank g.size).hasMet entry = false :=
      SpanningTree.hasMet_eq_false.mpr ⟨hentry, Table.read_fill g.size entry⟩
    rw [spanningTree, Loop.run, SpanningTree.step, hfresh]
    exact congrArg (Option.getD · _) hrun
  rw [ht]
  refine ⟨⟨hgrown, fun v w hv hw hlt hw0 => ?_⟩, hlisted⟩
  simpa using hstacked.waiting v w hv hw hlt hw0

end GuardElision
