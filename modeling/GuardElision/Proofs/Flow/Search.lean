import GuardElision.Flow.Digraph
import Mathlib.Algebra.Order.BigOperators.Group.Finset
import Mathlib.Data.Finset.Card
import Mathlib.Data.Finset.Range

namespace GuardElision

namespace Digraph

/-- A path from `a`, with its nodes from the last to the first. Edges that leave the graph do not
count. -/
inductive Path (g : Digraph) (a : Nat) : Nat → List Nat → Prop where
  | nil : a < g.size → Path g a a [a]
  | snoc {b c : Nat} {p : List Nat} : Path g a b p → c ∈ g.succ b → c < g.size → Path g a c (c :: p)

/-- Some path leads from `a` to `b`. -/
def Reaches (g : Digraph) (a b : Nat) : Prop :=
  ∃ p, g.Path a b p

namespace Path

variable {g : Digraph} {a b c : Nat} {p q : List Nat}

theorem source_mem (h : g.Path a b p) : a ∈ p := by
  induction h with
  | nil => simp
  | snoc _ _ _ ih => exact List.mem_cons_of_mem _ ih

theorem target_mem (h : g.Path a b p) : b ∈ p := by
  cases h <;> simp

theorem source_lt (h : g.Path a b p) : a < g.size := by
  induction h with
  | nil hs => exact hs
  | snoc _ _ _ ih => exact ih

theorem target_lt (h : g.Path a b p) : b < g.size := by
  cases h with
  | nil hs => exact hs
  | snoc _ _ hs => exact hs

theorem lt_of_mem (h : g.Path a b p) {x : Nat} (hx : x ∈ p) : x < g.size := by
  induction h with
  | nil hs => simp_all
  | snoc _ _ hs ih =>
    rcases List.mem_cons.mp hx with rfl | hx
    · exact hs
    · exact ih hx

theorem append (h : g.Path a b p) (k : g.Path b c q) : g.Path a c (q.dropLast ++ p) := by
  induction k with
  | nil => simpa using h
  | snoc hk hm hs ih =>
    have hne := List.ne_nil_of_mem hk.source_mem
    rw [List.dropLast_cons_of_ne_nil hne]
    exact ih.snoc hm hs

theorem mem_append (h : g.Path a b p) (k : g.Path b c q) {x : Nat} :
    x ∈ q.dropLast ++ p ↔ x ∈ p ∨ x ∈ q := by
  induction k with
  | nil =>
    have := h.target_mem
    simp only [List.dropLast_singleton, List.nil_append, List.mem_singleton]
    exact ⟨Or.inl, fun hx => hx.elim id fun he => he ▸ this⟩
  | snoc hk hm hs ih =>
    have hne := List.ne_nil_of_mem hk.source_mem
    rw [List.dropLast_cons_of_ne_nil hne, List.cons_append, List.mem_cons, ih, List.mem_cons]
    tauto

/-- A path can be cut at any of its nodes. -/
theorem split (h : g.Path a b p) {x : Nat} (hx : x ∈ p) :
    ∃ q r, g.Path a x q ∧ g.Path x b r ∧ (∀ y ∈ q, y ∈ p) ∧ ∀ y ∈ r, y ∈ p := by
  induction h with
  | nil hs =>
    have he : x = a := by simpa using hx
    subst he
    exact ⟨[x], [x], .nil hs, .nil hs, by simp, by simp⟩
  | snoc hp hm hs ih =>
    rcases List.mem_cons.mp hx with rfl | hx
    · exact ⟨_, [x], hp.snoc hm hs, .nil hs, fun _ hy => hy, by simp⟩
    · obtain ⟨q, r, hq, hr, hqp, hrp⟩ := ih hx
      refine ⟨q, _, hq, hr.snoc hm hs, fun y hy => List.mem_cons_of_mem _ (hqp y hy), ?_⟩
      intro y hy
      rcases List.mem_cons.mp hy with rfl | hy
      · exact List.mem_cons_self
      · exact List.mem_cons_of_mem _ (hrp y hy)

theorem takeFirst (h : g.Path a b p) {P : Nat → Prop} (hP : ∃ x ∈ p, P x) :
    ∃ x q, P x ∧ g.Path a x (x :: q) ∧ (∀ y ∈ q, ¬P y) ∧ ∀ y ∈ q, y ∈ p := by
  induction h with
  | nil hs =>
    have ha : P a := by simpa using hP
    exact ⟨a, [], ha, .nil hs, by simp, by simp⟩
  | @snoc b c p hp hm hs ih =>
    by_cases hc : ∃ x ∈ p, P x
    · obtain ⟨x, q, hx, hq, hn, hsub⟩ := ih hc
      exact ⟨x, q, hx, hq, hn, fun y hy => List.mem_cons_of_mem _ (hsub y hy)⟩
    · obtain ⟨x, hxp, hx⟩ := hP
      have he : x = c := (List.mem_cons.mp hxp).resolve_right fun hm => hc ⟨x, hm, hx⟩
      subst he
      exact ⟨x, p, hx, hp.snoc hm hs, fun y hy hPy => hc ⟨y, hy, hPy⟩,
        fun y hy => List.mem_cons_of_mem _ hy⟩

theorem dropToLast (h : g.Path a b p) {P : Nat → Prop} (hP : ∃ x ∈ p, P x) :
    ∃ x q, P x ∧ g.Path x b (q ++ [x]) ∧ (∀ y ∈ q, ¬P y) ∧ ∀ y ∈ q, y ∈ p := by
  induction h with
  | nil hs =>
    have ha : P a := by simpa using hP
    exact ⟨a, [], ha, .nil hs, by simp, by simp⟩
  | @snoc b c p hp hm hs ih =>
    by_cases hc : P c
    · exact ⟨c, [], hc, .nil hs, by simp, by simp⟩
    · obtain ⟨x, hxp, hx⟩ := hP
      have hxc : x ≠ c := fun he => hc (he ▸ hx)
      obtain ⟨z, q, hz, hq, hn, hsub⟩ := ih ⟨x, (List.mem_cons.mp hxp).resolve_left hxc, hx⟩
      refine ⟨z, c :: q, hz, hq.snoc hm hs, by simpa [hc] using hn, ?_⟩
      intro y hy
      rcases List.mem_cons.mp hy with rfl | hy
      · exact List.mem_cons_self
      · exact List.mem_cons_of_mem _ (hsub y hy)

end Path

theorem Reaches.snoc {g : Digraph} {a b c : Nat} (h : g.Reaches a b) (hc : c ∈ g.succ b) (hlt : c < g.size) :
    g.Reaches a c := by
  obtain ⟨p, hp⟩ := h
  exact ⟨c :: p, hp.snoc hc hlt⟩

theorem Reaches.lt {g : Digraph} {a b : Nat} (h : g.Reaches a b) : b < g.size := by
  obtain ⟨p, hp⟩ := h
  exact hp.target_lt

namespace Marks

theorem size_add (m : Marks) (v : Nat) : (m.add v).bits.size = m.bits.size := by
  simp [add]

theorem lt_of_has_eq_false {m : Marks} {v : Nat} (h : m.has v = false) : v < m.bits.size := by
  by_contra hv
  simp [has, Array.getD, hv] at h

/-- The nodes without a mark. -/
def free (m : Marks) : Finset Nat :=
  (Finset.range m.bits.size).filter (m.has · = false)

theorem mem_free {m : Marks} {v : Nat} : v ∈ m.free ↔ m.has v = false := by
  simp only [free, Finset.mem_filter, Finset.mem_range, and_iff_right_iff_imp]
  exact lt_of_has_eq_false

theorem card_free_le_size (m : Marks) : m.free.card ≤ m.bits.size := by
  have hle := Finset.card_filter_le (Finset.range m.bits.size) (m.has · = false)
  rwa [Finset.card_range] at hle

theorem card_free_le {m n : Marks} (h : ∀ v, m.has v = true → n.has v = true) :
    n.free.card ≤ m.free.card := by
  apply Finset.card_le_card
  intro v hv
  rw [mem_free] at hv ⊢
  by_contra hc
  simp [h v (by simpa using hc)] at hv

theorem free_add (m : Marks) (v : Nat) : (m.add v).free = m.free.erase v := by
  ext u
  simp [mem_free, has_add]

theorem card_free_add_lt {m : Marks} {v : Nat} (h : m.has v = false) :
    (m.add v).free.card < m.free.card := by
  rw [free_add]
  exact Finset.card_erase_lt_of_mem (mem_free.mpr h)

end Marks

/-- Explores everything unseen that is reachable from `v`, later successors first. The bound counts
the nodes that may still be entered on the way down. -/
def visit (g : Digraph) : Nat → Nat → Search → Search
  | 0, _, s => s
  | bound + 1, v, s =>
    if s.seen.has v then s
    else
      let below := (g.succ v).foldr (fun u s => g.visit bound u s) { s with seen := s.seen.add v }
      { below with order := v :: below.order }

/-- What a search from some roots does to its state: the nodes it enters were unseen and are listed
in front, their successors and the roots are seen in the end, and each is reached from a root through
nodes listed before it. -/
structure Explores (g : Digraph) (roots : List Nat) (s t : Search) (new : List Nat) : Prop where
  size : t.seen.bits.size = s.seen.bits.size
  order : t.order = new ++ s.order
  nodup : new.Nodup
  has_iff : ∀ u, t.seen.has u = true ↔ u ∈ new ∨ s.seen.has u = true
  fresh : ∀ u ∈ new, s.seen.has u = false
  closed : ∀ u ∈ new, ∀ w ∈ g.succ u, t.seen.has w = true
  roots_seen : ∀ r ∈ roots, t.seen.has r = true
  path : ∀ before x after, new = before ++ x :: after →
    ∃ r ∈ roots, ∃ p, g.Path r x p ∧ ∀ y ∈ p, y = x ∨ y ∈ before

namespace Explores

variable {g : Digraph} {roots : List Nat} {s t : Search} {new : List Nat}

theorem refl {roots : List Nat} (h : ∀ r ∈ roots, s.seen.has r = true) :
    g.Explores roots s s [] where
  size := rfl
  order := rfl
  nodup := .nil
  has_iff := by simp
  fresh := by simp
  closed := by simp
  roots_seen := h
  path := by simp

theorem mono (h : g.Explores roots s t new) {u : Nat} (hu : s.seen.has u = true) :
    t.seen.has u = true :=
  (h.has_iff u).mpr (Or.inr hu)

theorem trans {more : List Nat} {r : Search} {newer : List Nat} (h : g.Explores roots s t new)
    (k : g.Explores more t r newer) : g.Explores (more ++ roots) s r (newer ++ new) where
  size := k.size.trans h.size
  order := by rw [k.order, h.order, List.append_assoc]
  nodup := by
    refine List.nodup_append'.mpr ⟨k.nodup, h.nodup, ?_⟩
    intro u hu hn
    have := k.fresh u hu
    simp [(h.has_iff u).mpr (Or.inl hn)] at this
  has_iff u := by
    rw [k.has_iff, h.has_iff, List.mem_append]
    tauto
  fresh u hu := by
    rcases List.mem_append.mp hu with hu | hu
    · have := k.fresh u hu
      by_contra hc
      simp [h.mono (by simpa using hc)] at this
    · exact h.fresh u hu
  closed u hu w hw := by
    rcases List.mem_append.mp hu with hu | hu
    · exact k.closed u hu w hw
    · exact k.mono (h.closed u hu w hw)
  roots_seen x hx := by
    rcases List.mem_append.mp hx with hx | hx
    · exact k.roots_seen x hx
    · exact k.mono (h.roots_seen x hx)
  path before x after he := by
    rcases List.append_eq_append_iff.mp he with ⟨as, hb, hn⟩ | ⟨bs, hk, hx⟩
    · obtain ⟨r, hr, p, hp, hm⟩ := h.path as x after hn
      refine ⟨r, List.mem_append_right _ hr, p, hp, fun y hy => (hm y hy).imp_right ?_⟩
      intro ha
      rw [hb]
      exact List.mem_append_right _ ha
    · cases bs with
      | nil =>
        obtain ⟨r, hr, p, hp, hm⟩ := h.path [] x after (by simpa using hx.symm)
        exact ⟨r, List.mem_append_right _ hr, p, hp, fun y hy => (hm y hy).imp_right (by simp)⟩
      | cons b bs =>
        obtain ⟨hxb, _⟩ := List.cons.inj hx
        subst hxb
        obtain ⟨r, hr, p, hp, hm⟩ := k.path before x bs hk
        exact ⟨r, List.mem_append_left _ hr, p, hp, hm⟩

/-- Entering a node and exploring from its successors explores from the node. -/
theorem enter {v : Nat} (hv : s.seen.has v = false) (hs : v < g.size)
    (h : g.Explores (g.succ v) { s with seen := s.seen.add v } t new) :
    g.Explores [v] s { t with order := v :: t.order } (v :: new) where
  size := h.size.trans (Marks.size_add _ _)
  order := by simp [h.order]
  nodup := by
    refine List.nodup_cons.mpr ⟨fun hm => ?_, h.nodup⟩
    have := h.fresh v hm
    simp [Marks.has_add] at this
  has_iff u := by
    have := h.has_iff u
    simp only [Marks.has_add, Bool.or_eq_true, decide_eq_true_eq] at this
    simp only [this, List.mem_cons]
    tauto
  fresh u hu := by
    rcases List.mem_cons.mp hu with rfl | hu
    · exact hv
    · have := h.fresh u hu
      simp only [Marks.has_add, Bool.or_eq_false_iff] at this
      exact this.2
  closed u hu w hw := by
    rcases List.mem_cons.mp hu with rfl | hu
    · exact h.roots_seen w hw
    · exact h.closed u hu w hw
  roots_seen x hx := by
    have hxv : x = v := by simpa using hx
    subst hxv
    exact h.mono (by simp [Marks.has_add])
  path before x after he := by
    refine ⟨v, by simp, ?_⟩
    cases before with
    | nil =>
      obtain ⟨rfl, _⟩ := List.cons.inj he
      exact ⟨[v], .nil hs, by simp⟩
    | cons b before =>
      obtain ⟨rfl, hn⟩ := List.cons.inj he
      obtain ⟨r, hr, p, hp, hm⟩ := h.path before x after hn
      refine ⟨_, (Path.snoc (.nil hs) hr hp.source_lt).append hp, fun y hy => ?_⟩
      rcases (Path.mem_append (.snoc (.nil hs) hr hp.source_lt) hp).mp hy with hy | hy
      · rcases List.mem_cons.mp hy with rfl | hy
        · exact (hm y hp.source_mem).imp_right (List.mem_cons_of_mem _)
        · exact Or.inr (by simpa using Or.inl (List.mem_singleton.mp hy))
      · exact (hm y hy).imp_right (List.mem_cons_of_mem _)

end Explores

theorem foldr_visit_explores (g : Digraph) {bound : Nat}
    (hvisit : ∀ v s, s.seen.bits.size = g.size → s.seen.free.card ≤ bound →
      ∃ new, g.Explores [v] s (g.visit bound v s) new)
    (us : List Nat) {s : Search} (hs : s.seen.bits.size = g.size) (hb : s.seen.free.card ≤ bound) :
    ∃ new, g.Explores us s (us.foldr (fun u s => g.visit bound u s) s) new := by
  induction us with
  | nil => exact ⟨[], .refl (by simp)⟩
  | cons u us ih =>
    obtain ⟨new, hn⟩ := ih
    have hfree := Marks.card_free_le (m := s.seen) fun w hw => hn.mono hw
    obtain ⟨newer, hk⟩ := hvisit u _ (hn.size.trans hs) (by omega)
    exact ⟨newer ++ new, hn.trans hk⟩

/-- A search with enough room explores from its node. The room that is left bounds the nodes still
unseen, and it shrinks by one with each node that is entered. -/
theorem visit_explores (g : Digraph) (bound v : Nat) (s : Search) (hs : s.seen.bits.size = g.size)
    (hb : s.seen.free.card ≤ bound) : ∃ new, g.Explores [v] s (g.visit bound v s) new := by
  induction bound generalizing v s with
  | zero =>
    have hf : s.seen.free = ∅ := Finset.card_eq_zero.mp (by omega)
    refine ⟨[], .refl fun r _ => ?_⟩
    by_contra hc
    have hm : r ∈ s.seen.free := Marks.mem_free.mpr (by simpa using hc)
    simp [hf] at hm
  | succ bound ih =>
    unfold visit
    by_cases hv : s.seen.has v = true
    · exact ⟨[], by simpa [hv] using Explores.refl (by simpa using hv)⟩
    · have hv : s.seen.has v = false := by simpa using hv
      have hlt : v < g.size := hs ▸ Marks.lt_of_has_eq_false hv
      have hroom := Marks.card_free_add_lt hv
      simp only [hv, Bool.false_eq_true, ↓reduceIte]
      obtain ⟨new, hn⟩ := g.foldr_visit_explores ih (g.succ v) (s := { s with seen := s.seen.add v })
        ((Marks.size_add s.seen v).trans hs) (Nat.le_of_lt_succ (hroom.trans_le hb))
      exact ⟨v :: new, hn.enter hv hlt⟩

theorem visit_of_seen {g : Digraph} {bound v : Nat} {s : Search} (h : s.seen.has v = true) :
    g.visit bound v s = s := by
  cases bound with
  | zero => rfl
  | succ bound => simp [visit, h]

theorem foldr_visit_succ_bound (g : Digraph) {bound : Nat}
    (hvisit : ∀ v s, s.seen.bits.size = g.size → s.seen.free.card ≤ bound → g.visit (bound + 1) v s = g.visit bound v s)
    (us : List Nat) {s : Search} (hs : s.seen.bits.size = g.size) (hb : s.seen.free.card ≤ bound) :
    us.foldr (fun u s => g.visit (bound + 1) u s) s = us.foldr (fun u s => g.visit bound u s) s := by
  induction us with
  | nil => rfl
  | cons u us ih =>
    obtain ⟨new, hn⟩ := g.foldr_visit_explores (g.visit_explores bound) us hs hb
    have hfree := Marks.card_free_le (m := s.seen) fun w hw => hn.mono hw
    rw [List.foldr_cons, ih, hvisit u _ (hn.size.trans hs) (by omega), List.foldr_cons]

/-- More room than there are unseen nodes makes no difference. -/
theorem visit_succ_bound (g : Digraph) (bound v : Nat) (s : Search) (hs : s.seen.bits.size = g.size)
    (hb : s.seen.free.card ≤ bound) : g.visit (bound + 1) v s = g.visit bound v s := by
  induction bound generalizing v s with
  | zero =>
    obtain ⟨new, hn⟩ := g.visit_explores 0 v s hs hb
    exact visit_of_seen (hn.roots_seen v (List.mem_singleton_self v))
  | succ bound ih =>
    by_cases hv : s.seen.has v = true
    · rw [visit_of_seen hv, visit_of_seen hv]
    · have hroom := Nat.le_of_lt_succ ((Marks.card_free_add_lt (Bool.eq_false_iff.mpr hv)).trans_le hb)
      rw [visit, visit, g.foldr_visit_succ_bound (s := { s with seen := s.seen.add v }) ih (g.succ v)
        ((Marks.size_add s.seen v).trans hs) hroom]

/-- What the nodes of a set and the edges from them take of the room for a search. -/
def roomOf (g : Digraph) (vs : Finset Nat) : Nat :=
  ∑ v ∈ vs, ((g.succ v).length + 1)

theorem roomOf_erase {g : Digraph} {vs : Finset Nat} {v : Nat} (hv : v ∈ vs) :
    g.roomOf (vs.erase v) + ((g.succ v).length + 1) = g.roomOf vs :=
  Finset.sum_erase_add vs _ hv

theorem roomOf_le_room {g : Digraph} {vs : Finset Nat} (h : vs ⊆ Finset.range g.size) : g.roomOf vs ≤ g.room := by
  have hroom : ∀ n, (List.range n).foldl (fun n v => n + ((g.succ v).length + 1)) 0 = g.roomOf (Finset.range n) := by
    intro n
    induction n with
    | zero => rfl
    | succ n ih => rw [List.range_succ, List.foldl_concat, ih, roomOf, roomOf, Finset.sum_range_succ]
  rw [room, hroom]
  exact Finset.sum_le_sum_of_subset h

theorem pushUnmarked_eq {τ : Type} (marked : Nat → Bool) (entry : Nat → τ) (us : List Nat) (stack : List τ) :
    pushUnmarked marked entry us stack = ((us.filter (!marked ·)).map entry).reverse ++ stack := by
  induction us generalizing stack with
  | nil => rfl
  | cons u us ih =>
    rw [pushUnmarked, List.foldl_cons]
    change pushUnmarked marked entry us _ = _
    rw [ih]
    cases hu : marked u <;> simp [hu]

/-- Does what is still to be done about a node, and for a node to be entered all that lies below it. -/
def perform (g : Digraph) (s : Search) : Task → Search
  | .enter v => g.visit g.size v s
  | .exit v => { s with order := v :: s.order }

/-- A node that is seen when its turn comes need not be on the stack at all. -/
theorem foldl_perform_filter (g : Digraph) (us : List Nat) {s : Search} (hs : s.seen.bits.size = g.size) :
    ((us.filter (!s.seen.has ·)).map Task.enter).reverse.foldl g.perform s =
      us.foldr (fun u s => g.visit g.size u s) s := by
  induction us with
  | nil => rfl
  | cons u us ih =>
    rw [List.foldr_cons, List.filter_cons]
    cases hu : s.seen.has u with
    | true =>
      have hb : s.seen.free.card ≤ g.size := hs ▸ s.seen.card_free_le_size
      obtain ⟨new, hn⟩ := g.foldr_visit_explores (g.visit_explores g.size) us hs hb
      rw [visit_of_seen (hn.mono hu), ← ih]
      rfl
    | false =>
      rw [← ih]
      simp [perform]

/-- Entering an unseen node and leaving it after its successors is what visiting it comes to. -/
theorem perform_enter (g : Digraph) {s : Search} {v : Nat} (hs : s.seen.bits.size = g.size)
    (hv : s.seen.has v = false) (stack : List Task) :
    (pushUnmarked (s.seen.add v).has .enter (g.succ v) (.exit v :: stack)).foldl g.perform
      { s with seen := s.seen.add v } = (.enter v :: stack).foldl g.perform s := by
  have hsize := (Marks.size_add s.seen v).trans hs
  have hless := (Marks.card_free_add_lt hv).trans_le s.seen.card_free_le_size
  obtain ⟨bound, hbound⟩ : ∃ bound, g.size = bound + 1 := ⟨g.size - 1, by omega⟩
  have hroom : (s.seen.add v).free.card ≤ bound := by omega
  have hvisit : g.visit g.size v s =
      g.perform ((g.succ v).foldr (fun u s => g.visit g.size u s) { s with seen := s.seen.add v }) (.exit v) := by
    rw [hbound, g.foldr_visit_succ_bound (s := { s with seen := s.seen.add v }) (g.visit_succ_bound bound) (g.succ v)
      hsize hroom, visit, hv]
    rfl
  rw [pushUnmarked_eq, List.foldl_append, List.foldl_cons, List.foldl_cons,
    g.foldl_perform_filter (s := { s with seen := s.seen.add v }) (g.succ v) hsize, ← hvisit]
  rfl

/-- No step changes what the search comes to in the end, and each uses up some of the room. -/
theorem searchStep_perform (g : Digraph) {w w' : List Task × Search} (hs : w.2.seen.bits.size = g.size)
    (h : g.searchStep w = .inl w') :
    w'.2.seen.bits.size = g.size ∧ w'.1.foldl g.perform w'.2 = w.1.foldl g.perform w.2 ∧
      w'.1.length + g.roomOf w'.2.seen.free < w.1.length + g.roomOf w.2.seen.free := by
  unfold searchStep at h
  split at h
  next => cases h
  next v stack s =>
    cases h
    exact ⟨hs, rfl, by simp⟩
  next v stack s =>
    split at h
    next hv =>
      cases h
      refine ⟨hs, ?_, by simp⟩
      rw [List.foldl_cons, perform, visit_of_seen hv]
    next hv =>
      cases h
      have hv : s.seen.has v = false := Bool.eq_false_iff.mpr hv
      refine ⟨(Marks.size_add s.seen v).trans hs, g.perform_enter hs hv stack, ?_⟩
      have hlength := (g.succ v).length_filter_le (!(s.seen.add v).has ·)
      have hroom := roomOf_erase (g := g) (Marks.mem_free.mpr hv)
      simp only [pushUnmarked_eq, List.length_append, List.length_reverse, List.length_map, List.length_cons,
        Marks.free_add] at hlength ⊢
      omega

theorem searchStep_eq_inr {g : Digraph} {w : List Task × Search} {s : Search} (h : g.searchStep w = .inr s) :
    w.1 = [] ∧ w.2 = s := by
  unfold searchStep at h
  split at h
  next => exact ⟨rfl, Sum.inr.inj h⟩
  next => cases h
  next => split at h <;> cases h

theorem size_none (n : Nat) : (Marks.none n).bits.size = n := by
  simp [Marks.none]

theorem card_free_none_le (n : Nat) : (Marks.none n).free.card ≤ n := by
  have hle := (Marks.none n).card_free_le_size
  rwa [size_none] at hle

theorem has_none_eq_false {n v : Nat} (hv : v < n) : (Marks.none n).has v = false := by
  rw [Marks.has_none, decide_eq_false_iff_not]
  omega

theorem search_eq (g : Digraph) (start : Nat) : g.search start = g.visit g.size start ⟨.none g.size, []⟩ := by
  have hroom : g.roomOf (Marks.none g.size).free ≤ g.room := by
    refine roomOf_le_room fun v hv => ?_
    have hlt := Marks.lt_of_has_eq_false (Marks.mem_free.mp hv)
    rwa [size_none, ← Finset.mem_range] at hlt
  obtain ⟨s, hs, rfl⟩ := Loop.exists_run g.searchStep
    (fun w => w.2.seen.bits.size = g.size ∧ w.1.foldl g.perform w.2 = g.visit g.size start ⟨.none g.size, []⟩)
    (· = g.visit g.size start ⟨.none g.size, []⟩) (fun w => w.1.length + g.roomOf w.2.seen.free) (g.room + 2)
    (fun w w' hw hstep => by
      obtain ⟨hsize, hsame, hless⟩ := g.searchStep_perform hw.1 hstep
      exact ⟨⟨hsize, hsame.trans hw.2⟩, hless⟩)
    (fun w r hw hstep => by
      obtain ⟨hdone, rfl⟩ := searchStep_eq_inr hstep
      simpa [hdone] using hw.2)
    (s := ([.enter start], ⟨.none g.size, []⟩)) ⟨size_none _, rfl⟩ (by simp; omega)
  rw [search, hs]
  rfl

theorem search_explores (g : Digraph) (start : Nat) :
    g.Explores [start] ⟨.none g.size, []⟩ (g.search start) (g.reversePostorder start) := by
  obtain ⟨new, hn⟩ := g.visit_explores g.size start ⟨.none g.size, []⟩ (size_none _) (card_free_none_le _)
  rw [← search_eq] at hn
  have horder : g.reversePostorder start = new := by
    simpa [reversePostorder, postorder] using hn.order
  rwa [horder]

theorem mem_reversePostorder (g : Digraph) (start v : Nat) :
    v ∈ g.reversePostorder start ↔ g.Reaches start v := by
  have hx := g.search_explores start
  constructor
  · intro hv
    obtain ⟨before, after, he⟩ := List.append_of_mem hv
    obtain ⟨r, hr, p, hp, _⟩ := hx.path before v after he
    obtain rfl := List.mem_singleton.mp hr
    exact ⟨p, hp⟩
  · have hseen : ∀ {u}, u < g.size → (g.search start).seen.has u = true → u ∈ g.reversePostorder start := by
      intro u hu h
      refine ((hx.has_iff u).mp h).resolve_right ?_
      simp [has_none_eq_false hu]
    rintro ⟨p, hp⟩
    induction hp with
    | nil hlt => exact hseen hlt (hx.roots_seen start (List.mem_singleton_self start))
    | snoc _ hm hlt ih => exact hseen hlt (hx.closed _ ih _ hm)

theorem nodup_reversePostorder (g : Digraph) (start : Nat) : (g.reversePostorder start).Nodup :=
  (g.search_explores start).nodup

theorem path_of_reversePostorder (g : Digraph) {start x : Nat} {before after : List Nat}
    (h : g.reversePostorder start = before ++ x :: after) :
    ∃ p, g.Path start x p ∧ ∀ y ∈ p, y = x ∨ y ∈ before := by
  obtain ⟨r, hr, hp⟩ := (g.search_explores start).path before x after h
  obtain rfl := List.mem_singleton.mp hr
  exact hp

end Digraph

end GuardElision
