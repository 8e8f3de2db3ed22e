import GuardElision.Flow.Dominators
import GuardElision.Proofs.Flow.Forest

namespace GuardElision

/-- Either `d` is the semidominator `s` of `v` and its immediate dominator, or it has a lower number than `v` and
the same immediate dominator. -/
def LeadsTo (g : Digraph) (entry : Nat) (num : Nat → Nat) (s v d : Nat) : Prop :=
  d = s ∧ g.ImmediatelyDominates entry d v ∨
    d ≠ s ∧ 1 < num d ∧ num d < num v ∧ ∀ z, g.ImmediatelyDominates entry z d → g.ImmediatelyDominates entry z v

namespace IdomSearch

/-- The nodes with numbers above `n` have been dealt with. Those that wait in a bucket are not yet linked to the
node the bucket belongs to. -/
structure Staged (g : Digraph) (entry : Nat) (t : SpanningTree g.size) (n : Nat) (s : IdomSearch g.size) : Prop where
  linked : s.forest.Linked t.number.read t.parent.read (s.key t) n
  semi : ∀ v, n < t.number.read v → IsSemidominator g t.number.read (s.semi.read v) v
  fresh : ∀ v, t.number.read v ≠ 0 → t.number.read v ≤ n → s.semi.read v = v
  bucket : ∀ p v, v ∈ s.bucket.read p → n < t.number.read v ∧ s.semi.read v = p ∧
    ∃ c, t.parent.read c = some p ∧ Anc t.parent.read c v ∧ t.number.read c ≤ n
  settled : ∀ v, n < t.number.read v → v ∈ s.bucket.read (s.semi.read v) ∨
    ∃ d, s.idom.read v = some d ∧ LeadsTo g entry t.number.read (s.semi.read v) v d
  unmet : ∀ v, t.number.read v = 0 → s.idom.read v = none

/-- The semidominator of `w` is as low as the predecessors considered so far make it. -/
structure Improved (g : Digraph) (t : SpanningTree g.size) (w : Nat) (s s' : IdomSearch g.size) (preds : List Nat) :
    Prop where
  linked : s'.forest.Linked t.number.read t.parent.read (s'.key t) (t.number.read w)
  bucket : s'.bucket = s.bucket
  idom : s'.idom = s.idom
  semi : ∀ v, v ≠ w → s'.semi.read v = s.semi.read v
  above : s'.semi.read w = w ∨ Above g t.number.read (t.number.read w) (s'.semi.read w) w
  low : ∀ v ∈ preds, (t.number.read v < t.number.read w → s'.key t w ≤ t.number.read v) ∧
    ∀ u, Anc t.parent.read u v → t.number.read w < t.number.read u → s'.key t w ≤ s.key t u

variable {g : Digraph} {entry n p v w : Nat} {t : SpanningTree g.size} {s s' : IdomSearch g.size} {preds : List Nat}
  (S : Spans g entry t.number.read t.parent.read) (L : t.Listed g)

include S L

/-- The node found from the predecessor `v` upwards has a semidominator from which a way leads to `w`, and none that is
lower is missed. -/
theorem Improved.candidate (h : Staged g entry t (t.number.read w) s) (h' : Improved g t w s s' preds)
    (hv : t.number.read v ≠ 0) (hw : w ∈ g.succ v) (hlt : w < g.size) :
    (s'.forest.eval (s'.key t) v).2.Linked t.number.read t.parent.read (s'.key t) (t.number.read w) ∧
      (s'.semi.read (s'.forest.eval (s'.key t) v).1 = w ∨
        Above g t.number.read (t.number.read w) (s'.semi.read (s'.forest.eval (s'.key t) v).1) w) ∧
      (t.number.read v < t.number.read w → s'.key t (s'.forest.eval (s'.key t) v).1 ≤ t.number.read v) ∧
      ∀ u, Anc t.parent.read u v → t.number.read w < t.number.read u →
        s'.key t (s'.forest.eval (s'.key t) v).1 ≤ s.key t u := by
  by_cases hle : t.number.read v ≤ t.number.read w
  · rw [h'.linked.eval_root hle]
    refine ⟨h'.linked, ?_, fun hless => ?_, fun u hu hwu => ?_⟩
    · by_cases he : v = w
      · exact he ▸ h'.above
      · rw [h'.semi v he, h.fresh v hv hle]
        exact Or.inr (.edge hv hw hlt)
    · have he : v ≠ w := by
        rintro rfl
        omega
      rw [key, h'.semi v he, h.fresh v hv hle]
    · have := S.num_le hu
      omega
  · obtain ⟨hforest, hlow, hanc, hleast⟩ := h'.linked.eval S (L.number_le S.toGrown v) (Nat.lt_of_not_le hle)
    have hne : ∀ {u}, t.number.read w < t.number.read u → u ≠ w := by
      rintro u hu rfl
      omega
    refine ⟨hforest, Or.inr ?_, fun hless => absurd hless.le hle, fun u hu hwu => ?_⟩
    · rw [h'.semi _ (hne hlow)]
      have habove := S.above_anc ((h.semi _ hlow).1.mono hlow.le) hlow hanc
      exact habove.step (Nat.lt_of_not_le hle) hw hlt
    · rw [← show s'.key t u = s.key t u by rw [key, h'.semi u (hne hwu), key]]
      exact hleast u hu hwu

theorem Improved.improve (h : Staged g entry t (t.number.read w) s) (h' : Improved g t w s s' preds)
    (hv : t.number.read v ≠ 0) (hw : w ∈ g.succ v) (hlt : w < g.size) :
    Improved g t w s (s'.improve t w v) (v :: preds) := by
  obtain ⟨hforest, hcandidate, hlow⟩ := h'.candidate S L h hv hw hlt
  have hsemi : ∀ x, (s'.improve t w v).semi.read x = if x = w then
      if s'.key t (s'.forest.eval (s'.key t) v).1 < s'.key t w then s'.semi.read (s'.forest.eval (s'.key t) v).1
      else s'.semi.read w else s'.semi.read x := by
    intro x
    rw [IdomSearch.improve]
    dsimp only
    by_cases hx : x = w <;> split <;> simp [hx, Table.read_write _ hlt]
  have hother : ∀ {x}, x ≠ w → (s'.improve t w v).semi.read x = s'.semi.read x := fun hx => (hsemi _).trans (if_neg hx)
  have hkey : (s'.improve t w v).key t w ≤ s'.key t w ∧
      (s'.improve t w v).key t w ≤ s'.key t (s'.forest.eval (s'.key t) v).1 := by
    rw [key, hsemi, if_pos rfl]
    split
    next hless => exact ⟨hless.le, Nat.le_refl _⟩
    next hless => exact ⟨Nat.le_refl _, Nat.le_of_not_lt hless⟩
  refine ⟨hforest.congr_key fun x hx => ?_, h'.bucket, h'.idom, fun x hx => (hother hx).trans (h'.semi x hx), ?_,
    List.forall_mem_cons.mpr ⟨?_, fun x hx => ?_⟩⟩
  · rw [key, key, hother (by rintro rfl; omega)]
  · rw [hsemi, if_pos rfl]
    split
    next => exact hcandidate
    next => exact h'.above
  · exact ⟨fun hless => hkey.2.trans (hlow.1 hless), fun u hu hwu => hkey.2.trans (hlow.2 u hu hwu)⟩
  · obtain ⟨hfirst, hsecond⟩ := h'.low x hx
    exact ⟨fun hless => hkey.1.trans (hfirst hless), fun u hu hwu => hkey.1.trans (hsecond u hu hwu)⟩

theorem Improved.foldl (h : Staged g entry t (t.number.read w) s) (hlt : w < g.size) {vs : List Nat}
    (hvs : ∀ v ∈ vs, t.number.read v ≠ 0 ∧ w ∈ g.succ v) (h' : Improved g t w s s' preds) :
    Improved g t w s (vs.foldl (IdomSearch.improve t w) s') (vs.reverse ++ preds) := by
  induction vs generalizing s' preds with
  | nil => exact h'
  | cons v vs ih =>
    obtain ⟨⟨hv, hw⟩, hvs⟩ := List.forall_mem_cons.mp hvs
    rw [List.foldl_cons, List.reverse_cons, List.append_assoc]
    exact ih hvs (h'.improve S L h hv hw hlt)

/-- When all predecessors have been considered, the semidominator of `w` is known. -/
theorem Staged.improved (h : Staged g entry t (t.number.read w) s) (hw0 : t.number.read w ≠ 0) (hw : w ≠ entry) :
    ∃ preds, Improved g t w s ((t.preds.read w).foldl (improve t w) s) preds ∧
      IsSemidominator g t.number.read (((t.preds.read w).foldl (improve t w) s).semi.read w) w := by
  have hlt := S.lt_size w hw0
  have hpreds := fun v => L.mem_preds v w hlt
  have hstart : Improved g t w s s [] :=
    ⟨h.linked, rfl, rfl, fun _ _ => rfl, Or.inl (h.fresh w hw0 (Nat.le_refl _)), by simp⟩
  have hall := hstart.foldl S L h hlt fun v hv => (hpreds v).mp hv
  refine ⟨_, hall, S.isSemidominator_of_lowest hw0 hw h.semi hall.above fun v hv hm => hall.low v ?_⟩
  rw [List.append_nil, List.mem_reverse]
  exact (hpreds v).mpr ⟨hv, hm⟩

omit L in
theorem leadsTo_of_least {semi : Nat → Nat} {u : Nat} (hn : 1 ≤ n) (hp : t.parent.read w = some p)
    (hw : t.number.read w = n + 1)
    (hwv : Anc t.parent.read w v) (hsemi : ∀ y, n < t.number.read y → IsSemidominator g t.number.read (semi y) y)
    (hv : semi v = p) (hu : n < t.number.read u) (huv : Anc t.parent.read u v)
    (hleast : ∀ y, Anc t.parent.read y v → n < t.number.read y → t.number.read (semi u) ≤ t.number.read (semi y)) :
    LeadsTo g entry t.number.read p v (if semi u = semi v then p else u) := by
  obtain ⟨hp0, hpw, _⟩ := S.parent_spec w p hp
  have hwle := S.num_le hwv
  have huvle := S.num_le huv
  have hne : ∀ {y}, n < t.number.read y → y ≠ entry := by
    rintro y hy rfl
    have := S.num_entry
    omega
  have hvsemi : IsSemidominator g t.number.read p v := hv ▸ hsemi v (by omega)
  have hpv := S.anc_semidominator hvsemi (hne (by omega))
  have hmin : ∀ y, Anc t.parent.read p y → t.number.read p < t.number.read y → Anc t.parent.read y v →
      ∀ x, Above g t.number.read (t.number.read y) x y → t.number.read (semi u) ≤ t.number.read x := by
    intro y _ hpy hyv x hx
    have hy : n < t.number.read y := by
      by_contra hle
      have hyw := S.between y w v hyv (by omega) (by omega) hwle
      obtain ⟨q, hq, hyq⟩ := hyw.up (by rintro rfl; omega)
      cases hq.symm.trans hp
      have := S.num_le hyq
      omega
    exact (hleast y hyv hy).trans ((hsemi y hy).2 x hx)
  split
  next he =>
    rw [he, hv] at hmin
    exact Or.inl ⟨rfl, S.immediatelyDominates_semidominator hvsemi (hne (by omega)) hmin⟩
  next he =>
    have huv' : t.number.read u ≠ t.number.read v := fun heq => he (congrArg semi (S.inj u v (by omega) heq))
    refine Or.inr ⟨by rintro rfl; omega, by omega, by omega, fun z hz => ?_⟩
    have hpu := S.between p u v hpv hp0 (by omega) huvle
    exact S.immediatelyDominates_of_lower hvsemi (hne (by omega)) hpu (by omega) huv (hsemi u hu) hmin hz

/-- The nodes that wait for `p` when its child `w` is linked, and the answers they have been given. -/
structure Resolving (g : Digraph) (entry : Nat) (t : SpanningTree g.size) (n : Nat) (s s' : IdomSearch g.size)
    (done : List Nat) : Prop where
  linked : s'.forest.Linked t.number.read t.parent.read (s'.key t) n
  semi : s'.semi = s.semi
  bucket : s'.bucket = s.bucket
  answered : ∀ v ∈ done, ∃ d, s'.idom.read v = some d ∧ LeadsTo g entry t.number.read (s.semi.read v) v d
  idom : ∀ v, v ∉ done → s'.idom.read v = s.idom.read v

theorem Resolving.foldl (vs done : List Nat) (hn : 1 ≤ n) (hp : t.parent.read w = some p) (hw : t.number.read w = n + 1)
    (hsemi : ∀ v, n < t.number.read v → IsSemidominator g t.number.read (s.semi.read v) v)
    (hvs : ∀ v ∈ vs, s.semi.read v = p ∧ Anc t.parent.read w v) (h : Resolving g entry t n s s' done) :
    Resolving g entry t n s (vs.foldl (resolve t p) s') (vs.reverse ++ done) := by
  induction vs generalizing s' done with
  | nil => exact h
  | cons v vs ih =>
    obtain ⟨⟨hv, hwv⟩, hvs⟩ := List.forall_mem_cons.mp hvs
    have hvn : n < t.number.read v := by
      have := S.num_le hwv
      omega
    have hlt := S.lt_size v (by omega)
    obtain ⟨hforest, hlow, hanc, hleast⟩ := h.linked.eval S (L.number_le S.toGrown v) hvn
    have hanswer : ∃ d, (s'.resolve t p v).idom.read v = some d ∧ LeadsTo g entry t.number.read (s.semi.read v) v d := by
      refine ⟨_, Table.read_write_self _ hlt _, ?_⟩
      simp only [key, h.semi] at hleast ⊢
      have hlead := leadsTo_of_least S hn hp hw hwv hsemi hv hlow hanc hleast
      rwa [hv] at hlead ⊢
    rw [List.foldl_cons, List.reverse_cons, List.append_assoc]
    refine ih _ hvs ⟨hforest, h.semi, h.bucket, List.forall_mem_cons.mpr ⟨hanswer, fun x hx => ?_⟩, fun x hx => ?_⟩
    · by_cases he : x = v
      · exact he ▸ hanswer
      · rw [resolve, Table.read_write_of_ne _ he]
        exact h.answered x hx
    · rw [List.mem_append, List.mem_singleton, not_or] at hx
      rw [resolve, Table.read_write_of_ne _ hx.1]
      exact h.idom x hx.2

/-- The semidominators are known down to that of `w`, and `w` waits with the others. -/
structure Queued (g : Digraph) (entry : Nat) (t : SpanningTree g.size) (w : Nat) (s : IdomSearch g.size) : Prop where
  linked : s.forest.Linked t.number.read t.parent.read (s.key t) (t.number.read w)
  semi : ∀ v, t.number.read w ≤ t.number.read v → IsSemidominator g t.number.read (s.semi.read v) v
  fresh : ∀ v, t.number.read v ≠ 0 → t.number.read v < t.number.read w → s.semi.read v = v
  bucket : ∀ p v, v ∈ s.bucket.read p → t.number.read w ≤ t.number.read v ∧ s.semi.read v = p ∧
    ∃ c, t.parent.read c = some p ∧ Anc t.parent.read c v ∧ t.number.read c ≤ t.number.read w
  settled : ∀ v, t.number.read w ≤ t.number.read v → v ∈ s.bucket.read (s.semi.read v) ∨
    ∃ d, s.idom.read v = some d ∧ LeadsTo g entry t.number.read (s.semi.read v) v d
  unmet : ∀ v, t.number.read v = 0 → s.idom.read v = none

theorem Staged.enqueue (h : Staged g entry t (t.number.read w) s) (hw0 : t.number.read w ≠ 0) (hne : w ≠ entry) :
    Queued g entry t w (((t.preds.read w).foldl (improve t w) s).enqueue w) := by
  obtain ⟨preds, himproved, hsemi⟩ := h.improved S L hw0 hne
  generalize (t.preds.read w).foldl (improve t w) s = s₁ at himproved hsemi ⊢
  have hbucket : ∀ q v, v ∈ (s₁.enqueue w).bucket.read q ↔ v ∈ s.bucket.read q ∨ v = w ∧ q = s₁.semi.read w := by
    intro q v
    rw [IdomSearch.enqueue, himproved.bucket]
    dsimp only
    rw [Table.read_write _ (S.lt_size _ hsemi.1.source)]
    by_cases hq : q = s₁.semi.read w <;> simp [hq]
  have habove : ∀ {v}, v ≠ w → t.number.read w ≤ t.number.read v → t.number.read w < t.number.read v := by
    intro v hv hle
    exact Nat.lt_of_le_of_ne hle fun he => hv (S.inj v w (by omega) he.symm)
  refine ⟨himproved.linked, fun v hv => ?_, fun v hv0 hvw => ?_, fun q v hv => ?_, fun v hv => ?_, fun v hv => ?_⟩
  · by_cases he : v = w
    · exact he ▸ hsemi
    · exact (himproved.semi v he).symm ▸ h.semi v (habove he hv)
  · exact (himproved.semi v (by rintro rfl; omega)).trans (h.fresh v hv0 hvw.le)
  · rcases (hbucket q v).mp hv with hv | ⟨rfl, rfl⟩
    · obtain ⟨hwv, hvq, hchild⟩ := h.bucket q v hv
      exact ⟨hwv.le, (himproved.semi v (by rintro rfl; omega)).trans hvq, hchild⟩
    · have hless := S.semidominator_lt hsemi hne
      obtain ⟨c, hc, hcv⟩ := (S.anc_semidominator hsemi hne).exists_child (by rintro he; rw [he] at hless; omega)
      exact ⟨Nat.le_refl _, rfl, c, hc, hcv, S.num_le hcv⟩
  · by_cases he : v = w
    · exact Or.inl ((hbucket _ v).mpr (Or.inr ⟨he, he ▸ rfl⟩))
    · rcases h.settled v (habove he hv) with hmem | hdone
      · exact Or.inl ((hbucket _ v).mpr (Or.inl ((himproved.semi v he).symm ▸ hmem)))
      · rw [← himproved.semi v he, ← himproved.idom] at hdone
        exact Or.inr hdone
  · exact (congrArg (Table.read · v) himproved.idom).trans (h.unmet v hv)

omit L in
/-- A node that waits for `p` stands below the child of `p` that is linked next. -/
theorem Queued.anc_of_waiting (h : Queued g entry t w s) (hp : t.parent.read w = some p) (hv : v ∈ s.bucket.read p) :
    Anc t.parent.read w v := by
  obtain ⟨hwv, _, c, hc, hcv, hcw⟩ := h.bucket p v hv
  obtain ⟨_, hpc, _⟩ := S.parent_spec c p hc
  have hcw := S.between c w v hcv (by omega) hcw hwv
  by_cases he : c = w
  · exact he ▸ hcv
  · obtain ⟨q, hq, hcq⟩ := hcw.up he
    cases hq.symm.trans hp
    have := S.num_le hcq
    omega

theorem Queued.resolve (h : Queued g entry t w s) (hw : t.number.read w = n + 1) (hp : t.parent.read w = some p) :
    Staged g entry t n ((s.bucket.read p).foldl (resolve t p)
      { s with forest := s.forest.link p w, bucket := s.bucket.write p [] }) := by
  obtain ⟨hp0, hpw, _⟩ := S.parent_spec w p hp
  have hn : 1 ≤ n := by
    have := S.num_le (S.anc_entry hp0)
    have := S.num_entry
    omega
  have hlinked := h.linked
  rw [hw] at hlinked
  have hresolved := Resolving.foldl S L (s.bucket.read p) []
    (s := { s with forest := s.forest.link p w, bucket := s.bucket.write p [] }) hn hp hw
    (fun v hv => h.semi v (by omega)) (fun v hv => ⟨(h.bucket p v hv).2.1, h.anc_of_waiting S hp hv⟩)
    ⟨hlinked.link S hw hp, rfl, rfl, by simp, fun _ _ => rfl⟩
  generalize (List.foldl (IdomSearch.resolve t p) _ _) = s' at hresolved ⊢
  obtain ⟨hlink, hsemi, hbucket, hanswered, hidom⟩ := hresolved
  simp only [List.append_nil, List.mem_reverse] at hanswered hidom
  have hread : ∀ q, s'.bucket.read q = if q = p then [] else s.bucket.read q := by
    intro q
    rw [hbucket, Table.read_write _ (S.lt_size p hp0)]
  refine ⟨hlink, fun v hv => ?_, fun v hv0 hvn => ?_, fun q v hv => ?_, fun v hv => ?_, fun v hv => ?_⟩
  · exact hsemi ▸ h.semi v (by omega)
  · exact hsemi ▸ h.fresh v hv0 (by omega)
  · rw [hread] at hv
    split at hv
    next => simp at hv
    next hq =>
      obtain ⟨hwv, hvq, c, hc, hcv, hcw⟩ := h.bucket q v hv
      have hne : t.number.read c ≠ t.number.read w := by
        intro he
        have := (S.parent_spec c q hc).2.1
        cases S.inj c w (by omega) he
        exact hq (Option.some.inj (hc.symm.trans hp))
      exact ⟨by omega, hsemi ▸ hvq, c, hc, hcv, by omega⟩
  · rw [hsemi]
    by_cases hvp : v ∈ s.bucket.read p
    · exact Or.inr (hanswered v hvp)
    · rcases h.settled v (by omega) with hmem | hdone
      · refine Or.inl ?_
        rwa [hread, if_neg]
        exact fun he => hvp (he ▸ hmem)
      · exact Or.inr ((hidom v hvp).symm ▸ hdone)
  · refine (hidom v fun hvp => ?_).trans (h.unmet v hv)
    have := S.num_le (h.anc_of_waiting S hp hvp)
    omega

theorem Staged.stage (h : Staged g entry t (n + 1) s) (hw : t.number.read w = n + 1) (hne : w ≠ entry) :
    Staged g entry t n (s.stage t w) := by
  obtain ⟨p, hp, _⟩ := S.parent_num (by omega : t.number.read w ≠ 0) hne
  rw [← hw] at h
  have hqueued := h.enqueue S L (by omega) hne
  rw [IdomSearch.stage, hp]
  generalize ((t.preds.read w).foldl (improve t w) s).enqueue w = s₁ at hqueued ⊢
  exact hqueued.resolve S L hw hp

theorem staged_blank : Staged g entry t t.met.length (blank g.size) where
  linked := by
    have hroot : ∀ v, (Forest.blank g.size).ancestor.read v = none := Table.read_fill g.size
    refine ⟨fun v => iff_of_true (hroot v) (Nat.le_of_lt_succ (L.number_lt v)), fun v a ha => ?_, fun v a ha => ?_,
      fun v hv _ => Table.read_nodes hv⟩ <;> cases (hroot v).symm.trans ha
  semi v hv := absurd hv (Nat.not_lt.mpr (Nat.le_of_lt_succ (L.number_lt v)))
  fresh v hv _ := Table.read_nodes (S.lt_size v hv)
  bucket p v hv := by
    rw [show (blank g.size).bucket.read p = [] from Table.read_fill g.size p] at hv
    simp at hv
  settled v hv := absurd hv (Nat.not_lt.mpr (Nat.le_of_lt_succ (L.number_lt v)))
  unmet v _ := Table.read_fill g.size v

theorem Staged.foldl {ws : List Nat}
    (hws : (ws ++ [entry]).map t.number.read = (List.range' 1 (ws.length + 1)).reverse)
    (h : Staged g entry t (ws.length + 1) s) : Staged g entry t 1 (ws.foldl (IdomSearch.stage t) s) := by
  induction ws generalizing s with
  | nil => exact h
  | cons w ws ih =>
    rw [List.cons_append, List.map_cons, List.length_cons, List.range'_1_concat, List.reverse_append,
      List.reverse_singleton, List.singleton_append, List.cons.injEq, Nat.add_comm 1] at hws
    refine ih hws.2 (h.stage S L hws.1 ?_)
    rintro rfl
    have := S.num_entry
    omega

/-- The nodes with numbers below `n` have their immediate dominators, the others may lead to them. -/
structure Settled (g : Digraph) (entry : Nat) (t : SpanningTree g.size) (semi : Table g.size Nat) (n : Nat)
    (idom : Table g.size (Option Nat)) : Prop where
  below : ∀ v, 1 < t.number.read v → t.number.read v < n →
    ∃ d, idom.read v = some d ∧ g.ImmediatelyDominates entry d v
  above : ∀ v, 1 < t.number.read v → n ≤ t.number.read v →
    ∃ d, idom.read v = some d ∧ LeadsTo g entry t.number.read (semi.read v) v d
  unmet : ∀ v, t.number.read v = 0 → idom.read v = none

omit L in
/-- When all nodes but the entry have been dealt with, none waits any longer. -/
theorem Staged.settled_all (h : Staged g entry t 1 s) : Settled g entry t s.semi 2 s.idom where
  below v hv hlt := by omega
  above v hv _ := by
    refine (h.settled v hv).resolve_left fun hmem => ?_
    obtain ⟨_, _, c, hc, _, hle⟩ := h.bucket _ v hmem
    have := S.parent_spec c _ hc
    omega
  unmet := h.unmet

variable {semi : Table g.size Nat} {idom : Table g.size (Option Nat)}

omit L in
theorem Settled.settle (h : Settled g entry t semi n idom) (hn : 1 < n) (hw : t.number.read w = n) :
    Settled g entry t semi (n + 1) (IdomSearch.settle semi idom w) := by
  have hlt := S.lt_size w (by omega)
  obtain ⟨d, hd, hlead⟩ := h.above w (by omega) hw.ge
  obtain ⟨z, hz, hzw⟩ : ∃ z, (IdomSearch.settle semi idom w).read w = some z ∧ g.ImmediatelyDominates entry z w := by
    rw [IdomSearch.settle, hd]
    rcases hlead with ⟨he, hdom⟩ | ⟨hne, hd1, hdw, hsame⟩
    · exact ⟨d, by simp [he, hd], hdom⟩
    · obtain ⟨z, hz, hzd⟩ := h.below d hd1 (by omega)
      exact ⟨z, by simp [hne, Table.read_write_self _ hlt, hz], hsame z hzd⟩
  have hother : ∀ {v}, v ≠ w → (IdomSearch.settle semi idom w).read v = idom.read v := by
    intro v hv
    rw [IdomSearch.settle, hd]
    dsimp only
    split
    next => rfl
    next => exact Table.read_write_of_ne _ hv _
  refine ⟨fun v hv hle => ?_, fun v hv hle => ?_, fun v hv => ?_⟩
  · by_cases he : v = w
    · subst he
      exact ⟨z, hz, hzw⟩
    · have : t.number.read v ≠ n := fun heq => he (S.inj v w (by omega) (heq.trans hw.symm))
      rw [hother he]
      exact h.below v hv (by omega)
  · rw [hother (by rintro rfl; omega)]
    exact h.above v hv (by omega)
  · rw [hother (by rintro rfl; omega)]
    exact h.unmet v hv

omit L in
theorem Settled.foldl {ws : List Nat} (hn : 1 < n) (hws : ws.map t.number.read = List.range' n ws.length)
    (h : Settled g entry t semi n idom) :
    Settled g entry t semi (n + ws.length) (ws.foldl (IdomSearch.settle semi) idom) := by
  induction ws generalizing n idom with
  | nil => exact h
  | cons w ws ih =>
    rw [List.map_cons, List.length_cons, List.range'_succ, List.cons.injEq] at hws
    have hnext := ih (by omega) hws.2 (h.settle S hn hws.1)
    rwa [List.foldl_cons, List.length_cons, Nat.add_comm ws.length, ← Nat.add_assoc]

end IdomSearch

namespace Digraph

variable {g : Digraph} {entry v : Nat}

/-- The algorithm gives every reachable node its immediate dominator, to the entry itself, and to the others none. -/
theorem immediateDominators_spec (hentry : entry < g.size) :
    (g.immediateDominators entry).read entry = some entry ∧
    (∀ v, g.Reaches entry v → v ≠ entry →
      ∃ d, (g.immediateDominators entry).read v = some d ∧ g.ImmediatelyDominates entry d v) ∧
    ∀ v, ¬g.Reaches entry v → (g.immediateDominators entry).read v = none := by
  obtain ⟨S, L⟩ := g.spanningTree_spans hentry
  obtain ⟨ws, hws⟩ := L.exists_met S.toGrown
  have hnumbers := L.numbers
  rw [hws, List.length_append, List.length_singleton] at hnumbers
  have hblank := IdomSearch.staged_blank S L
  rw [hws, List.length_append, List.length_singleton] at hblank
  have hstaged := hblank.foldl S L hnumbers
  have hrising : ws.reverse.map (g.spanningTree entry).number.read = List.range' 2 ws.reverse.length := by
    have hreverse := congrArg List.reverse hnumbers
    rw [← List.map_reverse, List.reverse_append, List.reverse_reverse, List.reverse_singleton, List.singleton_append,
      List.map_cons, List.range'_succ, List.cons.injEq] at hreverse
    rw [hreverse.2, List.length_reverse]
  have hsettled := (hstaged.settled_all S).foldl S (by omega) hrising
  have hread : ∀ v, (g.immediateDominators entry).read v = if v = entry then some entry else
      (ws.reverse.foldl (IdomSearch.settle (ws.foldl (IdomSearch.stage (g.spanningTree entry)) (.blank g.size)).semi)
        (ws.foldl (IdomSearch.stage (g.spanningTree entry)) (.blank g.size)).idom).read v := by
    intro v
    rw [immediateDominators, hws, Table.read_write _ hentry, List.dropLast_concat, List.reverse_append]
    rfl
  refine ⟨by rw [hread, if_pos rfl], fun v hv hne => ?_, fun v hv => ?_⟩
  · have hv0 : (g.spanningTree entry).number.read v ≠ 0 := S.num_ne_zero_iff.mpr hv
    have hv1 : (g.spanningTree entry).number.read v ≠ 1 := fun he => hne (S.inj v entry hv0 (he.trans S.num_entry.symm))
    have hlt := L.number_lt v
    rw [hws, List.length_append, List.length_singleton] at hlt
    rw [hread, if_neg hne]
    exact hsettled.below v (by omega) (by rw [List.length_reverse]; omega)
  · rw [hread, if_neg]
    · exact hsettled.unmet v (by_contra fun hv0 => hv (S.num_ne_zero_iff.mp hv0))
    · rintro rfl
      exact hv ⟨_, .nil hentry⟩

theorem immediateDominators_outside (hentry : g.size ≤ entry) (v : Nat) :
    (g.immediateDominators entry).read v = none := by
  have hmet : (g.spanningTree entry).met = [] := by
    simp [spanningTree, Loop.run, SpanningTree.step, SpanningTree.hasMet, SpanningTree.blank, hentry]
  rw [immediateDominators, hmet]
  by_cases hv : v = entry
  · exact Table.read_of_le _ (hv ▸ hentry)
  · rw [Table.read_write_of_ne _ hv]
    exact Table.read_fill g.size v

theorem dominators_isReachable (g : Digraph) (entry v : Nat) :
    (g.dominators entry).isReachable v = true ↔ g.Reaches entry v := by
  change ((g.immediateDominators entry).read v).isSome = true ↔ _
  by_cases hentry : entry < g.size
  · obtain ⟨hself, hreached, hunreached⟩ := immediateDominators_spec hentry
    by_cases hv : g.Reaches entry v
    · refine iff_of_true ?_ hv
      by_cases hne : v = entry
      · rw [hne, hself]
        rfl
      · obtain ⟨d, hd, _⟩ := hreached v hv hne
        rw [hd]
        rfl
    · rw [hunreached v hv]
      exact iff_of_false (by simp) hv
  · rw [immediateDominators_outside (Nat.le_of_not_lt hentry)]
    exact iff_of_false (by simp) fun ⟨_, hp⟩ => hentry hp.source_lt

theorem ImmediatelyDominates.ne_entry {d : Nat} (h : g.ImmediatelyDominates entry d v) : v ≠ entry := by
  rintro rfl
  exact h.1.1 (h.1.2.antisymm (.entry_left h.1.2.reaches_left))

theorem exists_idom? (hv : g.Reaches entry v) (hne : v ≠ entry) :
    ∃ d, (g.dominators entry).idom? v = some d ∧ g.ImmediatelyDominates entry d v := by
  obtain ⟨_, hp⟩ := hv
  obtain ⟨d, hd, hdom⟩ := (immediateDominators_spec hp.source_lt).2.1 v ⟨_, hp⟩ hne
  exact ⟨d, (if_neg hne).trans hd, hdom⟩

theorem dominators_idom?_eq_some_iff (g : Digraph) (entry v d : Nat) :
    (g.dominators entry).idom? v = some d ↔ g.Reaches entry v ∧ g.ImmediatelyDominates entry d v := by
  constructor
  · intro h
    have hne : v ≠ entry := fun he => by cases (if_pos he).symm.trans h
    have hv : g.Reaches entry v := by
      refine (g.dominators_isReachable entry v).mp ?_
      rw [DominatorTree.isReachable, ← show (g.dominators entry).idom? v = _ from if_neg hne, h]
      rfl
    obtain ⟨d', hd', hdom⟩ := exists_idom? hv hne
    cases hd'.symm.trans h
    exact ⟨hv, hdom⟩
  · rintro ⟨hv, hdom⟩
    obtain ⟨d', hd', hdom'⟩ := exists_idom? hv hdom.ne_entry
    rw [hd', hdom'.unique hdom]

theorem read_adopt (lists : Table g.size (List Nat)) (u v : Nat) :
    (DominatorTree.adopt entry (g.immediateDominators entry) lists u).read v =
      lists.read v ++ if (g.dominators entry).idom? u = some v then [u] else [] := by
  have hidom : (g.dominators entry).idom? u = if u = entry then none else (g.immediateDominators entry).read u := rfl
  rw [DominatorTree.adopt]
  split
  next he => rw [hidom, if_pos he, if_neg nofun, List.append_nil]
  next hne =>
    rw [if_neg hne] at hidom
    cases hd : (g.immediateDominators entry).read u with
    | none => simp [hidom, hd]
    | some d =>
      have hlt := ((g.dominators_idom?_eq_some_iff entry u d).mp (hidom.trans hd)).2.1.2.reaches_left.lt
      rw [hidom, hd]
      by_cases hv : v = d
      · simp [hv, Table.read_write_self _ hlt]
      · simp [hv, Ne.symm hv, Table.read_write_of_ne]

/-- Each node is put into the list of its immediate dominator, so every list is in reverse postorder. -/
theorem children_eq_filter (g : Digraph) (entry v : Nat) : (g.dominators entry).children v =
    (g.reversePostorder entry).filter fun u => (g.dominators entry).idom? u = some v := by
  have hfold : ∀ (us : List Nat) (lists : Table g.size (List Nat)),
      (us.foldl (DominatorTree.adopt entry (g.immediateDominators entry)) lists).read v =
        lists.read v ++ us.filter fun u => (g.dominators entry).idom? u = some v := by
    intro us
    induction us with
    | nil => simp
    | cons u us ih =>
      intro lists
      rw [List.foldl_cons, ih, read_adopt, List.append_assoc, List.filter_cons]
      by_cases hu : (g.dominators entry).idom? u = some v <;> simp [hu]
  exact (hfold _ _).trans (by rw [show (Table.fill g.size []).read v = [] from Table.read_fill g.size v, List.nil_append])

theorem mem_children {c : Nat} : c ∈ (g.dominators entry).children v ↔ (g.dominators entry).idom? c = some v := by
  rw [children_eq_filter, List.mem_filter, decide_eq_true_eq, mem_reversePostorder]
  exact and_iff_right_of_imp fun h => ((g.dominators_idom?_eq_some_iff entry c v).mp h).1

theorem nodup_children : ((g.dominators entry).children v).Nodup := by
  rw [children_eq_filter]
  exact (g.nodup_reversePostorder entry).filter _

end Digraph

end GuardElision
