import GuardElision.Proofs.Facts.Soundness

namespace GuardElision

namespace Known

/-- All origins in use are of some sort. -/
structure Credits (P : Origin → Prop) (k : Known) : Prop where
  facts : ∀ f ∈ k.facts, P f.origin
  ranges : ∀ x n, k.ranges.get? x = some n → ∀ o, n.lower = some o ∨ n.upper = some o → P o

/-- An answer names no other origins. -/
def Names (P : Origin → Prop) (e : Evidence) : Prop :=
  ∀ o, e.source = .guard o → P o

variable {P : Origin → Prop} {k : Known} {origin : Origin}

namespace Credits

theorem mono {Q : Origin → Prop} (h : k.Credits P) (hPQ : ∀ o, P o → Q o) : k.Credits Q :=
  ⟨fun f hf => hPQ _ (h.facts f hf), fun x n hn o ho => hPQ o (h.ranges x n hn o ho)⟩

theorem narrowing? (h : k.Credits P) {o : Operand} {n : Narrowing} (hn : k.narrowing? o = some n) :
    ∀ p, n.lower = some p ∨ n.upper = some p → P p := by
  obtain ⟨base, _, hn⟩ := Option.bind_eq_some_iff.mp hn
  split at hn
  next m hm =>
    obtain ⟨r, _, rfl⟩ := Option.map_eq_some_iff.mp hn
    exact h.ranges _ m hm
  next =>
    obtain rfl := Option.some.inj hn
    simp

theorem narrow (h : k.Credits P) (ho : P origin) (o : Operand) (constraint : Interval) :
    (k.narrow origin o constraint).Credits P := by
  rcases k.narrow_cases origin o constraint with he | ⟨current, range, hcurrent, -, he⟩
  · rwa [he]
  · rw [he]
    refine ⟨h.facts, fun x n hn p hp => ?_⟩
    rw [IdMap.get?_insert] at hn
    split at hn
    next =>
      obtain rfl := Option.some.inj hn
      have hbefore := h.narrowing? hcurrent p
      rcases hp with hp | hp
      · dsimp only at hp
        split at hp
        · exact hbefore (Or.inl hp)
        · exact Option.some.inj hp ▸ ho
      · dsimp only at hp
        split at hp
        · exact hbefore (Or.inr hp)
        · exact Option.some.inj hp ▸ ho
    next => exact h.ranges x n hn p hp

theorem learn (h : k.Credits P) (ho : P origin) (c : Condition) (truth : Bool) :
    (k.learn origin c truth).Credits P := by
  refine learn_induct ⟨fun f hf => ?_, fun x n hn => ?_⟩ fun k' o constraint _ hk' => hk'.narrow ho o constraint
  · rw [addFact_facts] at hf
    rcases List.mem_cons.mp hf with rfl | hf
    · exact ho
    · exact h.facts f (List.mem_filter.mp hf).1
  · exact h.ranges x n (addFact_ranges k _ ▸ hn)

end Credits

theorem Learnt.credits {classes : ClassTable} {lessons : List Lesson} (h : Learnt classes lessons k)
    (hP : ∀ l ∈ lessons, P l.origin) : k.Credits P := by
  induction h with
  | nil => exact ⟨by simp, fun x n hn => by simp at hn⟩
  | cons _ _ _ _ ih =>
    exact (ih fun l hl => hP l (List.mem_cons_of_mem _ hl)).learn (hP _ List.mem_cons_self) _ _

theorem impliedNull?_names (hk : k.Mirrored) (h : k.Credits P) {x : NodeId} {s : Stamp} {e : Evidence}
    (he : k.impliedNull? x s = some e) : Names P e := by
  unfold impliedNull? at he
  split at he
  · obtain rfl := Option.some.inj he
    intro o ho
    cases ho
  split at he
  · obtain rfl := Option.some.inj he
    intro o ho
    cases ho
  obtain ⟨p, hp, rfl⟩ := Option.map_eq_some_iff.mp he
  intro o ho
  cases ho
  exact h.facts _ (hk.mem_classFacts.mp (List.mem_of_find?_eq_some hp))

theorem impliedClass?_names (hk : k.Mirrored) (h : k.Credits P) {classes : ClassTable} {x : NodeId} {cls : ClassId}
    {s : Stamp} {e : Evidence} (he : impliedClass? classes k x cls s = some e) : Names P e := by
  unfold impliedClass? at he
  split at he
  · obtain rfl := Option.some.inj he
    intro o ho
    cases ho
  rcases foldl_best?_eq_some he with he | ⟨p, hp, he⟩
  · obtain ⟨f, hf, he⟩ := Option.bind_eq_some_iff.mp he
    obtain ⟨t, _, rfl⟩ := Option.map_eq_some_iff.mp he
    intro o ho
    cases ho
    exact h.facts f (List.mem_of_find?_eq_some hf)
  · obtain ⟨t, _, rfl⟩ := Option.map_eq_some_iff.mp he
    intro o ho
    cases ho
    exact h.facts _ (hk.mem_classFacts.mp hp)

theorem source?_names {n : Narrowing} (hn : ∀ p, n.lower = some p ∨ n.upper = some p → P p) {s : Source}
    (hs : n.source? = some s) {o : Origin} (ho : s = .guard o) : P o := by
  unfold Narrowing.source? at hs
  subst ho
  split at hs
  next l u hl hu =>
    have hs := Source.guard.inj (Option.some.inj hs)
    split at hs
    · exact hn o (Or.inr (hs ▸ hu))
    · exact hn o (Or.inl (hs ▸ hl))
  next =>
    obtain ⟨p, hp, hs⟩ := Option.map_eq_some_iff.mp hs
    obtain rfl := Source.guard.inj hs
    rw [Option.orElse_eq_orElse, Option.orElse_eq_or, Option.or_eq_some_iff] at hp
    rcases hp with hp | ⟨_, hp⟩
    · exact hn p (Or.inl hp)
    · exact hn p (Or.inr hp)

theorem impliedOrder?_names (h : k.Credits P) {decide? : Interval → Interval → Option Bool} {a b : Operand}
    {e : Evidence} (he : k.impliedOrder? decide? a b = some e) : Names P e := by
  obtain ⟨ra, _, he⟩ := Option.bind_eq_some_iff.mp he
  obtain ⟨rb, _, he⟩ := Option.bind_eq_some_iff.mp he
  split at he
  · obtain rfl := Option.some.inj he
    intro o ho
    cases ho
  obtain ⟨na, hna, he⟩ := Option.bind_eq_some_iff.mp he
  obtain ⟨nb, hnb, he⟩ := Option.bind_eq_some_iff.mp he
  obtain ⟨t, _, he⟩ := Option.bind_eq_some_iff.mp he
  obtain rfl := Option.some.inj he
  intro o ho
  dsimp only at ho
  split at ho
  next x y hx hy =>
    obtain ⟨p, rfl⟩ := source?_isGuard hx
    obtain ⟨q, rfl⟩ := source?_isGuard hy
    simp only [Source.closer] at ho
    split at ho
    · exact source?_names (h.narrowing? hna) hx ho
    · exact source?_names (h.narrowing? hnb) hy ho
  next x hx _ => exact source?_names (h.narrowing? hna) hx ho
  next y _ hy => exact source?_names (h.narrowing? hnb) hy ho
  next => cases ho

theorem implied?_names (hk : k.Mirrored) (h : k.Credits P) {classes : ClassTable} {c : Condition} {e : Evidence}
    (he : implied? classes k c = some e) : Names P e := by
  unfold implied? at he
  split at he
  · exact impliedNull?_names hk h he
  · exact impliedClass?_names hk h he
  · exact impliedOrder?_names h he
  · exact impliedOrder?_names h he
  · exact impliedOrder?_names h he

theorem lookup?_names (hk : k.Mirrored) (h : k.Credits P) {classes : ClassTable} {c : Condition} {e : Evidence}
    (he : lookup? classes k c = some e) : Names P e := by
  rcases best?_eq_some he with he | he
  · obtain ⟨f, hf, rfl⟩ := Option.map_eq_some_iff.mp he
    intro o ho
    cases ho
    exact h.facts f (List.mem_of_find?_eq_some hf)
  · exact implied?_names hk h he

end Known

end GuardElision
