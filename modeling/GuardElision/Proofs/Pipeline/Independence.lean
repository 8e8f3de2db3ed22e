import GuardElision.Pipeline.Schedule
import GuardElision.Proofs.Pipeline.Unchanged

/-!
A run that reports no change leaves the method where every further run leaves it too, so the extra runs that
other methods cause do nothing.
-/

namespace GuardElision

namespace IdMap

theorem mem_keys {α : Type} {m : IdMap α} {k : Nat} : k ∈ m.keys ↔ (m.get? k).isSome := by
  simp [keys, get?, List.find?_isSome]

theorem nodup_keys {α : Type} (m : IdMap α) : m.keys.Nodup :=
  (List.pairwise_map.mpr m.ascending).imp Nat.ne_of_lt

end IdMap

/-- What the compilation knows of one method. -/
@[ext] structure MethodState where
  graph? : Option Graph
  outcome? : Option MethodOutcome

theorem MethodOutcome.afterRun_afterRun (o : Option MethodOutcome) :
    afterRun false (some (afterRun false o)) = afterRun false o := by
  rcases o with _ | _ | _ <;> simp [afterRun]

namespace Context

def method (c : Context) (m : MethodId) : MethodState :=
  ⟨c.graph? m, c.outcome? m⟩

/-- A context that holds the given methods. -/
def ofMethods (methods : List (MethodId × Graph)) : Context :=
  methods.foldl (fun c method => c.addMethod method.1 method.2) {}

theorem method_addMethod (c : Context) (m k : MethodId) (g : Graph) :
    (c.addMethod m g).method k = if k = m then ⟨some g, none⟩ else c.method k := by
  simp only [method, graph?, outcome?, addMethod, IdMap.get?_insert, IdMap.get?_erase]
  split <;> rfl

theorem method_foldl_addMethod_of_notMem {methods : List (MethodId × Graph)} {m : MethodId}
    (h : m ∉ methods.map (·.1)) (c : Context) :
    (methods.foldl (fun c method => c.addMethod method.1 method.2) c).method m = c.method m := by
  induction methods generalizing c with
  | nil => rfl
  | cons first rest ih =>
    obtain ⟨hne, hrest⟩ := not_or.mp (mt List.mem_cons.mpr h)
    rw [List.foldl_cons, ih hrest, method_addMethod, if_neg hne]

theorem method_foldl_addMethod {methods : List (MethodId × Graph)} (hnodup : (methods.map (·.1)).Nodup)
    {m : MethodId} {g : Graph} (h : (m, g) ∈ methods) (c : Context) :
    (methods.foldl (fun c method => c.addMethod method.1 method.2) c).method m = ⟨some g, none⟩ := by
  induction methods generalizing c with
  | nil => cases h
  | cons first rest ih =>
    obtain ⟨hfirst, hrest⟩ := List.nodup_cons.mp hnodup
    rw [List.foldl_cons]
    rcases List.mem_cons.mp h with rfl | h
    · rw [method_foldl_addMethod_of_notMem hfirst, method_addMethod, if_pos rfl]
    · exact ih hrest h _

theorem method_ofMethods {methods : List (MethodId × Graph)} (hnodup : (methods.map (·.1)).Nodup) {m : MethodId}
    {g : Graph} (h : (m, g) ∈ methods) : (ofMethods methods).method m = ⟨some g, none⟩ :=
  method_foldl_addMethod hnodup h {}

end Context

section Rest

variable {α : Type} {f : α → Bool × α} {x y : α}

/-- An action that reports no change leads to where it changes nothing. -/
def ComesToRest (f : α → Bool × α) : Prop :=
  ∀ x y, f x = (false, y) → f y = (false, y)

/-- At most `n` times the action, until it reports no change. -/
def untilRest (f : α → Bool × α) : Nat → α → Bool × α
  | 0, x => (false, x)
  | n + 1, x =>
    match f x with
    | (true, y) => (true, (untilRest f n y).2)
    | (false, y) => (false, y)

theorem untilRest_of_rest (h : f x = (false, x)) (n : Nat) : untilRest f n x = (false, x) := by
  cases n with
  | zero => rfl
  | succ n => simp [untilRest, h]

theorem untilRest_succ_eq_false {n : Nat} : untilRest f (n + 1) x = (false, y) ↔ f x = (false, y) := by
  rcases hx : f x with ⟨_ | _, z⟩ <;> simp [untilRest, hx]

theorem comesToRest_untilRest (hf : ComesToRest f) (n : Nat) : ComesToRest (untilRest f n) := by
  intro x y h
  cases n with
  | zero => rfl
  | succ n => exact untilRest_succ_eq_false.mpr (hf x y (untilRest_succ_eq_false.mp h))

theorem untilRest_keeps {P : α → Prop} (hf : ∀ x, P x → P (f x).2) (n : Nat) (hx : P x) : P (untilRest f n x).2 := by
  induction n generalizing x with
  | zero => exact hx
  | succ n ih =>
    have hy := hf x hx
    rcases hstep : f x with ⟨_ | _, y⟩ <;> rw [hstep] at hy <;> simp only [untilRest, hstep]
    · exact hy
    · exact ih hy

/-- One action after the other. -/
def inTurn (fs : List (α → Bool × α)) (x : α) : Bool × α :=
  match fs with
  | [] => (false, x)
  | f :: rest => ((f x).1 || (inTurn rest (f x).2).1, (inTurn rest (f x).2).2)

/-- An action at rest stays at rest when another one reports no change. -/
def KeepsRest (f g : α → Bool × α) : Prop :=
  ∀ x y, f x = (false, x) → g x = (false, y) → f y = (false, y)

theorem keepsRest_untilRest {g : α → Bool × α} (h : KeepsRest f g) (n : Nat) :
    KeepsRest (untilRest f n) (untilRest g n) := by
  intro x y hx hy
  cases n with
  | zero => rfl
  | succ n =>
    exact untilRest_succ_eq_false.mpr (h x y (untilRest_succ_eq_false.mp hx) (untilRest_succ_eq_false.mp hy))

theorem inTurn_cons_eq_false {fs : List (α → Bool × α)} :
    inTurn (f :: fs) x = (false, y) ↔ ∃ z, f x = (false, z) ∧ inTurn fs z = (false, y) := by
  rcases hx : f x with ⟨_ | _, z⟩ <;> simp [inTurn, hx, Prod.ext_iff]

theorem inTurn_keeps {P : α → Prop} {fs : List (α → Bool × α)} (hfs : ∀ f ∈ fs, ∀ x, P x → P (f x).2) (hx : P x) :
    P (inTurn fs x).2 := by
  induction fs generalizing x with
  | nil => exact hx
  | cons f fs ih =>
    obtain ⟨hf, hfs⟩ := List.forall_mem_cons.mp hfs
    exact ih hfs (hf x hx)

theorem inTurn_of_rest {fs : List (α → Bool × α)} (h : ∀ f ∈ fs, f x = (false, x)) :
    inTurn fs x = (false, x) := by
  induction fs with
  | nil => rfl
  | cons f fs ih =>
    obtain ⟨hf, hfs⟩ := List.forall_mem_cons.mp h
    exact inTurn_cons_eq_false.mpr ⟨x, hf, ih hfs⟩

theorem keepsRest_inTurn {fs : List (α → Bool × α)} (h : ∀ g ∈ fs, KeepsRest f g) : KeepsRest f (inTurn fs) := by
  intro x y hx hy
  induction fs generalizing x with
  | nil =>
    obtain ⟨-, rfl⟩ := Prod.mk.inj hy
    exact hx
  | cons g fs ih =>
    obtain ⟨hg, hfs⟩ := List.forall_mem_cons.mp h
    obtain ⟨z, hz, hy⟩ := inTurn_cons_eq_false.mp hy
    exact ih hfs z (hg x z hx hz) hy

theorem rest_of_inTurn {fs : List (α → Bool × α)} (hrest : ∀ f ∈ fs, ComesToRest f)
    (hkeep : ∀ f ∈ fs, ∀ g ∈ fs, KeepsRest f g) (h : inTurn fs x = (false, y)) :
    ∀ f ∈ fs, f y = (false, y) := by
  induction fs generalizing x with
  | nil => simp
  | cons g fs ih =>
    obtain ⟨z, hz, hy⟩ := inTurn_cons_eq_false.mp h
    obtain ⟨hg, hfs⟩ := List.forall_mem_cons.mp hrest
    have hkeeps : KeepsRest g (inTurn fs) :=
      keepsRest_inTurn fun f hf => hkeep g List.mem_cons_self f (List.mem_cons_of_mem g hf)
    have hkeep' : ∀ f ∈ fs, ∀ f' ∈ fs, KeepsRest f f' := fun f hf f' hf' =>
      hkeep f (List.mem_cons_of_mem g hf) f' (List.mem_cons_of_mem g hf')
    exact List.forall_mem_cons.mpr ⟨hkeeps z y (hg x z hz) hy, ih hfs hkeep' hy⟩

/-- Actions that keep each other at rest come to rest together. -/
theorem comesToRest_inTurn {fs : List (α → Bool × α)} (hrest : ∀ f ∈ fs, ComesToRest f)
    (hkeep : ∀ f ∈ fs, ∀ g ∈ fs, KeepsRest f g) : ComesToRest (inTurn fs) :=
  fun _ _ h => inTurn_of_rest (rest_of_inTurn hrest hkeep h)

end Rest

namespace Workspace

variable {σ α : Type} {x : Attempt Draft α} {changed : α → Bool} {report : α → EventLog → EventLog} {w w' : Workspace σ}

theorem change_ok {b : Bool} (h : change x changed report w = .ok b w') :
    ∃ a d, x { graph := w.graph } = .ok a d ∧ changed a = b ∧
      w' = if b then { w with graph := d.graph, events := w.events.append (report a d.log) }
        else { w with graph := d.graph } := by
  obtain ⟨⟨a, log⟩, w₁, hdraft, h⟩ := Attempt.bind_ok.mp h
  unfold onDraft at hdraft
  cases hx : x { graph := w.graph } with
  | error e d =>
    rw [hx] at hdraft
    cases hdraft
  | ok a' d =>
    rw [hx] at hdraft
    obtain ⟨ha, rfl⟩ := EStateM.Result.ok.inj hdraft
    obtain ⟨rfl, rfl⟩ := Prod.mk.inj ha
    refine ⟨a', d, rfl, ?_⟩
    cases hb : changed a' with
    | true =>
      simp only [hb, ↓reduceIte] at h
      have h := Attempt.modify_bind_ok.mp h
      obtain ⟨rfl, rfl⟩ := Attempt.pure_ok.mp h
      exact ⟨rfl, rfl⟩
    | false =>
      simp only [hb, Bool.false_eq_true, ↓reduceIte] at h
      obtain ⟨rfl, rfl⟩ := Attempt.pure_ok.mp h
      exact ⟨rfl, rfl⟩

/-- A run that fails may have changed its draft, but has shown nothing. -/
theorem change_error {f : Fault} (h : change x changed report w = .error f w') :
    ∃ d, x { graph := w.graph } = .error f d ∧ w' = { w with graph := d.graph } := by
  unfold change onDraft at h
  cases hx : x { graph := w.graph } with
  | error e d =>
    simp only [bind, EStateM.bind, hx] at h
    obtain ⟨rfl, rfl⟩ := EStateM.Result.error.inj h
    exact ⟨d, rfl, rfl⟩
  | ok a d =>
    simp only [bind, EStateM.bind, hx] at h
    cases hb : changed a with
    | true =>
      simp only [hb, ↓reduceIte] at h
      cases h
    | false =>
      simp only [hb, Bool.false_eq_true, ↓reduceIte] at h
      cases h

theorem change_state (w : Workspace σ) : ((change x changed report).state w).state = w.state := by
  unfold Attempt.state
  split
  next h =>
    obtain ⟨_, _, _, _, rfl⟩ := change_ok h
    split <;> rfl
  next h =>
    obtain ⟨_, _, rfl⟩ := change_error h
    rfl

end Workspace

namespace Pass

variable {σ : Type} {p q : Pass σ} {s : σ} {m : MethodId} {x y : MethodState}

/-- A pass that works on nothing but the graph of a method, and reports every change. -/
structure Local (p : Pass σ) : Prop where
  setUp_eq : ∀ s, p.setUp s = .ok s
  tearDown_eq : ∀ s, p.tearDown s = .ok s
  state_eq : ∀ m w, ((p.run m).state w).state = w.state
  graph_eq : ∀ {m w w'}, p.run m w = .ok false w' → w'.graph = w.graph

theorem canonicalization_run (m : MethodId) : (canonicalization (σ := σ)).run m =
    Workspace.change (Draft.canonicalize (some m)) (fun changes => !changes.isEmpty) fun _ log => log :=
  rfl

theorem elimination_run (config : EliminationConfig) (m : MethodId) : (elimination (σ := σ) config).run m =
    Workspace.change (Draft.eliminate config (some m)) Tally.changed fun tally log =>
      log.record { kind := .info, method := some m, pass := some Walk.passName, message := tally.text } :=
  rfl

theorem canonicalization_local : (canonicalization (σ := σ)).Local where
  setUp_eq _ := rfl
  tearDown_eq _ := rfl
  state_eq m w := by
    rw [canonicalization_run]
    exact Workspace.change_state w
  graph_eq h := by
    rw [canonicalization_run] at h
    obtain ⟨changes, d, hrun, hchanged, rfl⟩ := Workspace.change_ok h
    have hempty : changes.isEmpty = true := by simpa using hchanged
    exact Draft.canonicalize_unchanged hrun (by simpa using (Bool.and_eq_true_iff.mp hempty).1)

theorem elimination_local (config : EliminationConfig) : (elimination (σ := σ) config).Local where
  setUp_eq _ := rfl
  tearDown_eq _ := rfl
  state_eq m w := by
    rw [elimination_run]
    exact Workspace.change_state w
  graph_eq h := by
    rw [elimination_run] at h
    obtain ⟨tally, d, hrun, hchanged, rfl⟩ := Workspace.change_ok h
    exact Draft.eliminate_unchanged hrun hchanged

/-- The graph that the pass runs on, unless the method has failed or the pass does not apply. -/
def takes? (p : Pass σ) (m : MethodId) (x : MethodState) : Option Graph :=
  if x.outcome?.any (·.isFailure) || !p.applies m x.graph? then none else x.graph?

/-- What the pass does to a method, and whether it reports a change. -/
def stepOn (p : Pass σ) (s : σ) (m : MethodId) (x : MethodState) : Bool × MethodState :=
  match p.takes? m x with
  | none => (false, x)
  | some g =>
    match p.run m { graph := g, state := s } with
    | .ok changed w => (changed, ⟨some w.graph, some (.afterRun changed x.outcome?)⟩)
    | .error f _ => (false, ⟨some g, some (.unoptimized f)⟩)

theorem takes?_of_failed (g? : Option Graph) (f : Fault) : p.takes? m ⟨g?, some (.unoptimized f)⟩ = none := rfl

theorem takes?_eq_some {g : Graph} (h : p.takes? m x = some g) :
    x.outcome?.any (·.isFailure) = false ∧ x.graph? = some g := by
  unfold takes? at h
  split at h
  next => cases h
  next hrun => exact ⟨by simp_all, h⟩

/-- A run in vain changes nothing about what other passes take. -/
theorem takes?_afterRun {g : Graph} (h : q.takes? m x = some g) (b : Bool) :
    p.takes? m ⟨some g, some (.afterRun b x.outcome?)⟩ = p.takes? m x := by
  obtain ⟨hfailed, hg⟩ := takes?_eq_some h
  have hafter : (MethodOutcome.afterRun b x.outcome?).isFailure = false := by
    rcases ho : x.outcome? with _ | _ | _
    · rfl
    · rfl
    · simp [ho, MethodOutcome.isFailure] at hfailed
  simp [takes?, hfailed, hafter, hg]

theorem stepOn_of_none (h : p.takes? m x = none) : p.stepOn s m x = (false, x) := by
  simp only [stepOn, h]

theorem stepOn_of_ok {g : Graph} {changed : Bool} {w : Workspace σ} (h : p.takes? m x = some g)
    (hr : p.run m { graph := g, state := s } = .ok changed w) :
    p.stepOn s m x = (changed, ⟨some w.graph, some (.afterRun changed x.outcome?)⟩) := by
  simp only [stepOn, h, hr]

theorem stepOn_of_error {g : Graph} {f : Fault} {w : Workspace σ} (h : p.takes? m x = some g)
    (hf : p.run m { graph := g, state := s } = .error f w) :
    p.stepOn s m x = (false, ⟨some g, some (.unoptimized f)⟩) := by
  simp only [stepOn, h, hf]

theorem stepOn_eq_false (hp : p.Local) (h : p.stepOn s m x = (false, y)) :
    (p.takes? m x = none ∧ y = x) ∨
    (∃ g w, p.takes? m x = some g ∧ p.run m { graph := g, state := s } = .ok false w ∧ w.graph = g ∧
      y = ⟨some g, some (.afterRun false x.outcome?)⟩) ∨
    ∃ g f, p.takes? m x = some g ∧ y = ⟨some g, some (.unoptimized f)⟩ := by
  cases htakes : p.takes? m x with
  | none =>
    rw [stepOn_of_none htakes] at h
    exact .inl ⟨rfl, (Prod.mk.inj h).2.symm⟩
  | some g =>
    cases hrun : p.run m { graph := g, state := s } with
    | error f w =>
      rw [stepOn_of_error htakes hrun] at h
      exact .inr (.inr ⟨g, f, rfl, (Prod.mk.inj h).2.symm⟩)
    | ok changed w =>
      rw [stepOn_of_ok htakes hrun] at h
      obtain ⟨rfl, rfl⟩ := Prod.mk.inj h
      have hg : w.graph = g := hp.graph_eq hrun
      exact .inr (.inl ⟨g, w, rfl, hrun, hg, by rw [hg]⟩)

/-- After a run in vain, the next run of the same pass is in vain too and leaves no new mark. -/
theorem stepOn_afterRun {g : Graph} {w : Workspace σ} (hq : q.takes? m x = some g) (hp : p.takes? m x = some g)
    (hrun : p.run m { graph := g, state := s } = .ok false w) (hg : w.graph = g) :
    p.stepOn s m ⟨some g, some (.afterRun false x.outcome?)⟩ =
      (false, ⟨some g, some (.afterRun false x.outcome?)⟩) := by
  rw [stepOn_of_ok ((takes?_afterRun hq false).trans hp) hrun, hg, MethodOutcome.afterRun_afterRun]

theorem comesToRest_stepOn (hp : p.Local) (s : σ) (m : MethodId) : ComesToRest (p.stepOn s m) := by
  intro x y h
  rcases stepOn_eq_false hp h with ⟨-, rfl⟩ | ⟨g, w, htakes, hrun, hg, rfl⟩ | ⟨g, f, -, rfl⟩
  · exact h
  · exact stepOn_afterRun htakes htakes hrun hg
  · exact stepOn_of_none (takes?_of_failed (some g) f)

theorem keepsRest_stepOn (hp : p.Local) (hq : q.Local) (s : σ) (m : MethodId) :
    KeepsRest (p.stepOn s m) (q.stepOn s m) := by
  intro x y hx hy
  rcases stepOn_eq_false hq hy with ⟨-, rfl⟩ | ⟨g, _, hq, -, -, rfl⟩ | ⟨g, f, -, rfl⟩
  · exact hx
  · rcases stepOn_eq_false hp hx with ⟨hnone, -⟩ | ⟨g', w, hp, hrun, hg, -⟩ | ⟨g', f, hp, hx'⟩
    · exact stepOn_of_none ((takes?_afterRun hq false).trans hnone)
    · obtain rfl : g = g' := Option.some.inj ((takes?_eq_some hq).2.symm.trans (takes?_eq_some hp).2)
      exact stepOn_afterRun hq hp hrun hg
    · rw [hx', takes?_of_failed] at hp
      cases hp
  · exact stepOn_of_none (takes?_of_failed (some g) f)

theorem stepOn_graph?_isSome (h : x.graph?.isSome) : (p.stepOn s m x).2.graph?.isSome := by
  unfold stepOn
  split
  next => exact h
  next => split <;> rfl

theorem runOn_of_none {c : Compilation σ} (h : p.takes? m (c.context.method m) = none) : p.runOn c m = (false, c) := by
  unfold runOn
  split
  next => rfl
  next hrun =>
    have hgraph : c.context.graphs.get? m = none := (if_neg hrun).symm.trans h
    simp only [Context.takeGraph, hgraph]

/-- What a run finds and leaves in the context. The graph is out of it while the pass is at work. -/
theorem runOn_of_some {c : Compilation σ} {g : Graph} (h : p.takes? m (c.context.method m) = some g) :
    p.runOn c m =
      let started := c.context.log.record (p.event .passStarted m)
      let graphs := c.context.graphs.erase m
      match p.run m { graph := g, state := c.state } with
      | .ok changed w => (changed, ⟨⟨graphs.insert m w.graph,
          c.context.outcomes.insert m (.afterRun changed (c.context.outcome? m)),
          (started.append w.events).record (p.event .passCompleted m)⟩, w.state⟩)
      | .error f w => (false, ⟨⟨graphs.insert m g, c.context.outcomes.insert m (.unoptimized f),
          (started.append w.events).record { p.event .methodFailed m with message := f.text }⟩, w.state⟩) := by
  unfold runOn
  split
  next hskip => cases h.symm.trans (if_pos hskip)
  next =>
    have hgraph : c.context.graphs.get? m = some g := (takes?_eq_some h).2
    simp only [Context.takeGraph, hgraph]
    rfl

theorem get?_putBack (graphs : IdMap Graph) (m k : MethodId) (g : Graph) :
    ((graphs.erase m).insert m g).get? k = if k = m then some g else graphs.get? k := by
  rw [IdMap.get?_insert, IdMap.get?_erase]
  split <;> rfl

theorem runOn_spec (hp : p.Local) (c : Compilation σ) (m : MethodId) :
    (p.runOn c m).1 = (p.stepOn c.state m (c.context.method m)).1 ∧
    (p.runOn c m).2.state = c.state ∧
    ∀ k, (p.runOn c m).2.context.method k =
      if k = m then (p.stepOn c.state m (c.context.method m)).2 else c.context.method k := by
  cases htakes : p.takes? m (c.context.method m) with
  | none =>
    rw [runOn_of_none htakes, stepOn_of_none htakes]
    refine ⟨rfl, rfl, fun k => ?_⟩
    split
    next hk => rw [hk]
    next => rfl
  | some g =>
    have hstate := hp.state_eq m { graph := g, state := c.state }
    rw [runOn_of_some htakes]
    cases hrun : p.run m { graph := g, state := c.state } with
    | ok changed w =>
      rw [Attempt.state, hrun] at hstate
      rw [stepOn_of_ok htakes hrun]
      refine ⟨rfl, hstate, fun k => ?_⟩
      simp only [Context.method, Context.graph?, Context.outcome?]
      rw [get?_putBack, IdMap.get?_insert]
      split <;> rfl
    | error f w =>
      rw [Attempt.state, hrun] at hstate
      rw [stepOn_of_error htakes hrun]
      refine ⟨rfl, hstate, fun k => ?_⟩
      simp only [Context.method, Context.graph?, Context.outcome?]
      rw [get?_putBack, IdMap.get?_insert]
      split <;> rfl

theorem foldl_runOn_spec (hp : p.Local) {order : List MethodId} (hnodup : order.Nodup) (b : Bool) (c : Compilation σ) :
    let r := order.foldl (fun (changed, c) m => (changed || (p.runOn c m).1, (p.runOn c m).2)) (b, c)
    (b = true → r.1 = true) ∧ r.2.state = c.state ∧
    ∀ k, (k ∈ order → (p.stepOn c.state k (c.context.method k)).1 = true → r.1 = true) ∧
      r.2.context.method k =
        if k ∈ order then (p.stepOn c.state k (c.context.method k)).2 else c.context.method k := by
  induction order generalizing b c with
  | nil => simp
  | cons m rest ih =>
    obtain ⟨hm, hrest⟩ := List.nodup_cons.mp hnodup
    obtain ⟨hchanged, hstate, hmethod⟩ := runOn_spec hp c m
    obtain ⟨hb, hstate', hmethods⟩ := ih hrest (b || (p.runOn c m).1) (p.runOn c m).2
    dsimp only at hb hstate' hmethods ⊢
    rw [List.foldl_cons]
    refine ⟨fun h => hb (by simp [h]), hstate'.trans hstate, fun k => ?_⟩
    obtain ⟨hk, hk'⟩ := hmethods k
    rw [hstate, hmethod] at hk hk'
    by_cases hkm : k = m
    · subst hkm
      refine ⟨fun _ h => hb (by simp [hchanged, h]), ?_⟩
      rw [hk', if_neg hm, if_pos rfl, if_pos List.mem_cons_self]
    · rw [if_neg hkm] at hk hk'
      refine ⟨fun hmem => hk (List.mem_of_ne_of_mem hkm hmem), ?_⟩
      rw [hk']
      simp [hkm]

end Pass

/-- The attempt acts on every method by `f`, and reports a change when one of them has changed. -/
def ActsBy {σ : Type} (s : σ) (f : MethodId → MethodState → Bool × MethodState) (x : Attempt (Compilation σ) Bool) :
    Prop :=
  ∀ c, c.state = s → ∃ b c', x c = .ok b c' ∧ c'.state = s ∧
    ∀ m, ((f m (c.context.method m)).1 = true → b = true) ∧ c'.context.method m = (f m (c.context.method m)).2

namespace Pass

variable {σ : Type} {p : Pass σ} {order : Context → List MethodId}

theorem onState_of_eq {f : σ → Except Fault σ} {c : Compilation σ} (h : f c.state = .ok c.state) :
    onState f c = .ok () c := by
  refine Attempt.step_ok.mpr ?_
  rw [h]
  rfl

theorem runOnce_actsBy (hp : p.Local) (horder : ∀ c, (order c).Perm c.methodIds) (s : σ) :
    ActsBy s (p.stepOn s) (p.runOnce order) := by
  rintro c rfl
  have hnodup : (order c.context).Nodup := (horder c.context).nodup_iff.mpr c.context.graphs.nodup_keys
  obtain ⟨-, hstate, hmethods⟩ := foldl_runOn_spec hp hnodup false c
  refine ⟨(p.runOnAll (order c.context) c).1, (p.runOnAll (order c.context) c).2, ?_, hstate, fun m => ?_⟩
  · refine Attempt.bind_ok.mpr ⟨(), c, onState_of_eq (hp.setUp_eq _), ?_⟩
    refine Attempt.bind_ok.mpr ⟨_, _, rfl, ?_⟩
    exact Attempt.bind_ok.mpr ⟨(), _, onState_of_eq (hp.tearDown_eq _), rfl⟩
  · by_cases hm : m ∈ order c.context
    · obtain ⟨hchanged, hmethod⟩ := hmethods m
      exact ⟨hchanged hm, hmethod.trans (if_pos hm)⟩
    · have hgraph : c.context.graph? m = none := by
        rw [(horder c.context).mem_iff, Context.methodIds, IdMap.mem_keys] at hm
        exact Option.not_isSome_iff_eq_none.mp hm
      have htakes : p.takes? m (c.context.method m) = none := by
        cases h : p.takes? m (c.context.method m) with
        | none => rfl
        | some g => exact absurd (takes?_eq_some h).2 (by simp [Context.method, hgraph])
      rw [stepOn_of_none htakes]
      exact ⟨nofun, (hmethods m).2.trans (if_neg hm)⟩

theorem repeated_actsBy (hp : p.Local) (horder : ∀ c, (order c).Perm c.methodIds) (s : σ) (n : Nat) :
    ActsBy s (fun m => untilRest (p.stepOn s m) n) (p.repeated order n) := by
  induction n with
  | zero => exact fun c hc => ⟨false, c, rfl, hc, fun m => ⟨id, rfl⟩⟩
  | succ n ih =>
    intro c hc
    obtain ⟨b, c₁, hrun, hc₁, hmethods⟩ := runOnce_actsBy hp horder s c hc
    cases b with
    | false =>
      refine ⟨false, c₁, Attempt.bind_ok.mpr ⟨false, c₁, hrun, rfl⟩, hc₁, fun m => ?_⟩
      obtain ⟨hchanged, hmethod⟩ := hmethods m
      have hstep : p.stepOn s m (c.context.method m) = (false, c₁.context.method m) :=
        Prod.ext (by simpa using hchanged) hmethod.symm
      simp [untilRest, hstep]
    | true =>
      obtain ⟨_, c₂, hrest, hc₂, hmethods₂⟩ := ih c₁ hc₁
      refine ⟨true, c₂, Attempt.bind_ok.mpr ⟨true, c₁, hrun, Attempt.bind_ok.mpr ⟨_, c₂, hrest, rfl⟩⟩, hc₂, fun m => ?_⟩
      refine ⟨fun _ => rfl, ?_⟩
      rw [(hmethods₂ m).2, (hmethods m).2]
      rcases hstep : p.stepOn s m (c.context.method m) with ⟨_ | _, y⟩
      · -- The method is at rest, but others are not.
        simp [untilRest, hstep, untilRest_of_rest (comesToRest_stepOn hp s m _ _ hstep)]
      · simp [untilRest, hstep]

end Pass

namespace Schedule

variable {σ : Type} {s : Schedule σ}

/-- What one iteration does to a method. -/
def iterationOn (s : Schedule σ) (passes : List (Pass σ)) (state : σ) (m : MethodId) :
    MethodState → Bool × MethodState :=
  inTurn (passes.map fun p => untilRest (p.stepOn state m) s.maxRepeats)

theorem iterate_actsBy {passes : List (Pass σ)} (hlocal : ∀ p ∈ passes, p.Local)
    (horder : ∀ c, (s.order c).Perm c.methodIds) (state : σ) :
    ActsBy state (s.iterationOn passes state) (s.iterate passes) := by
  induction passes with
  | nil => exact fun c hc => ⟨false, c, rfl, hc, fun m => ⟨id, rfl⟩⟩
  | cons p rest ih =>
    obtain ⟨hp, hrest⟩ := List.forall_mem_cons.mp hlocal
    intro c hc
    obtain ⟨here, c₁, hrun, hc₁, hmethods₁⟩ := Pass.repeated_actsBy hp horder state s.maxRepeats c hc
    obtain ⟨later, c₂, hlater, hc₂, hmethods₂⟩ := ih hrest c₁ hc₁
    refine ⟨here || later, c₂, ?_, hc₂, fun m => ?_⟩
    · exact Attempt.bind_ok.mpr ⟨here, c₁, hrun, Attempt.bind_ok.mpr ⟨later, c₂, hlater, rfl⟩⟩
    · obtain ⟨hhere, hm₁⟩ := hmethods₁ m
      obtain ⟨hthere, hm₂⟩ := hmethods₂ m
      rw [hm₁] at hthere hm₂
      refine ⟨fun h => ?_, hm₂⟩
      rcases Bool.or_eq_true_iff.mp h with h | h
      · simp [hhere h]
      · simp [hthere h]

theorem comesToRest_iterationOn {passes : List (Pass σ)} (hlocal : ∀ p ∈ passes, p.Local) (state : σ) (m : MethodId) :
    ComesToRest (s.iterationOn passes state m) := by
  refine comesToRest_inTurn (fun f hf => ?_) (fun f hf g hg => ?_)
  · obtain ⟨p, hp, rfl⟩ := List.mem_map.mp hf
    exact comesToRest_untilRest (Pass.comesToRest_stepOn (hlocal p hp) state m) s.maxRepeats
  · obtain ⟨p, hp, rfl⟩ := List.mem_map.mp hf
    obtain ⟨q, hq, rfl⟩ := List.mem_map.mp hg
    exact keepsRest_untilRest (Pass.keepsRest_stepOn (hlocal p hp) (hlocal q hq) state m) s.maxRepeats

/-- Every method takes the iterations it needs. Further ones find it at rest, whatever the others do. -/
theorem iterations_spec (hlocal : ∀ p ∈ s.passes, p.Local) (horder : ∀ c, (s.order c).Perm c.methodIds) (n stable : Nat)
    (c : Compilation σ) :
    ∃ k c', s.iterations n stable c = .ok k c' ∧
      ∀ m, c'.context.method m = (untilRest (s.iterationOn s.passes c.state m) n (c.context.method m)).2 := by
  induction n generalizing stable c with
  | zero => exact ⟨0, c, rfl, fun m => rfl⟩
  | succ n ih =>
    obtain ⟨changed, c₁, hiterate, hc₁, hmethods⟩ := iterate_actsBy hlocal horder c.state c rfl
    obtain ⟨k, c₂, hrest, hmethods₂⟩ := ih (if changed then 0 else stable + 1) c₁
    by_cases hstop : (!changed && decide (s.stableIterations ≤ if changed then 0 else stable + 1)) = true
    · have hchanged : changed = false := by simpa using (Bool.and_eq_true_iff.mp hstop).1
      refine ⟨1, c₁, Attempt.bind_ok.mpr ⟨changed, c₁, hiterate, ?_⟩, fun m => ?_⟩
      · rw [if_pos hstop]
        rfl
      · obtain ⟨hm, hm₁⟩ := hmethods m
        have hiter : s.iterationOn s.passes c.state m (c.context.method m) = (false, c₁.context.method m) :=
          Prod.ext (by simpa [hchanged] using hm) hm₁.symm
        simp [untilRest, hiter]
    · refine ⟨k + 1, c₂, Attempt.bind_ok.mpr ⟨changed, c₁, hiterate, ?_⟩, fun m => ?_⟩
      · rw [if_neg hstop]
        exact Attempt.bind_ok.mpr ⟨k, c₂, hrest, rfl⟩
      · rw [hmethods₂ m, (hmethods m).2, hc₁]
        rcases hiter : s.iterationOn s.passes c.state m (c.context.method m) with ⟨_ | _, y⟩
        · simp [untilRest, hiter, untilRest_of_rest (comesToRest_iterationOn hlocal c.state m _ _ hiter)]
        · simp [untilRest, hiter]

/-- What the whole schedule does to a method. -/
def runOn (s : Schedule σ) (state : σ) (m : MethodId) (x : MethodState) : MethodState :=
  (untilRest (s.iterationOn s.passes state m) s.maxIterations x).2

theorem exists_graph_of_runOn (s : Schedule σ) (state : σ) (m : MethodId) {x : MethodState} (h : x.graph?.isSome) :
    ∃ g, (s.runOn state m x).graph? = some g := by
  have hstep : ∀ p : Pass σ, ∀ x : MethodState, x.graph?.isSome → (p.stepOn state m x).2.graph?.isSome :=
    fun p x hx => p.stepOn_graph?_isSome hx
  refine Option.isSome_iff_exists.mp (untilRest_keeps (P := fun x : MethodState => x.graph?.isSome) (fun x hx => ?_) _ h)
  refine inTurn_keeps (P := fun x : MethodState => x.graph?.isSome) (fun f hf x hx => ?_) hx
  obtain ⟨p, -, rfl⟩ := List.mem_map.mp hf
  exact untilRest_keeps (hstep p) _ hx

/-- Compiled together, methods end up with the graphs and the outcomes they have when each is compiled
alone, in whatever order the passes take them. -/
theorem run_independent (s : Schedule σ)
    (hpasses : ∀ p ∈ s.passes, p = .canonicalization ∨ ∃ config, p = .elimination config)
    (horder : ∀ c, (s.order c).Perm c.methodIds) (methods : List (MethodId × Graph))
    (hmethods : (methods.map (·.1)).Nodup) (state : σ) :
    ∃ n together, s.run ⟨.ofMethods methods, state⟩ = .ok n together ∧
      ∀ m g, (m, g) ∈ methods → ∃ n₁ alone g',
        s.run ⟨.ofMethods [(m, g)], state⟩ = .ok n₁ alone ∧
        together.context.graph? m = some g' ∧ alone.context.graph? m = some g' ∧
        together.context.outcome? m = alone.context.outcome? m := by
  have hlocal : ∀ p ∈ s.passes, p.Local := by
    intro p hp
    rcases hpasses p hp with rfl | ⟨config, rfl⟩
    · exact Pass.canonicalization_local
    · exact Pass.elimination_local config
  obtain ⟨n, together, hrun, hall⟩ := iterations_spec hlocal horder s.maxIterations 0 ⟨.ofMethods methods, state⟩
  refine ⟨n, together, hrun, fun m g hm => ?_⟩
  obtain ⟨n₁, alone, hrun₁, hone⟩ := iterations_spec hlocal horder s.maxIterations 0 ⟨.ofMethods [(m, g)], state⟩
  have htogether : together.context.method m = s.runOn state m ⟨some g, none⟩ := by
    rw [hall m, Context.method_ofMethods hmethods hm]
    rfl
  have halone : alone.context.method m = s.runOn state m ⟨some g, none⟩ := by
    rw [hone m, Context.method_ofMethods (by simp) List.mem_cons_self]
    rfl
  obtain ⟨g', hg'⟩ := s.exists_graph_of_runOn state m (x := ⟨some g, none⟩) rfl
  refine ⟨n₁, alone, g', hrun₁, ?_, ?_, ?_⟩
  · exact (congrArg MethodState.graph? htogether).trans hg'
  · exact (congrArg MethodState.graph? halone).trans hg'
  · exact congrArg MethodState.outcome? (htogether.trans halone.symm)

/-- Two methods taken from the last to the first: one with a guard that always passes, one whose control
flow has a cycle, so that the elimination fails on it. -/
theorem run_independent_reversed :
    let s : Schedule Unit :=
      { passes := [.elimination {}, .canonicalization], order := fun c => c.methodIds.reverse }
    let checking : Graph :=
      ⟨#[{ kind := .start, successors := [2] }, { kind := .logicConstant true },
        { kind := .ret, predecessors := [0] },
        { kind := .guard false .unreached, inputs := [1], anchor := some 0 }], .root⟩
    let cyclic : Graph :=
      ⟨#[{ kind := .start, successors := [1] },
        { kind := .branch, predecessors := [0, 1], successors := [1, 1] }], .root⟩
    let methods : List (MethodId × Graph) := [(0, checking), (1, cyclic)]
    (∀ p ∈ s.passes, p = .canonicalization ∨ ∃ config, p = .elimination config) ∧
    (∀ c, (s.order c).Perm c.methodIds) ∧ (methods.map (·.1)).Nodup ∧
    ∃ n together, s.run ⟨.ofMethods methods, ()⟩ = .ok n together ∧
      ∀ m g, (m, g) ∈ methods → ∃ n₁ alone g',
        s.run ⟨.ofMethods [(m, g)], ()⟩ = .ok n₁ alone ∧
        together.context.graph? m = some g' ∧ alone.context.graph? m = some g' ∧
        together.context.outcome? m = alone.context.outcome? m := by
  intro s checking cyclic methods
  have hpasses : ∀ p ∈ s.passes, p = .canonicalization ∨ ∃ config, p = .elimination config := by
    intro p hp
    rcases List.mem_pair.mp hp with rfl | rfl
    · exact .inr ⟨{}, rfl⟩
    · exact .inl rfl
  have horder : ∀ c, (s.order c).Perm c.methodIds := fun c => c.methodIds.reverse_perm
  have hmethods : (methods.map (·.1)).Nodup := by simp [methods]
  exact ⟨hpasses, horder, hmethods, run_independent s hpasses horder methods hmethods ()⟩

end Schedule

end GuardElision
