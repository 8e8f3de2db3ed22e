import Mathlib.Data.List.Sort
import GuardElision.Proofs.Pipeline.Independence

namespace GuardElision

theorem IdMap.keys_eq {α β : Type} {m : IdMap α} {m' : IdMap β} (h : ∀ k, (m.get? k).isSome = (m'.get? k).isSome) :
    m.keys = m'.keys := by
  have hm : m.keys.Pairwise (· < ·) := List.pairwise_map.mpr m.ascending
  have hm' : m'.keys.Pairwise (· < ·) := List.pairwise_map.mpr m'.ascending
  refine hm.eq_of_mem_iff hm' fun k => ?_
  rw [mem_keys, mem_keys, h k]

/-- A run of a pass on a method that it took on. -/
structure PassRun (σ : Type) where
  pass : Pass σ
  method : MethodId
  before : Compilation σ
  graph : Graph
  taken : pass.takes? method (before.context.method method) = some graph

namespace PassRun

variable {σ : Type} (r : PassRun σ) {changed : Bool} {f : Fault}

def workspace : Workspace σ :=
  { graph := r.graph, state := r.before.state }

def result : Except Fault Bool :=
  (r.pass.run r.method).result r.workspace

/-- What the pass leaves behind, whether or not it fails. -/
def rest : Workspace σ :=
  (r.pass.run r.method).state r.workspace

def after : Compilation σ :=
  (r.pass.runOn r.before r.method).2

def lastEvent : Event :=
  match r.result with
  | .ok _ => r.pass.event .passCompleted r.method
  | .error f => { r.pass.event .methodFailed r.method with message := f.text }

def events : List Event :=
  r.pass.event .passStarted r.method :: (r.rest.events.toList ++ [r.lastEvent])

theorem isFailed_before : r.before.context.isFailed r.method = false :=
  (Pass.takes?_eq_some r.taken).1

theorem graph?_before : r.before.context.graph? r.method = some r.graph :=
  (Pass.takes?_eq_some r.taken).2

theorem after_of_ok (h : r.result = .ok changed) :
    let c := r.before.context
    r.after.context = ⟨(c.graphs.erase r.method).insert r.method r.rest.graph,
      c.outcomes.insert r.method (.afterRun changed (c.outcome? r.method)),
      ((c.log.record (r.pass.event .passStarted r.method)).append r.rest.events).record r.lastEvent⟩ := by
  have hrun : r.pass.run r.method { graph := r.graph, state := r.before.state } = .ok changed r.rest :=
    Attempt.eq_ok_of_result h
  dsimp only
  rw [after, lastEvent, h, Pass.runOn_of_some r.taken, hrun]

theorem after_of_error (h : r.result = .error f) :
    let c := r.before.context
    r.after.context = ⟨(c.graphs.erase r.method).insert r.method r.graph,
      c.outcomes.insert r.method (.unoptimized f),
      ((c.log.record (r.pass.event .passStarted r.method)).append r.rest.events).record r.lastEvent⟩ := by
  have hrun : r.pass.run r.method { graph := r.graph, state := r.before.state } = .error f r.rest :=
    Attempt.eq_error_of_result h
  dsimp only
  rw [after, lastEvent, h, Pass.runOn_of_some r.taken, hrun]

theorem method_after_of_ok (h : r.result = .ok changed) (k : MethodId) :
    r.after.context.method k =
      if k = r.method then ⟨some r.rest.graph, some (.afterRun changed (r.before.context.outcome? r.method))⟩
      else r.before.context.method k := by
  simp only [r.after_of_ok h, Context.method, Context.graph?, Context.outcome?]
  rw [Pass.get?_putBack, IdMap.get?_insert]
  split <;> rfl

/-- The draft of a run that fails is dropped. -/
theorem method_after_of_error (h : r.result = .error f) (k : MethodId) :
    r.after.context.method k =
      if k = r.method then ⟨some r.graph, some (.unoptimized f)⟩ else r.before.context.method k := by
  simp only [r.after_of_error h, Context.method, Context.graph?, Context.outcome?]
  rw [Pass.get?_putBack, IdMap.get?_insert]
  split <;> rfl

theorem method_after_of_ne {k : MethodId} (hk : k ≠ r.method) :
    r.after.context.method k = r.before.context.method k := by
  cases h : r.result with
  | ok changed => rw [r.method_after_of_ok h, if_neg hk]
  | error f => rw [r.method_after_of_error h, if_neg hk]

theorem log_after : r.after.context.log.toList = r.before.context.log.toList ++ r.events := by
  cases h : r.result with
  | ok changed => simp [r.after_of_ok h, events]
  | error f => simp [r.after_of_error h, events]

theorem methodIds_after : r.after.context.methodIds = r.before.context.methodIds := by
  refine IdMap.keys_eq fun k => ?_
  change (r.after.context.graph? k).isSome = (r.before.context.graph? k).isSome
  by_cases hk : k = r.method
  · have hbefore : (r.before.context.graph? k).isSome = true := by rw [hk, r.graph?_before, Option.isSome_some]
    rw [hbefore]
    cases h : r.result with
    | ok changed =>
      have hafter := congrArg MethodState.graph? (r.method_after_of_ok h k)
      rw [if_pos hk] at hafter
      exact congrArg Option.isSome hafter
    | error f =>
      have hafter := congrArg MethodState.graph? (r.method_after_of_error h k)
      rw [if_pos hk] at hafter
      exact congrArg Option.isSome hafter
  · have hafter := congrArg MethodState.graph? (r.method_after_of_ne hk)
    exact congrArg Option.isSome hafter

end PassRun

/-- The runs lead from the one compilation to the other. Between runs only the state of the passes may
change. -/
inductive Leads {σ : Type} : Compilation σ → List (PassRun σ) → Compilation σ → Prop where
  | done {c c' : Compilation σ} (h : c'.context = c.context) : Leads c [] c'
  | run {c c' : Compilation σ} (r : PassRun σ) {runs : List (PassRun σ)} (h : r.before.context = c.context)
      (hrest : Leads r.after runs c') : Leads c (r :: runs) c'

namespace Leads

variable {σ : Type} {c c₁ c' : Compilation σ} {runs later : List (PassRun σ)}

theorem of_context_eq (hc : c.context = c₁.context) (h : Leads c runs c') : Leads c₁ runs c' := by
  cases h with
  | done h => exact .done (h.trans hc)
  | run r h hrest => exact .run r (h.trans hc) hrest

theorem append (h : Leads c runs c₁) (h' : Leads c₁ later c') : Leads c (runs ++ later) c' := by
  induction h with
  | done hc => exact h'.of_context_eq hc
  | run r hc _ ih => exact .run r hc (ih h')

/-- A history is cut in two by any of its runs. -/
theorem split {r : PassRun σ} (h : Leads c (runs ++ r :: later) c') :
    Leads c runs r.before ∧ Leads r.after later c' := by
  induction runs generalizing c with
  | nil =>
    cases h with
    | run _ hc hrest => exact ⟨.done hc, hrest⟩
  | cons q runs ih =>
    cases h with
    | run _ hc hrest =>
      obtain ⟨hbefore, hafter⟩ := ih hrest
      exact ⟨.run q hc hbefore, hafter⟩

theorem methodIds_eq (h : Leads c runs c') : c'.context.methodIds = c.context.methodIds := by
  induction h with
  | done hc => rw [hc]
  | run r hc _ ih => rw [ih, r.methodIds_after, hc]

theorem log_eq (h : Leads c runs c') :
    c'.context.log.toList = c.context.log.toList ++ runs.flatMap PassRun.events := by
  induction h with
  | done hc => simp [hc]
  | run r hc _ ih => rw [ih, r.log_after, hc, List.flatMap_cons, List.append_assoc]

end Leads

/-- The runs of an attempt, followed by those of what comes after it unless the attempt fails. -/
def Attempt.andThen {σ α ρ : Type} (x : Attempt σ α) (runs : σ → List ρ) (more : α → σ → List ρ) (s : σ) : List ρ :=
  runs s ++ match x s with
    | .ok a s => more a s
    | .error _ _ => []

/-- The attempt makes the given runs, all of them of the given passes. -/
def Makes {σ α : Type} (passes : List (Pass σ)) (x : Attempt (Compilation σ) α)
    (runs : Compilation σ → List (PassRun σ)) : Prop :=
  ∀ c, Leads c (runs c) (x.state c) ∧ ∀ r ∈ runs c, r.pass ∈ passes

namespace Makes

variable {σ α β : Type} {passes : List (Pass σ)} {x : Attempt (Compilation σ) α} {k : α → Attempt (Compilation σ) β}
  {runs : Compilation σ → List (PassRun σ)} {more : α → Compilation σ → List (PassRun σ)}

theorem pure (a : α) : Makes passes (Pure.pure a) fun _ => [] :=
  fun _ => ⟨.done rfl, nofun⟩

theorem bind (hx : Makes passes x runs) (hk : ∀ a, Makes passes (k a) (more a)) :
    Makes passes (x >>= k) (x.andThen runs more) := by
  intro c
  obtain ⟨hleads, hpasses⟩ := hx c
  rw [Attempt.state_bind]
  unfold Attempt.andThen
  cases h : x c with
  | ok a c₁ =>
    simp only [Attempt.state, h] at hleads
    obtain ⟨hleads', hpasses'⟩ := hk a c₁
    exact ⟨hleads.append hleads', fun r hr => (List.mem_append.mp hr).elim (hpasses r) (hpasses' r)⟩
  | error e c₁ =>
    simp only [Attempt.state, h] at hleads
    rw [List.append_nil]
    exact ⟨hleads, hpasses⟩

/-- What follows without a run of its own adds nothing. -/
theorem bind_silent (hx : Makes passes x runs) (hk : ∀ a, Makes passes (k a) fun _ => []) :
    Makes passes (x >>= k) runs := by
  intro c
  have hc := hx.bind hk c
  unfold Attempt.andThen at hc
  cases h : x c with
  | ok a c₁ => simpa [h] using hc
  | error e c₁ => simpa [h] using hc

end Makes

namespace Pass

variable {σ : Type} (p : Pass σ) {passes : List (Pass σ)}

/-- The run on one method, if there is any. -/
def runsOn (c : Compilation σ) (m : MethodId) : List (PassRun σ) :=
  match h : p.takes? m (c.context.method m) with
  | none => []
  | some g => [⟨p, m, c, g, h⟩]

def runsOnAll : List MethodId → Compilation σ → List (PassRun σ)
  | [], _ => []
  | m :: rest, c => p.runsOn c m ++ runsOnAll rest (p.runOn c m).2

def runsOnce (order : Context → List MethodId) : Compilation σ → List (PassRun σ) :=
  (onState p.setUp).andThen (fun _ => []) fun _ c => p.runsOnAll (order c.context) c

def runsRepeated (order : Context → List MethodId) : Nat → Compilation σ → List (PassRun σ)
  | 0 => fun _ => []
  | n + 1 =>
    (p.runOnce order).andThen (p.runsOnce order) fun changed =>
      if changed then runsRepeated order n else fun _ => []

variable {p}

theorem runsOn_leads (c : Compilation σ) (m : MethodId) : Leads c (p.runsOn c m) (p.runOn c m).2 := by
  unfold runsOn
  split
  next h =>
    rw [runOn_of_none h]
    exact .done rfl
  next g h => exact .run ⟨p, m, c, g, h⟩ rfl (.done rfl)

theorem pass_of_mem_runsOn {c : Compilation σ} {m : MethodId} {r : PassRun σ} (h : r ∈ p.runsOn c m) : r.pass = p := by
  unfold runsOn at h
  split at h
  next => cases h
  next => rw [List.mem_singleton.mp h]

theorem runsOnAll_leads (order : List MethodId) (c : Compilation σ) :
    Leads c (p.runsOnAll order c) (p.runOnAll order c).2 := by
  suffices hfold : ∀ changed, Leads c (p.runsOnAll order c)
      (order.foldl (fun r m => (r.1 || (p.runOn r.2 m).1, (p.runOn r.2 m).2)) (changed, c)).2 from hfold false
  induction order generalizing c with
  | nil => exact fun _ => .done rfl
  | cons m rest ih => exact fun _ => (runsOn_leads c m).append (ih _ _)

theorem pass_of_mem_runsOnAll {order : List MethodId} {c : Compilation σ} {r : PassRun σ}
    (h : r ∈ p.runsOnAll order c) : r.pass = p := by
  induction order generalizing c with
  | nil => cases h
  | cons m rest ih => exact (List.mem_append.mp h).elim pass_of_mem_runsOn ih

theorem onState_silent (f : σ → Except Fault σ) : Makes passes (onState f) fun _ => [] := by
  intro c
  refine ⟨.done ?_, nofun⟩
  dsimp only [onState, Attempt.step, Attempt.state]
  cases f c.state with
  | ok state => rfl
  | error e => rfl

theorem runsOnce_made (hp : p ∈ passes) (order : Context → List MethodId) :
    Makes passes (p.runOnce order) (p.runsOnce order) := by
  refine (onState_silent p.setUp).bind fun _ => .bind_silent (fun c => ?_) fun changed => ?_
  · exact ⟨runsOnAll_leads _ c, fun r hr => pass_of_mem_runsOnAll hr ▸ hp⟩
  · exact (onState_silent p.tearDown).bind_silent fun _ => .pure changed

theorem runsRepeated_made (hp : p ∈ passes) (order : Context → List MethodId) (n : Nat) :
    Makes passes (p.repeated order n) (p.runsRepeated order n) := by
  induction n with
  | zero => exact .pure false
  | succ n ih =>
    refine (runsOnce_made hp order).bind fun changed => ?_
    cases changed with
    | true => exact ih.bind_silent fun _ => .pure true
    | false => exact .pure false

end Pass

namespace Schedule

variable {σ : Type} (s : Schedule σ)

/-- The runs of one iteration. -/
def runsIn : List (Pass σ) → Compilation σ → List (PassRun σ)
  | [] => fun _ => []
  | p :: rest =>
    (p.repeated s.order s.maxRepeats).andThen (p.runsRepeated s.order s.maxRepeats) fun _ => runsIn rest

def runsWithin : Nat → Nat → Compilation σ → List (PassRun σ)
  | 0, _ => fun _ => []
  | n + 1, stable =>
    (s.iterate s.passes).andThen (s.runsIn s.passes) fun changed =>
      let stable := if changed then 0 else stable + 1
      if !changed && s.stableIterations ≤ stable then fun _ => [] else runsWithin n stable

def history : Compilation σ → List (PassRun σ) :=
  s.runsWithin s.maxIterations 0

variable {s}

theorem runsIn_made {passes : List (Pass σ)} (hpasses : passes ⊆ s.passes) :
    Makes s.passes (s.iterate passes) (s.runsIn passes) := by
  induction passes with
  | nil => exact .pure false
  | cons p rest ih =>
    obtain ⟨hp, hrest⟩ := List.cons_subset.mp hpasses
    exact (Pass.runsRepeated_made hp s.order s.maxRepeats).bind fun here => (ih hrest).bind_silent fun _ => .pure _

theorem runsWithin_made (n stable : Nat) : Makes s.passes (s.iterations n stable) (s.runsWithin n stable) := by
  induction n generalizing stable with
  | zero => exact .pure 0
  | succ n ih =>
    refine (runsIn_made (List.Subset.refl s.passes)).bind fun changed => ?_
    by_cases hstop : (!changed && decide (s.stableIterations ≤ if changed then 0 else stable + 1)) = true
    · rw [if_pos hstop, if_pos hstop]
      exact .pure 1
    · rw [if_neg hstop, if_neg hstop]
      exact (ih _).bind_silent fun _ => .pure _

theorem history_made : Makes s.passes s.run s.history :=
  runsWithin_made s.maxIterations 0

end Schedule

end GuardElision
