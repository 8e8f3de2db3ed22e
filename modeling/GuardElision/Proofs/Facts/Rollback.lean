import GuardElision.Proofs.Facts.Soundness

namespace GuardElision

namespace Facts

/-- The same facts, with later pushes numbered from `n` on. -/
def atSeq (f : Facts) (n : Nat) : Facts :=
  { f with nextSeq := n }

/-- Closes the innermost `n` scopes. -/
def exitScopes : Nat → Facts → Facts
  | 0, f => f
  | n + 1, f => exitScopes n f.exitScope

variable {f : Facts}

theorem exitScope_enterScope (f : Facts) : f.enterScope.exitScope = f := by
  obtain ⟨hknown, hmarks⟩ := exitScope_fields (f := f.enterScope) rfl
  ext1
  · exact exitScope_classes _
  · exact hknown.trans f.known.rollback_self
  · exact hmarks
  · exact exitScope_nextSeq _

theorem exitScope_atSeq (f : Facts) (n : Nat) : (f.atSeq n).exitScope = f.exitScope.atSeq n := by
  cases h : f.marks with
  | nil => rw [exitScope_of_marks_eq_nil f h, exitScope_of_marks_eq_nil (f.atSeq n) h]
  | cons mark marks =>
    obtain ⟨hknown, hmarks⟩ := exitScope_fields h
    obtain ⟨hknown', hmarks'⟩ := exitScope_fields (f := f.atSeq n) h
    ext1
    · exact (exitScope_classes _).trans (exitScope_classes f).symm
    · exact hknown'.trans hknown.symm
    · exact hmarks'.trans hmarks.symm
    · exact exitScope_nextSeq _

theorem exitScope_depth (f : Facts) : f.exitScope.depth = f.depth - 1 := by
  cases h : f.marks with
  | nil => simp [depth, exitScope_of_marks_eq_nil f h, h]
  | cons mark marks => simp [depth, (exitScope_fields h).2, h]

/-- What a push learns in an open scope is gone once the scope is closed. -/
theorem exitScope_push (h : 0 < f.depth) (c : Condition) (truth : Bool) (guard : NodeId) :
    (f.push c truth guard).2.exitScope = f.exitScope.atSeq (f.push c truth guard).2.nextSeq := by
  cases hl : f.lookup? c with
  | some e =>
    rw [push_of_some hl, ← exitScope_nextSeq f]
    rfl
  | none =>
    obtain ⟨mark, marks, hm⟩ := List.exists_cons_of_ne_nil (List.length_pos_iff.mp h)
    have hmark : mark ≤ f.known.log.length := f.marks_le (hm ▸ List.mem_cons_self)
    obtain ⟨hknown, hmarks⟩ := exitScope_fields hm
    rw [push_of_none hl]
    obtain ⟨hknown', hmarks'⟩ := exitScope_fields (f := f.learn c truth guard hl) hm
    ext1
    · exact (exitScope_classes _).trans (exitScope_classes f).symm
    · exact hknown'.trans (((learn_reverts hl _ truth).rollback_eq hmark).trans hknown.symm)
    · exact hmarks'.trans hmarks.symm
    · exact exitScope_nextSeq _

theorem exitScopes_atSeq (n seq : Nat) (f : Facts) : (f.atSeq seq).exitScopes n = (f.exitScopes n).atSeq seq := by
  induction n generalizing f with
  | zero => rfl
  | succ n ih => rw [exitScopes, exitScope_atSeq, ih, exitScopes]

theorem exitScopes_nextSeq (n : Nat) (f : Facts) : (f.exitScopes n).nextSeq = f.nextSeq := by
  induction n generalizing f with
  | zero => rfl
  | succ n ih => rw [exitScopes, ih, exitScope_nextSeq]

theorem push_depth (c : Condition) (truth : Bool) (guard : NodeId) :
    (f.push c truth guard).2.depth = f.depth := by
  unfold push depth
  split <;> rfl

theorem act_nextSeq_le (f : Facts) (a : Action) : f.nextSeq ≤ (f.act a).nextSeq := by
  cases a with
  | enter => exact Nat.le_refl _
  | exit => exact (exitScope_nextSeq f).ge
  | push c truth guard => exact (f.push_nextSeq c truth guard).1

theorem foldl_act_nextSeq_le (actions : List Action) (f : Facts) :
    f.nextSeq ≤ (actions.foldl act f).nextSeq := by
  induction actions generalizing f with
  | nil => exact Nat.le_refl _
  | cons a actions ih => exact (act_nextSeq_le f a).trans (ih (f.act a))

theorem foldl_act_exits (n : Nat) (f : Facts) :
    (List.replicate n Action.exit).foldl act f = f.exitScopes n := by
  induction n generalizing f with
  | zero => rfl
  | succ n ih => exact ih f.exitScope

/-- How many scopes are open after a series of actions, when `n` were open before it and no others may
be closed. -/
def openAfter : Nat → List Action → Option Nat
  | n, [] => some n
  | n, .enter :: rest => openAfter (n + 1) rest
  | n + 1, .exit :: rest => openAfter n rest
  | 0, .exit :: _ => none
  | n, .push _ _ _ :: rest => openAfter n rest

/-- Closing the scope that the actions ran in, and those they left open, leads to where closing the
scopes before the actions would have led. -/
theorem exitScopes_foldl_act {actions : List Action} {n m : Nat} (h : openAfter n actions = some m)
    (hd : n < f.depth) :
    (actions.foldl act f).exitScopes (m + 1) =
      (f.exitScopes (n + 1)).atSeq (actions.foldl act f).nextSeq := by
  induction actions generalizing n f with
  | nil =>
    obtain rfl := Option.some.inj h
    simp only [List.foldl_nil]
    rw [← exitScopes_nextSeq (n + 1) f]
    rfl
  | cons a actions ih =>
    rw [List.foldl_cons]
    cases a with
    | enter =>
      rw [ih (f := f.act .enter) h (Nat.succ_lt_succ hd)]
      simp only [act, exitScopes, exitScope_enterScope]
    | exit =>
      cases n with
      | zero => exact absurd h (by simp [openAfter])
      | succ n =>
        have hd' : n < f.exitScope.depth := by
          rw [exitScope_depth]
          omega
        exact ih (f := f.exitScope) h hd'
    | push c truth guard =>
      have hd' : n < (f.push c truth guard).2.depth := by rwa [push_depth]
      rw [act, ih (f := (f.push c truth guard).2) h hd']
      rw [exitScopes, exitScope_push (Nat.zero_lt_of_lt hd), exitScopes_atSeq]
      rfl

/-- Whatever happens in a scope that closes none of those around it, once the scope and those left open
in it are closed again, the facts, their ranges, the class tests and the log with its marks are what
they were when the scope was opened, and so is every answer. -/
theorem scope_restores (classes : ClassTable) (past inner : List Action) {n : Nat}
    (h : openAfter 0 inner = some n) :
    let before := replay classes past
    let after := replay classes (past ++ .enter :: inner ++ List.replicate (n + 1) .exit)
    (after.known.facts = before.known.facts ∧ after.known.ranges = before.known.ranges ∧
      after.known.classTests = before.known.classTests ∧
      after.known.log = before.known.log ∧ after.marks = before.marks ∧ before.nextSeq ≤ after.nextSeq) ∧
    (∀ c, after.lookup? c = before.lookup? c) ∧ (∀ o, after.range? o = before.range? o) ∧
    after.size = before.size ∧ after.depth = before.depth := by
  intro before after
  let seq := (inner.foldl act before.enterScope).nextSeq
  have hafter : after = before.atSeq seq := by
    have hrun := exitScopes_foldl_act (f := before.enterScope) h (by simp [depth, enterScope])
    have hopen : before.enterScope.exitScopes 1 = before := exitScope_enterScope before
    rw [hopen] at hrun
    rw [← hrun, ← foldl_act_exits]
    simp only [after, before, replay, List.foldl_append, List.foldl_cons]
    rfl
  have hseq : before.nextSeq ≤ seq := foldl_act_nextSeq_le inner before.enterScope
  rw [hafter]
  exact ⟨⟨rfl, rfl, rfl, rfl, rfl, hseq⟩, fun _ => rfl, fun _ => rfl, rfl, rfl⟩

/-- Inside a scope that knows node 1 to be less than 10, another scope learns that it is less than 5, and
its own inner scope that it is not 0; afterwards the range ends at 9 again and one fact is left. -/
theorem scope_restores_nested :
    let x : Operand := ⟨1, .int .full⟩
    let ten : Operand := ⟨2, .int (.constant 10)⟩
    let five : Operand := ⟨3, .int (.constant 5)⟩
    let zero : Operand := ⟨4, .int (.constant 0)⟩
    let past : List Action := [.enter, .push ⟨.lessThan 1 2, false, x, ten⟩ true 8]
    let inner : List Action :=
      [.push ⟨.lessThan 1 3, false, x, five⟩ true 9, .enter, .push ⟨.equals 1 4, false, x, zero⟩ false 10, .exit]
    (replay .root (past ++ .enter :: inner)).range? x = some ⟨none, some 4⟩ ∧
    (replay .root (past ++ .enter :: inner ++ [.exit])).range? x = some ⟨none, some 9⟩ ∧
    (replay .root (past ++ .enter :: inner ++ [.exit])).size = 1 := by
  intro x ten five zero past inner
  obtain ⟨-, -, hrange, hsize, -⟩ := scope_restores .root past inner (n := 0) (by decide)
  refine ⟨by decide, ?_, ?_⟩
  · exact (hrange x).trans (by decide)
  · exact hsize.trans (by decide)

end Facts

end GuardElision
