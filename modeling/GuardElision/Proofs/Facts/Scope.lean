import GuardElision.Facts.Push

namespace GuardElision

namespace Known

/-- What was known at each mark, as the log tells it. -/
def unwind (k : Known) : List Nat → List Known
  | [] => []
  | mark :: marks => k.rollback mark :: (k.rollback mark).unwind marks

/-- Logged changes do not reach what was known before them. -/
theorem Reverts.unwind_eq {k k' : Known} (h : k.Reverts k') {marks : List Nat}
    (hm : ∀ mark ∈ marks, mark ≤ k.log.length) : k'.unwind marks = k.unwind marks := by
  cases marks with
  | nil => rfl
  | cons mark marks => simp only [unwind, h.rollback_eq (hm mark List.mem_cons_self)]

end Known

namespace Facts

variable (f : Facts)

def outer : List Known :=
  f.known.unwind f.marks

theorem marks_le {mark : Nat} (h : mark ∈ f.marks) : mark ≤ f.known.log.length :=
  (List.pairwise_cons.mp f.ordered).1 mark h

@[simp] theorem enterScope_outer : f.enterScope.outer = f.known :: f.outer := by
  simp only [outer, enterScope, Known.unwind, Known.rollback_self]

variable {f} in
/-- Closing a scope takes back what was logged since its mark. -/
theorem exitScope_fields {mark : Nat} {marks : List Nat} (h : f.marks = mark :: marks) :
    f.exitScope.known = f.known.rollback mark ∧ f.exitScope.marks = marks := by
  unfold exitScope
  split <;> simp_all

theorem exitScope_classes : f.exitScope.classes = f.classes := by
  unfold exitScope
  split <;> rfl

theorem exitScope_nextSeq : f.exitScope.nextSeq = f.nextSeq := by
  unfold exitScope
  split <;> rfl

theorem exitScope_of_marks_eq_nil (h : f.marks = []) : f.exitScope = f := by
  unfold exitScope
  split <;> simp_all

theorem exitScope_cases : (f.marks = [] ∧ f.exitScope = f) ∨
    ∃ known outer, f.outer = known :: outer ∧ f.exitScope.known = known ∧ f.exitScope.outer = outer ∧
      f.exitScope.classes = f.classes ∧ f.exitScope.nextSeq = f.nextSeq := by
  cases h : f.marks with
  | nil => exact .inl ⟨rfl, f.exitScope_of_marks_eq_nil h⟩
  | cons mark marks =>
    obtain ⟨hknown, hmarks⟩ := exitScope_fields h
    refine .inr ⟨_, f.exitScope.outer, ?_, hknown, rfl, f.exitScope_classes, f.exitScope_nextSeq⟩
    rw [outer, outer, h, Known.unwind, hknown, hmarks]

@[simp] theorem push_outer (c : Condition) (truth : Bool) (guard : NodeId) :
    (f.push c truth guard).2.outer = f.outer := by
  unfold push
  split
  next => rfl
  next h => exact (learn_reverts h _ truth).unwind_eq fun _ => f.marks_le

/-- What is known in each scope, innermost first. -/
def scopes (f : Facts) : List Known :=
  f.known :: f.outer

theorem scopes_enterScope (f : Facts) : f.enterScope.scopes = f.known :: f.scopes := by
  unfold scopes
  rw [enterScope_outer]
  rfl

theorem scopes_exitScope (f : Facts) : f.exitScope.scopes = if f.outer = [] then f.scopes else f.outer := by
  obtain ⟨hmarks, he⟩ | ⟨known, rest, ho, hknown, houter, -⟩ := f.exitScope_cases
  · rw [he, if_pos (by simp [outer, hmarks, Known.unwind])]
  · rw [scopes, hknown, houter, ho, if_neg (List.cons_ne_nil known rest)]

end Facts

end GuardElision
