namespace GuardElision

/-- The integers a program computes with. -/
abbrev Word := Int64

namespace Word

/-- The next smaller word; the least word has none. -/
def pred? (w : Word) : Option Word :=
  if w = Int64.minValue then none else some (w - 1)

/-- The next larger word; the greatest word has none. -/
def succ? (w : Word) : Option Word :=
  if w = Int64.maxValue then none else some (w + 1)

theorem pred?_eq_some_iff {w p : Word} : pred? w = some p ↔ p.toInt = w.toInt - 1 := by
  have hm : Int64.minValue.toInt = -2 ^ 63 := rfl
  have hw := Int64.le_toInt w
  have hwu := Int64.toInt_lt w
  have hp := Int64.le_toInt p
  unfold pred?
  split
  next h =>
    subst h
    simp only [reduceCtorEq, false_iff]
    omega
  next h =>
    have hne : w.toInt ≠ Int64.minValue.toInt := fun he => h (Int64.toInt_inj.mp he)
    have hs : (w - 1).toInt = w.toInt - 1 := by
      have h1 : (1 : Int64).toInt = 1 := rfl
      rw [Int64.toInt_sub, h1]
      exact Int.bmod_eq_of_le (by omega) (by omega)
    rw [Option.some.injEq, ← Int64.toInt_inj, hs]
    exact eq_comm

theorem succ?_eq_some_iff {w s : Word} : succ? w = some s ↔ s.toInt = w.toInt + 1 := by
  have hm : Int64.maxValue.toInt = 2 ^ 63 - 1 := rfl
  have hw := Int64.le_toInt w
  have hwu := Int64.toInt_lt w
  have hsu := Int64.toInt_lt s
  unfold succ?
  split
  next h =>
    subst h
    simp only [reduceCtorEq, false_iff]
    omega
  next h =>
    have hne : w.toInt ≠ Int64.maxValue.toInt := fun he => h (Int64.toInt_inj.mp he)
    have hs : (w + 1).toInt = w.toInt + 1 := by
      have h1 : (1 : Int64).toInt = 1 := rfl
      rw [Int64.toInt_add, h1]
      exact Int.bmod_eq_of_le (by omega) (by omega)
    rw [Option.some.injEq, ← Int64.toInt_inj, hs]
    exact eq_comm

/-- The word with the given value, if 64 bits can hold it. -/
def ofInt? (i : Int) : Option Word :=
  if Int64.minValue.toInt ≤ i ∧ i ≤ Int64.maxValue.toInt then some (Int64.ofInt i) else none

/-- The order of two words read as unsigned numbers, so a negative word lies above all others. -/
def below (a b : Word) : Bool :=
  a.toUInt64 < b.toUInt64

def text (w : Word) : String :=
  toString w.toInt

end Word

end GuardElision
