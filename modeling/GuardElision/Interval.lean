import GuardElision.Word

namespace GuardElision

/-- The words from `lo` to `hi`, both included; a missing bound bounds nothing. -/
structure Interval where
  lo : Option Word
  hi : Option Word
deriving DecidableEq

namespace Interval

/-- Membership in an interval, one condition for each bound that is present. -/
def Mem (r : Interval) (x : Word) : Prop :=
  (∀ l, r.lo = some l → l ≤ x) ∧ (∀ h, r.hi = some h → x ≤ h)

instance : Membership Word Interval := ⟨Mem⟩

theorem mem_iff {r : Interval} {x : Word} :
    x ∈ r ↔ (∀ l, r.lo = some l → l ≤ x) ∧ ∀ h, r.hi = some h → x ≤ h :=
  Iff.rfl

def full : Interval := ⟨none, none⟩

def constant (v : Word) : Interval := ⟨some v, some v⟩

def bounded (lo hi : Word) : Interval := ⟨some lo, some hi⟩

def atLeast (v : Word) : Interval := ⟨some v, none⟩

def atMost (v : Word) : Interval := ⟨none, some v⟩

def nonNegative : Interval := atLeast 0

def isFull (r : Interval) : Bool :=
  r.lo.isNone && r.hi.isNone

/-- Both bounds are present and the first is smaller. -/
def boundLt : Option Word → Option Word → Bool
  | some a, some b => a < b
  | _, _ => false

/-- Both bounds are present and the first is not larger. -/
def boundLe : Option Word → Option Word → Bool
  | some a, some b => a ≤ b
  | _, _ => false

/-- The bounds cross. -/
def isEmpty (r : Interval) : Bool :=
  boundLt r.hi r.lo

def nonempty? (r : Interval) : Option Interval :=
  if r.isEmpty then none else some r

/-- The value of an interval whose bounds coincide. -/
def constant? (r : Interval) : Option Word :=
  match r.lo, r.hi with
  | some a, some b => if a = b then some a else none
  | _, _ => none

def isNonNegative (r : Interval) : Bool :=
  boundLe (some 0) r.lo

def admits (r : Interval) (x : Word) : Bool :=
  !boundLt (some x) r.lo && !boundLt r.hi (some x)

theorem admits_iff {r : Interval} {x : Word} : r.admits x = true ↔ x ∈ r := by
  obtain ⟨lo, hi⟩ := r
  cases lo <;> cases hi <;> simp [mem_iff, admits, boundLt, Int64.not_lt]

/-- The bounds of `s` lie within those of `r`. -/
def covers (r s : Interval) : Bool :=
  (r.lo.isNone || boundLe r.lo s.lo) && (r.hi.isNone || boundLe s.hi r.hi)

def overlaps (r s : Interval) : Bool :=
  !boundLt r.hi s.lo && !boundLt s.hi r.lo

/-- The sharper of two lower bounds. -/
def raise : Option Word → Option Word → Option Word
  | some a, some b => some (max a b)
  | a, b => a <|> b

/-- The sharper of two upper bounds. -/
def lower : Option Word → Option Word → Option Word
  | some a, some b => some (min a b)
  | a, b => a <|> b

def meet? (r s : Interval) : Option Interval :=
  nonempty? ⟨raise r.lo s.lo, lower r.hi s.hi⟩

/-- The least interval around two intervals that have members. -/
def join (r s : Interval) : Interval where
  lo := match r.lo, s.lo with
    | some a, some b => some (min a b)
    | _, _ => none
  hi := match r.hi, s.hi with
    | some a, some b => some (max a b)
    | _, _ => none

/-- The truth of `x < v` for all `x` in `r`, if it is one and the same. -/
def ltWord? (r : Interval) (v : Word) : Option Bool :=
  if boundLt r.hi (some v) then some true
  else if boundLe (some v) r.lo then some false
  else none

/-- The truth of `x < y` for all `x` in `r` and `y` in `s`, if it is one and the same. -/
def lt? (r s : Interval) : Option Bool :=
  if boundLt r.hi s.lo then some true
  else if boundLe s.hi r.lo then some false
  else none

def eqWord? (r : Interval) (v : Word) : Option Bool :=
  if !r.admits v then some false
  else if r.constant? = some v then some true
  else none

def eq? (r s : Interval) : Option Bool :=
  if !r.overlaps s then some false
  else if r.constant?.isSome && r.constant? = s.constant? then some true
  else none

/-- The truth of the unsigned `x < y` for all `x` in `r` and `y` in `s`, decided only when `s` has
no negative member. -/
def below? (r s : Interval) : Option Bool :=
  if !s.isNonNegative then none
  else
    (if r.isNonNegative then r.lt? s else none) <|>
      (if boundLt r.hi (some 0) then some false else none)

/-- The members `x` with `x < v`, or those without it. -/
def assumeLt? (r : Interval) (v : Word) (holds : Bool) : Option Interval :=
  if holds then (Word.pred? v).bind fun p => r.meet? (atMost p)
  else r.meet? (atLeast v)

/-- The members equal to `v`, or those unequal to it. A hole inside the interval is not
representable, so only a bound that equals `v` moves. -/
def assumeEq? (r : Interval) (v : Word) (holds : Bool) : Option Interval :=
  if holds then r.meet? (constant v)
  else do
    let lo ← if r.lo = some v then (Word.succ? v).map some else some r.lo
    let hi ← if r.hi = some v then (Word.pred? v).map some else some r.hi
    nonempty? ⟨lo, hi⟩

def text (r : Interval) : String :=
  match r.lo, r.hi with
  | some a, some b => if a = b then Word.text a else "[" ++ Word.text a ++ ", " ++ Word.text b ++ "]"
  | some a, none => "[" ++ Word.text a ++ ", +∞)"
  | none, some b => "(-∞, " ++ Word.text b ++ "]"
  | none, none => "(-∞, +∞)"

end Interval

end GuardElision
