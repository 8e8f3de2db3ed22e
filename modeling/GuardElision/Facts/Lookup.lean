import GuardElision.Facts.Basic

namespace GuardElision

namespace Known

def classFacts (k : Known) (x : NodeId) : List ClassFact :=
  k.classTests.listed x

theorem Mirrored.classFacts_eq {k : Known} (h : k.Mirrored) (x : NodeId) :
    k.classFacts x = k.facts.filterMap (·.classFact? x) :=
  h.listed x

/-- The range of an integer operand, by its stamp and by what is known; none if they contradict. -/
def narrowing? (k : Known) (o : Operand) : Option Narrowing :=
  o.stamp.range?.bind fun base =>
    match k.ranges.get? o.node with
    | some n => (base.meet? n.range).map fun range => { n with range }
    | none => some { range := base }

def range? (k : Known) (o : Operand) : Option Interval :=
  (k.narrowing? o).map (·.range)

/-- A value that passed a class test is not null. -/
def impliedNull? (k : Known) (x : NodeId) (s : Stamp) : Option Evidence :=
  if s.isNonNull then some (.ofStamp false)
  else if s.isAlwaysNull then some (.ofStamp true)
  else ((k.classFacts x).find? (·.truth)).map fun e => .ofOrigin false e.origin

/-- What a stamp says of a class test. -/
def stampClass? (classes : ClassTable) (cls : ClassId) (o : ObjectStamp) : Option Bool :=
  if o.alwaysNull then some false
  else o.cls.bind fun declared =>
    if o.nonNull && classes.isSubclass declared cls then some true
    else if classes.disjoint declared cls then some false
    else if o.exact && !classes.isSubclass declared cls then some false
    else none

/-- What the outcome of a null test says of a class test, given the declared class. -/
def nullClass? (classes : ClassTable) (cls : ClassId) (declared : Option ClassId) (isNull : Bool) :
    Option Bool :=
  if isNull then some false
  else if declared.any (classes.isSubclass · cls) then some true
  else none

/-- What the outcome of one class test says of another. -/
def classClass? (classes : ClassTable) (cls tested : ClassId) (truth : Bool) : Option Bool :=
  if truth then
    if classes.isSubclass tested cls then some true
    else if classes.disjoint tested cls then some false
    else none
  else if classes.isSubclass cls tested then some false
  else none

def impliedClass? (classes : ClassTable) (k : Known) (x : NodeId) (cls : ClassId) (s : Stamp) :
    Option Evidence :=
  match s.object?.bind (stampClass? classes cls) with
  | some truth => some (.ofStamp truth)
  | none =>
    let ofNull := (k.fact? (.isNull x)).bind fun f =>
      (nullClass? classes cls (s.object?.bind (·.cls)) f.truth).map (Evidence.ofOrigin · f.origin)
    (k.classFacts x).foldl
      (fun best e =>
        Evidence.best? best ((classClass? classes cls e.cls e.truth).map (.ofOrigin · e.origin)))
      ofNull

/-- Decides by the stamps alone if they suffice, and by the narrowed ranges otherwise. -/
def impliedOrder? (k : Known) (decide? : Interval → Interval → Option Bool) (a b : Operand) :
    Option Evidence := do
  let ra ← a.stamp.range?
  let rb ← b.stamp.range?
  match decide? ra rb with
  | some truth => return .ofStamp truth
  | none =>
    let na ← k.narrowing? a
    let nb ← k.narrowing? b
    let truth ← decide? na.range nb.range
    let source := match na.source?, nb.source? with
      | some x, some y => x.closer y
      | some x, none => x
      | none, some y => y
      | none, none => .stamp
    return ⟨truth, source⟩

/-- What follows for a condition's test without its own fact. -/
def implied? (classes : ClassTable) (k : Known) (c : Condition) : Option Evidence :=
  match c.test with
  | .isNull x => k.impliedNull? x c.left.stamp
  | .instanceOf x cls => impliedClass? classes k x cls c.left.stamp
  | .equals _ _ => k.impliedOrder? Interval.eq? c.left c.right
  | .lessThan _ _ => k.impliedOrder? Interval.lt? c.left c.right
  | .below _ _ => k.impliedOrder? Interval.below? c.left c.right

def lookup? (classes : ClassTable) (k : Known) (c : Condition) : Option Evidence :=
  Evidence.best? ((k.fact? c.test).map fun f => .ofOrigin f.truth f.origin) (implied? classes k c)

theorem fact?_eq_none_of_lookup? {classes : ClassTable} {k : Known} {c : Condition} (h : k.lookup? classes c = none) :
    k.fact? c.test = none := by
  cases hf : k.fact? c.test with
  | none => rfl
  | some f =>
    rw [lookup?, hf] at h
    cases hi : k.implied? classes c <;> simp [hi, Evidence.best?] at h
    split at h <;> cases h

end Known

namespace Facts

def lookup? (f : Facts) (c : Condition) : Option Evidence :=
  f.known.lookup? f.classes c

def range? (f : Facts) (o : Operand) : Option Interval :=
  f.known.range? o

end Facts

end GuardElision
