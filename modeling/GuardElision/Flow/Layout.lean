namespace GuardElision

/-- The numbers given so far. A node without numbers has zeros. -/
structure Layout where
  /-- For each node the number it was entered with. -/
  pre : Array Nat
  /-- For each node the number it was left with. -/
  post : Array Nat
  /-- For each node the number of steps down from the root. -/
  depth : Array Nat
  /-- The number that comes next. -/
  next : Nat

namespace Layout

def blank (size : Nat) : Layout :=
  ⟨.replicate size 0, .replicate size 0, .replicate size 0, 0⟩

def preOf (l : Layout) (v : Nat) : Nat :=
  l.pre.getD v 0

def postOf (l : Layout) (v : Nat) : Nat :=
  l.post.getD v 0

def depthOf (l : Layout) (v : Nat) : Nat :=
  l.depth.getD v 0

def enter (l : Layout) (v depth : Nat) : Layout :=
  { l with
    pre := l.pre.setIfInBounds v l.next
    depth := l.depth.setIfInBounds v depth
    next := l.next + 1 }

def leave (l : Layout) (v : Nat) : Layout :=
  { l with post := l.post.setIfInBounds v l.next, next := l.next + 1 }

/-- Goes on with a walk. The stack holds the nodes that are entered and not yet left, innermost first,
each with those of its children that are still to be entered. A step enters or leaves one node, so
twice the number of nodes bounds the steps. -/
def walk (children : Nat → List Nat) : Nat → List (Nat × List Nat) → Layout → Layout
  | 0, _, l => l
  | _ + 1, [], l => l
  | bound + 1, (v, []) :: rest, l => walk children bound rest (l.leave v)
  | bound + 1, (v, c :: cs) :: rest, l =>
    walk children bound ((c, children c) :: (v, cs) :: rest) (l.enter c (l.depthOf v + 1))

def ofTree (size root : Nat) (children : Nat → List Nat) : Layout :=
  walk children (2 * size) [(root, children root)] ((blank size).enter root 0)

/-- The numbers of `b` lie between those of `a`. -/
def encloses (l : Layout) (a b : Nat) : Bool :=
  l.preOf a ≤ l.preOf b && l.postOf b ≤ l.postOf a

end Layout

end GuardElision
