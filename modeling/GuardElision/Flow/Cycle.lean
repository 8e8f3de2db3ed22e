import GuardElision.Flow.Digraph

namespace GuardElision

namespace Digraph

/-- The cycle that an edge from the top of the path back to `v` closes, from `v` to `v`. -/
def closedCycle (path : List Nat) (v : Nat) : List Nat :=
  v :: (path.takeWhile (· ≠ v)).reverse ++ [v]

/-- The state of a search for a cycle. -/
structure CycleSearch where
  seen : Marks
  /-- For each node whether it is on the path. -/
  onPath : Array Bool
  /-- The nodes on the way from the start, nearest first. -/
  path : List Nat
  /-- The same nodes, each with those of its successors that are still to be explored. -/
  stack : List (Nat × List Nat)

namespace CycleSearch

def enter (g : Digraph) (v : Nat) (s : CycleSearch) : CycleSearch where
  seen := s.seen.add v
  onPath := s.onPath.setIfInBounds v true
  path := v :: s.path
  stack := (v, (g.succ v).reverse) :: s.stack

/-- Goes on with the next successor of the node on top, the last one first, or leaves the node. -/
def step (g : Digraph) (s : CycleSearch) : CycleSearch ⊕ Option (List Nat) :=
  match s.stack with
  | [] => .inr none
  | (v, []) :: stack =>
    .inl { s with onPath := s.onPath.setIfInBounds v false, path := s.path.tail, stack }
  | (v, u :: pending) :: stack =>
    if s.onPath.getD u false then .inr (some (closedCycle s.path u))
    else
      let rest := { s with stack := (v, pending) :: stack }
      .inl (if s.seen.has u then rest else rest.enter g u)

end CycleSearch

/-- A cycle reachable from `start`, as a list that begins and ends with one node. -/
def findCycle? (g : Digraph) (start : Nat) : Option (List Nat) :=
  if start < g.size then
    let blank : CycleSearch := ⟨.none g.size, Array.replicate g.size false, [], []⟩
    (Loop.run (CycleSearch.step g) (g.room + 2) (blank.enter g start)).getD none
  else none

def hasCycle (g : Digraph) (start : Nat) : Bool :=
  (g.findCycle? start).isSome

end Digraph

end GuardElision
