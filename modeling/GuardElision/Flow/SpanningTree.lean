import GuardElision.Flow.Digraph
import GuardElision.Flow.Table

namespace GuardElision

/-- The nodes that a search has met and the edges along which it met them first. -/
structure SpanningTree (size : Nat) where
  /-- For each node its place among the nodes met, from 1; 0 for the others. -/
  number : Table size Nat
  /-- The nodes by their numbers, the last one first. -/
  met : List Nat
  parent : Table size (Option Nat)
  /-- For each node the met nodes with an edge to it. -/
  preds : Table size (List Nat)

namespace SpanningTree

variable {size : Nat}

def blank (size : Nat) : SpanningTree size :=
  ⟨.fill size 0, [], .fill size none, .fill size []⟩

/-- A node outside the graph counts as met. -/
def hasMet (t : SpanningTree size) (v : Nat) : Bool :=
  size ≤ v || t.number.read v ≠ 0

def meet (g : Digraph) (v : Nat) (origin : Option Nat) (t : SpanningTree g.size) : SpanningTree g.size where
  number := t.number.write v (t.met.length + 1)
  met := v :: t.met
  parent := t.parent.write v origin
  preds := (g.succ v).foldl (fun preds u => preds.write u (preds.read u ++ [v])) t.preds

/-- Pops one node, with the node it was pushed from. -/
def step (g : Digraph) : List (Nat × Option Nat) × SpanningTree g.size →
    (List (Nat × Option Nat) × SpanningTree g.size) ⊕ SpanningTree g.size
  | ([], t) => .inr t
  | ((v, origin) :: stack, t) =>
    if t.hasMet v then .inl (stack, t)
    else
      let t := t.meet g v origin
      .inl (Digraph.pushUnmarked t.hasMet (·, some v) (g.succ v) stack, t)

end SpanningTree

def Digraph.spanningTree (g : Digraph) (entry : Nat) : SpanningTree g.size :=
  (Loop.run (SpanningTree.step g) (g.room + 2) ([(entry, none)], .blank g.size)).getD (.blank g.size)

end GuardElision
