import GuardElision.Flow.Loop

namespace GuardElision

/-- A directed graph on the nodes below `size`. Successors may repeat. -/
structure Digraph where
  size : Nat
  succ : Nat → List Nat

namespace Digraph

/-- The graph with the given edges, the successors of a node in the order of its edges. -/
def ofEdges (size : Nat) (edges : List (Nat × Nat)) : Digraph :=
  let table := edges.foldl
    (fun (t : Array (List Nat)) e => t.modify e.1 (e.2 :: ·)) (Array.replicate size [])
  let lists := table.map List.reverse
  ⟨size, fun v => lists.getD v []⟩

/-- A set of nodes, one mark for each node; a node outside the graph counts as marked. -/
structure Marks where
  bits : Array Bool

namespace Marks

def none (size : Nat) : Marks := ⟨Array.replicate size false⟩

def has (m : Marks) (v : Nat) : Bool :=
  m.bits.getD v true

def add (m : Marks) (v : Nat) : Marks :=
  ⟨m.bits.setIfInBounds v true⟩

theorem has_none (size v : Nat) : (none size).has v = decide (size ≤ v) := by
  unfold has none
  by_cases h : v < size
  · simp [h]
  · simp [h, Nat.le_of_not_lt h]

theorem has_add (m : Marks) (v u : Nat) : (m.add v).has u = (u = v || m.has u) := by
  unfold has add
  by_cases h : v = u
  · simp only [h, Array.getD_eq_getD_getElem?, Array.getElem?_setIfInBounds, ↓reduceIte]
    split <;> simp
  · simp [h, Ne.symm h]

end Marks

/-- The number of nodes and edges, which a search that enters no node twice does not exceed. -/
def room (g : Digraph) : Nat :=
  (List.range g.size).foldl (fun n v => n + ((g.succ v).length + 1)) 0

/-- Puts the nodes without a mark on a stack, the last one on top. -/
def pushUnmarked {τ : Type} (marked : Nat → Bool) (entry : Nat → τ) (us : List Nat) (stack : List τ) : List τ :=
  us.foldl (fun stack u => if marked u then stack else entry u :: stack) stack

/-- The state of a search: the nodes seen, and the nodes left, latest first. -/
structure Search where
  seen : Marks
  order : List Nat

/-- What a search has still to do about a node. -/
inductive Task where
  | enter (v : Nat)
  | exit (v : Nat)

/-- Pops one task. A node that is entered is left when all that has been pushed on top of its exit is done. -/
def searchStep (g : Digraph) : List Task × Search → (List Task × Search) ⊕ Search
  | ([], s) => .inr s
  | (.exit v :: stack, s) => .inl (stack, { s with order := v :: s.order })
  | (.enter v :: stack, s) =>
    if s.seen.has v then .inl (stack, s)
    else
      let seen := s.seen.add v
      .inl (pushUnmarked seen.has .enter (g.succ v) (.exit v :: stack), { s with seen })

def search (g : Digraph) (start : Nat) : Search :=
  (Loop.run g.searchStep (g.room + 2) ([.enter start], ⟨.none g.size, []⟩)).getD ⟨.none g.size, []⟩

/-- The nodes reachable from `start` in the order they are left in. -/
def postorder (g : Digraph) (start : Nat) : List Nat :=
  (g.search start).order.reverse

def reversePostorder (g : Digraph) (start : Nat) : List Nat :=
  (g.postorder start).reverse

/-- Marks a node that has no mark yet and puts it on the stack. -/
def mark (w : List Nat × Marks) (u : Nat) : List Nat × Marks :=
  if w.2.has u then w else (u :: w.1, w.2.add u)

/-- Pops one node and goes on to its successors. -/
def spreadStep (g : Digraph) : List Nat × Marks → (List Nat × Marks) ⊕ Marks
  | ([], seen) => .inr seen
  | (v :: stack, seen) => .inl ((g.succ v).foldl mark (stack, seen))

/-- For each node whether it is reachable from `start`. -/
def reachable (g : Digraph) (start : Nat) : Array Bool :=
  if start < g.size then
    let spread := Loop.run g.spreadStep (g.size + 1) ([start], (Marks.none g.size).add start)
    (spread.getD (.none g.size)).bits
  else (Marks.none g.size).bits

end Digraph

end GuardElision
