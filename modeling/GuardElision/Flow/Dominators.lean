import GuardElision.Flow.Forest
import GuardElision.Flow.Layout
import GuardElision.Flow.SpanningTree

namespace GuardElision

/-- The state of the Lengauer-Tarjan algorithm. -/
structure IdomSearch (size : Nat) where
  /-- For each node its semidominator, as far as it is known; at first the node itself. -/
  semi : Table size Nat
  forest : Forest size
  /-- For each node the nodes it is the semidominator of, until their immediate dominators are looked for. -/
  bucket : Table size (List Nat)
  /-- For each node its immediate dominator or a node that has the same one. -/
  idom : Table size (Option Nat)

namespace IdomSearch

variable {size : Nat}

def blank (size : Nat) : IdomSearch size :=
  ⟨.nodes size, .blank size, .fill size [], .fill size none⟩

def key (t : SpanningTree size) (s : IdomSearch size) (v : Nat) : Nat :=
  t.number.read (s.semi.read v)

/-- Improves the semidominator of `w` by the node with the lowest one from the predecessor `v` upwards. -/
def improve (t : SpanningTree size) (w : Nat) (s : IdomSearch size) (v : Nat) : IdomSearch size :=
  let found := s.forest.eval (s.key t) v
  { s with
    forest := found.2
    semi := if s.key t found.1 < s.key t w then s.semi.write w (s.semi.read found.1) else s.semi }

def enqueue (s : IdomSearch size) (w : Nat) : IdomSearch size :=
  let d := s.semi.read w
  { s with bucket := s.bucket.write d (s.bucket.read d ++ [w]) }

/-- The semidominator `p` of `v` is the immediate dominator, or else the node that is found has the same one. -/
def resolve (t : SpanningTree size) (p : Nat) (s : IdomSearch size) (v : Nat) : IdomSearch size :=
  let found := s.forest.eval (s.key t) v
  { s with
    forest := found.2
    idom := s.idom.write v (some (if s.semi.read found.1 = s.semi.read v then p else found.1)) }

/-- What is done about one node, in falling order of the numbers. -/
def stage (t : SpanningTree size) (s : IdomSearch size) (w : Nat) : IdomSearch size :=
  let s := ((t.preds.read w).foldl (improve t w) s).enqueue w
  match t.parent.read w with
  | none => s
  | some p =>
    let s := { s with forest := s.forest.link p w }
    (s.bucket.read p).foldl (resolve t p) { s with bucket := s.bucket.write p [] }

/-- Follows one link, in rising order of the numbers. -/
def settle (semi : Table size Nat) (idom : Table size (Option Nat)) (w : Nat) : Table size (Option Nat) :=
  match idom.read w with
  | none => idom
  | some d => if d = semi.read w then idom else idom.write w (idom.read d)

end IdomSearch

/-- For each reachable node its immediate dominator, for the entry itself. -/
def Digraph.immediateDominators (g : Digraph) (entry : Nat) : Table g.size (Option Nat) :=
  let t := g.spanningTree entry
  let s := t.met.dropLast.foldl (IdomSearch.stage t) (.blank g.size)
  let idom := t.met.reverse.tail.foldl (IdomSearch.settle s.semi) s.idom
  idom.write entry (some entry)

structure DominatorTree where
  entry : Nat
  size : Nat
  /-- The reachable nodes in reverse postorder. -/
  order : List Nat
  /-- For each reachable node its immediate dominator, for the entry itself. -/
  idom : Table size (Option Nat)
  childLists : Table size (List Nat)
  layout : Layout

namespace DominatorTree

def isReachable (t : DominatorTree) (v : Nat) : Bool :=
  (t.idom.read v).isSome

def dominates (t : DominatorTree) (a b : Nat) : Bool :=
  t.isReachable a && t.isReachable b && t.layout.encloses a b

def strictlyDominates (t : DominatorTree) (a b : Nat) : Bool :=
  a ≠ b && t.dominates a b

/-- The immediate dominator; the entry and unreachable nodes have none. -/
def idom? (t : DominatorTree) (v : Nat) : Option Nat :=
  if v = t.entry then none else t.idom.read v

/-- At most `n` nodes from `v` upwards along immediate dominators. -/
def chain (t : DominatorTree) : Nat → Nat → List Nat
  | 0, _ => []
  | n + 1, v => v :: (match t.idom? v with
    | some d => t.chain n d
    | none => [])

/-- The dominators of `v` from `v` to the entry; none if `v` is unreachable. -/
def dominators (t : DominatorTree) (v : Nat) : List Nat :=
  if t.isReachable v then t.chain t.size v else []

/-- The number of steps from `v` up to the entry. -/
def depth (t : DominatorTree) (v : Nat) : Nat :=
  t.layout.depthOf v

def depth? (t : DominatorTree) (v : Nat) : Option Nat :=
  if t.isReachable v then some (t.depth v) else none

def children (t : DominatorTree) (v : Nat) : List Nat :=
  t.childLists.read v

/-- Adds a node to the children of its immediate dominator. -/
def adopt {size : Nat} (entry : Nat) (idom : Table size (Option Nat)) (lists : Table size (List Nat)) (v : Nat) :
    Table size (List Nat) :=
  if v = entry then lists
  else
    match idom.read v with
    | none => lists
    | some d => lists.write d (lists.read d ++ [v])

/-- The deepest reachable node of a list, the last of several. -/
def deepest? (t : DominatorTree) (vs : List Nat) : Option Nat :=
  (vs.filter t.isReachable).foldl
    (fun best v =>
      match best with
      | none => some v
      | some b => if t.depth b ≤ t.depth v then some v else some b) none

end DominatorTree

def Digraph.dominators (g : Digraph) (entry : Nat) : DominatorTree :=
  let idom := g.immediateDominators entry
  let order := g.reversePostorder entry
  let childLists := order.foldl (DominatorTree.adopt entry idom) (.fill g.size [])
  { entry, size := g.size, order, idom, childLists, layout := .ofTree g.size entry childLists.read }

end GuardElision
