import GuardElision.Flow.Table

namespace GuardElision

/-- Trees that grow together, with short cuts on the way up. -/
structure Forest (size : Nat) where
  /-- For each node one further up; the roots have none. -/
  ancestor : Table size (Option Nat)
  /-- For each node the one with the least key from the node up to just below its ancestor. -/
  best : Table size Nat

namespace Forest

variable {size : Nat}

def blank (size : Nat) : Forest size :=
  ⟨.fill size none, .nodes size⟩

def link (f : Forest size) (parent v : Nat) : Forest size :=
  { f with ancestor := f.ancestor.write v (some parent) }

/-- The nodes from `v` upwards whose ancestor is no root, the last one first. -/
def climb (f : Forest size) : Nat → Nat → List Nat → List Nat
  | 0, _, path => path
  | bound + 1, v, path =>
    match f.ancestor.read v with
    | none => path
    | some a => if (f.ancestor.read a).isSome then f.climb bound a (v :: path) else path

/-- Takes the ancestor's ancestor for the ancestor. -/
def shorten (key : Nat → Nat) (f : Forest size) (v : Nat) : Forest size :=
  match f.ancestor.read v with
  | none => f
  | some a =>
    { ancestor := f.ancestor.write v (f.ancestor.read a)
      best := if key (f.best.read a) < key (f.best.read v) then f.best.write v (f.best.read a) else f.best }

def compress (key : Nat → Nat) (f : Forest size) (v : Nat) : Forest size :=
  (f.climb size v []).foldl (shorten key) f

/-- The node with the least key from `v` up to just below the root; a root for itself. -/
def eval (key : Nat → Nat) (f : Forest size) (v : Nat) : Nat × Forest size :=
  match f.ancestor.read v with
  | none => (v, f)
  | some _ =>
    let f := f.compress key v
    (f.best.read v, f)

end Forest

end GuardElision
