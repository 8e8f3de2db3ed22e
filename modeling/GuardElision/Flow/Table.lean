namespace GuardElision

/-- A value for each node below `size`. -/
structure Table (size : Nat) (α : Type) where
  cells : Vector α size

namespace Table

variable {size : Nat} {α : Type}

def fill (size : Nat) (a : α) : Table size α :=
  ⟨Vector.replicate size a⟩

/-- Every node itself. -/
def nodes (size : Nat) : Table size Nat :=
  ⟨(List.range size).toArray, by simp⟩

/-- What stands at a node; nodes further out have the default. -/
def read [Inhabited α] (t : Table size α) (v : Nat) : α :=
  t.cells.toArray.getD v default

def write (t : Table size α) (v : Nat) (a : α) : Table size α :=
  ⟨t.cells.setIfInBounds v a⟩

variable [Inhabited α]

theorem read_write_self (t : Table size α) {v : Nat} (hv : v < size) (a : α) : (t.write v a).read v = a := by
  simp [read, write, hv, Array.getD]

theorem read_write_of_ne (t : Table size α) {u v : Nat} (h : u ≠ v) (a : α) : (t.write v a).read u = t.read u := by
  simp [read, write, Ne.symm h, Array.getD_eq_getD_getElem?]

theorem read_write (t : Table size α) {v : Nat} (hv : v < size) (a : α) (u : Nat) :
    (t.write v a).read u = if u = v then a else t.read u := by
  split
  next h => rw [h, read_write_self t hv]
  next h => exact read_write_of_ne t h a

theorem read_fill (size : Nat) (v : Nat) : (fill size (default : α)).read v = default := by
  by_cases h : v < size <;> simp [read, fill, Array.getD, h]

theorem read_nodes {size v : Nat} (hv : v < size) : (nodes size).read v = v := by
  simp [read, nodes, Array.getD, hv]

theorem read_of_le (t : Table size α) {v : Nat} (hv : size ≤ v) : t.read v = default := by
  simp [read, Array.getD, Nat.not_lt.mpr hv]

end Table

end GuardElision
