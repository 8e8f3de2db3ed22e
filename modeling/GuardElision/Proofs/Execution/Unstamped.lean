import GuardElision.Proofs.Execution.Conforming

namespace GuardElision

def Node.unstamped (n : Node) : Node :=
  { n with stamp := .void }

namespace Graph

/-- The graph with nothing said about its values. -/
def unstamped (g : Graph) : Graph :=
  g.mapLive Node.unstamped

@[simp]
theorem get?_unstamped (g : Graph) (id : NodeId) : g.unstamped.get? id = (g.get? id).map Node.unstamped :=
  get?_mapLive (f := Node.unstamped) (fun _ => rfl) g id

@[simp]
theorem capacity_unstamped (g : Graph) : g.unstamped.capacity = g.capacity :=
  capacity_mapLive g _

@[simp]
theorem kind?_unstamped (g : Graph) (id : NodeId) : g.unstamped.kind? id = g.kind? id := by
  simp [kind?, Function.comp_def, Node.unstamped]

theorem node_unstamped (g : Graph) (id : NodeId) : g.unstamped.node id = (g.node id).map Node.unstamped := by
  unfold node
  rw [get?_unstamped]
  cases g.get? id <;> rfl

theorem refinedValue_unstamped (g : Graph) (k : Nat) (id : NodeId) :
    g.unstamped.refinedValue k id = g.refinedValue k id := by
  induction k generalizing id with
  | zero => rfl
  | succ k ih =>
    unfold refinedValue
    rw [get?_unstamped]
    cases hn : g.get? id with
    | none => rfl
    | some n =>
      obtain ⟨kind, stamp, inputs, successors, predecessors, anchor, guard, memory, removed, synthetic⟩ := n
      cases kind with
      | pi =>
        cases inputs with
        | nil => rfl
        | cons x rest => exact ih x
      | _ => rfl

theorem rootValue_unstamped (g : Graph) (id : NodeId) : g.unstamped.rootValue id = g.rootValue id := by
  rw [rootValue, capacity_unstamped, refinedValue_unstamped, rootValue]

end Graph

namespace Exec

variable {g : Graph} {heap : Heap}

theorem node_unstamped_bind (id : NodeId) (k : Node → Exec Value) :
    (liftM (g.unstamped.node id) >>= k : Exec Value) = liftM (g.node id) >>= fun n => k n.unstamped := by
  rw [Graph.node_unstamped]
  cases g.node id <;> rfl

theorem evalCached_unstamped (bound : Nat) : evalCached g.unstamped heap bound = evalCached g heap bound := by
  induction bound with
  | zero => rfl
  | succ bound ih =>
    funext id
    simp only [evalCached, node_unstamped_bind, ih]
    rfl

/-- Without stamps there is nothing to conform to. -/
theorem evalConforming_unstamped (bound : Nat) :
    evalConforming g.unstamped heap bound = evalCached g heap bound := by
  induction bound with
  | zero => rfl
  | succ bound ih =>
    have hvoid : ∀ (n : Node) (v : Value), n.unstamped.stamp.admits g.unstamped.classes heap v = true :=
      fun _ _ => rfl
    funext id
    unfold evalConforming evalCached
    refine bind_congr fun f => ?_
    cases f.cache.get? id with
    | some v => rfl
    | none =>
      simp only [node_unstamped_bind, ih, hvoid, or_true, ↓reduceIte]
      rfl

end Exec

def Frame.value? (g : Graph) (heap : Heap) (f : Frame) (id : NodeId) : Option Value :=
  match Exec.evalCached g heap (g.capacity + 1) id f with
  | .ok (v, _) => some v
  | .error _ => none

variable {g : Graph} {heap : Heap} {f f' : Frame} {id : NodeId} {v : Value}

theorem Eval.of_evalCached {bound : Nat} (hcache : f.cache = .empty)
    (h : Exec.evalCached g heap bound id f = .ok (v, f')) : Eval g.unstamped heap f id v := by
  rw [← Exec.evalConforming_unstamped] at h
  have hclosed : ClosedUnderInputs g.unstamped fun _ => True := fun _ _ _ _ _ _ _ => trivial
  exact (Exec.evalConforming_faithful hclosed bound id f v f' trivial (.empty hcache) h).1

/-- However deep evaluation went, a run finds the value too. -/
theorem Eval.value? (hcache : f.cache = .empty) (h : Eval g.unstamped heap f id v) : f.value? g heap id = some v := by
  have hclosed : ClosedUnderInputs g.unstamped fun _ => True := fun _ _ _ _ _ _ _ => trivial
  obtain ⟨f₂, hf₂, -⟩ := Exec.evalCached_yields_of_eval hclosed trivial h f rfl (.empty hcache)
  rw [Exec.evalCached_unstamped, Graph.capacity_unstamped] at hf₂
  rw [Frame.value?, hf₂]

end GuardElision
