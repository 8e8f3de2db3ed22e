import GuardElision.Flow.Forest
import GuardElision.Proofs.Flow.Semidominators

namespace GuardElision

namespace Forest

section

variable {size : Nat}

/-- Shortens the ways from `v` upwards, the highest first. -/
def flatten (key : Nat → Nat) : Nat → Forest size → Nat → Forest size
  | 0, f, _ => f
  | bound + 1, f, v =>
    match f.ancestor.read v with
    | none => f
    | some a => if (f.ancestor.read a).isSome then (flatten key bound f a).shorten key v else f

theorem foldl_climb (key : Nat → Nat) (f : Forest size) (bound v : Nat) (path : List Nat) :
    (f.climb bound v path).foldl (shorten key) f = path.foldl (shorten key) (flatten key bound f v) := by
  induction bound generalizing v path with
  | zero => rfl
  | succ bound ih =>
    rw [climb, flatten]
    cases f.ancestor.read v with
    | none => rfl
    | some a =>
      dsimp only
      split
      next => exact ih a (v :: path)
      next => rfl

theorem ancestor_shorten (key : Nat → Nat) {f : Forest size} {v a : Nat} (hlt : v < size)
    (hv : f.ancestor.read v = some a) (x : Nat) :
    (f.shorten key v).ancestor.read x = if x = v then f.ancestor.read a else f.ancestor.read x := by
  rw [shorten, hv]
  exact Table.read_write _ hlt _ x

theorem best_shorten (key : Nat → Nat) {f : Forest size} {v a : Nat} (hlt : v < size) (hv : f.ancestor.read v = some a)
    (x : Nat) :
    (f.shorten key v).best.read x = if x = v then
      if key (f.best.read a) < key (f.best.read v) then f.best.read a else f.best.read v else f.best.read x := by
  rw [shorten, hv]
  dsimp only
  by_cases hx : x = v <;> split <;> simp [hx, Table.read_write _ hlt]

end

/-- The nodes with numbers above `n` are linked, and each knows the node with the least key up to its ancestor. -/
structure Linked (num : Nat → Nat) (parent : Nat → Option Nat) (key : Nat → Nat) (n : Nat) {size : Nat}
    (f : Forest size) : Prop where
  root_iff : ∀ v, f.ancestor.read v = none ↔ num v ≤ n
  ancestor : ∀ v a, f.ancestor.read v = some a →
    Anc parent a v ∧ num a ≠ 0 ∧ num a < num v ∧ ∀ y, Anc parent y v → num a < num y → n < num y
  best : ∀ v a, f.ancestor.read v = some a → Anc parent (f.best.read v) v ∧ num a < num (f.best.read v) ∧
    ∀ y, Anc parent y v → num a < num y → key (f.best.read v) ≤ key y
  fresh : ∀ v < size, num v ≤ n → f.best.read v = v

namespace Linked

variable {g : Digraph} {entry n : Nat} {num : Nat → Nat} {parent : Nat → Option Nat} {key key' : Nat → Nat}
  {f : Forest g.size} {a b r u v w : Nat}

theorem congr_key (h : Linked num parent key n f) (hkey : ∀ v, n < num v → key v = key' v) :
    Linked num parent key' n f where
  root_iff := h.root_iff
  ancestor := h.ancestor
  best v a ha := by
    obtain ⟨hanc, hlt, hleast⟩ := h.best v a ha
    refine ⟨hanc, hlt, fun y hy hay => ?_⟩
    have habove := (h.ancestor v a ha).2.2.2
    rw [← hkey _ (habove _ hanc hlt), ← hkey y (habove y hy hay)]
    exact hleast y hy hay
  fresh := h.fresh

theorem exists_ancestor (h : Linked num parent key n f) (hv : n < num v) : ∃ a, f.ancestor.read v = some a := by
  refine Option.ne_none_iff_exists'.mp fun hnone => ?_
  have := (h.root_iff v).mp hnone
  omega

theorem eval_root (h : Linked num parent key n f) (hv : num v ≤ n) : f.eval key v = (v, f) := by
  rw [Forest.eval, (h.root_iff v).mpr hv]

variable (S : Spans g entry num parent)

include S

theorem link (h : Linked num parent key (n + 1) f) (hw : num w = n + 1) {p : Nat} (hp : parent w = some p) :
    Linked num parent key n (f.link p w) := by
  obtain ⟨hp0, hpw, _⟩ := S.parent_spec w p hp
  have hlt := S.lt_size w (by omega)
  have honly : ∀ {y}, Anc parent y w → num p < num y → y = w := by
    intro y hy hpy
    by_contra hne
    obtain ⟨q, hq, hyq⟩ := hy.up hne
    cases hq.symm.trans hp
    have := S.num_le hyq
    omega
  have hread : ∀ v, (f.link p w).ancestor.read v = if v = w then some p else f.ancestor.read v :=
    Table.read_write _ hlt _
  refine ⟨fun v => ?_, fun v a ha => ?_, fun v a ha => ?_, fun v hv hle => h.fresh v hv (by omega)⟩
  · rw [hread]
    split
    next he => simp [he, hw]
    next hne =>
      rw [h.root_iff]
      have : num v ≠ n + 1 := fun he => hne (S.inj v w (by omega) (he.trans hw.symm))
      omega
  · rw [hread] at ha
    split at ha
    next he =>
      cases ha
      refine he ▸ ⟨.down hp .refl, hp0, hpw, fun y hy hpy => ?_⟩
      rw [honly hy hpy]
      omega
    next =>
      obtain ⟨hanc, ha0, hav, habove⟩ := h.ancestor v a ha
      exact ⟨hanc, ha0, hav, fun y hy hay => by have := habove y hy hay; omega⟩
  · rw [hread] at ha
    split at ha
    next he =>
      cases ha
      have hbest : (f.link p w).best.read w = w := h.fresh w hlt hw.le
      rw [he, hbest]
      exact ⟨.refl, hpw, fun y hy hpy => by rw [honly hy hpy]⟩
    next => exact h.best v a ha

/-- A node whose ancestor is no root can do with the ancestor's ancestor. -/
theorem shorten (h : Linked num parent key n f) (hv : f.ancestor.read v = some a) (ha : f.ancestor.read a = some b) :
    Linked num parent key n (f.shorten key v) ∧ (f.shorten key v).ancestor.read v = some b := by
  obtain ⟨hav, ha0, hlt, hvabove⟩ := h.ancestor v a hv
  obtain ⟨hba, hb0, hblt, haabove⟩ := h.ancestor a b ha
  have hvn : n < num v := by
    by_contra hle
    cases hv.symm.trans ((h.root_iff v).mpr (by omega))
  have hsize := S.lt_size v (by omega)
  have hsplit : ∀ {y}, Anc parent y v → num b < num y → num a < num y ∨ Anc parent y a := by
    intro y hy hby
    by_cases hay : num a < num y
    · exact Or.inl hay
    · exact Or.inr (S.between y a v hy (by omega) (by omega) hlt.le)
  have hancestor := ancestor_shorten key hsize hv
  have hbest := best_shorten key hsize hv
  rw [ha] at hancestor
  refine ⟨⟨fun x => ?_, fun x c hc => ?_, fun x c hc => ?_, fun x hx hle => ?_⟩, by rw [hancestor, if_pos rfl]⟩
  · rw [hancestor]
    split
    next he => simp [he, hvn]
    next => exact h.root_iff x
  · rw [hancestor] at hc
    split at hc
    next he =>
      cases hc
      refine he ▸ ⟨hba.trans hav, hb0, hblt.trans hlt, fun y hy hby => ?_⟩
      exact (hsplit hy hby).elim (hvabove y hy) fun hya => haabove y hya hby
    next => exact h.ancestor x c hc
  · rw [hancestor] at hc
    rw [hbest]
    split at hc
    next he =>
      cases hc
      obtain ⟨hvanc, hvlt, hvleast⟩ := h.best v a hv
      obtain ⟨haanc, halt, haleast⟩ := h.best a b ha
      rw [if_pos he, he]
      split
      next hless =>
        refine ⟨haanc.trans hav, halt, fun y hy hby => ?_⟩
        exact (hsplit hy hby).elim (fun hay => hless.le.trans (hvleast y hy hay)) fun hya => haleast y hya hby
      next hless =>
        refine ⟨hvanc, hblt.trans hvlt, fun y hy hby => ?_⟩
        exact (hsplit hy hby).elim (hvleast y hy) fun hya => (Nat.le_of_not_lt hless).trans (haleast y hya hby)
    next he =>
      rw [if_neg he]
      exact h.best x c hc
  · rw [hbest, if_neg (by rintro rfl; omega)]
    exact h.fresh x hx hle

/-- Climbing to the root and coming back leaves only the root above a node. -/
theorem flatten (h : Linked num parent key n f) {bound : Nat} (hv : n < num v) (hbound : num v ≤ n + bound) :
    Linked num parent key n (Forest.flatten key bound f v) ∧
      (∃ r, (Forest.flatten key bound f v).ancestor.read v = some r ∧ num r ≤ n) ∧
      ∀ x, num v < num x → (Forest.flatten key bound f v).ancestor.read x = f.ancestor.read x := by
  induction bound generalizing v with
  | zero => omega
  | succ bound ih =>
    obtain ⟨a, ha⟩ := h.exists_ancestor hv
    obtain ⟨_, _, hlt, _⟩ := h.ancestor v a ha
    rw [Forest.flatten, ha]
    dsimp only
    split
    next hsome =>
      have hroot : n < num a := by
        by_contra hle
        rw [(h.root_iff a).mpr (by omega)] at hsome
        cases hsome
      obtain ⟨hlinked, ⟨r, hr, hrn⟩, hframe⟩ := ih hroot (by omega)
      obtain ⟨hnext, hread⟩ := hlinked.shorten S ((hframe v hlt).trans ha) hr
      refine ⟨hnext, ⟨r, hread, hrn⟩, fun x hx => ?_⟩
      rw [ancestor_shorten key (S.lt_size v (by omega)) ((hframe v hlt).trans ha), if_neg (by rintro rfl; omega)]
      exact hframe x (by omega)
    next hnone =>
      refine ⟨h, ⟨a, ha, (h.root_iff a).mp ?_⟩, fun _ _ => rfl⟩
      simpa using hnone

/-- The node found has the least key of those above `v` that are linked. -/
theorem eval (h : Linked num parent key n f) (hsize : num v ≤ g.size) (hv : n < num v) :
    Linked num parent key n (f.eval key v).2 ∧ n < num (f.eval key v).1 ∧ Anc parent (f.eval key v).1 v ∧
      ∀ y, Anc parent y v → n < num y → key (f.eval key v).1 ≤ key y := by
  obtain ⟨a, ha⟩ := h.exists_ancestor hv
  have heval : f.eval key v = ((Forest.flatten key g.size f v).best.read v, Forest.flatten key g.size f v) := by
    rw [Forest.eval, ha, compress, foldl_climb]
    rfl
  obtain ⟨hlinked, ⟨r, hr, hrn⟩, _⟩ := h.flatten S hv (show num v ≤ n + g.size by omega)
  obtain ⟨hanc, hlt, hleast⟩ := hlinked.best v r hr
  rw [heval]
  refine ⟨hlinked, (hlinked.ancestor v r hr).2.2.2 _ hanc hlt, hanc, fun y hy hyn => hleast y hy (by omega)⟩

end Linked

end Forest

end GuardElision
