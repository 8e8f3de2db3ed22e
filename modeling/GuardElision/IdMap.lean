namespace GuardElision

structure IdMap (α : Type) where
  entries : List (Nat × α) := []
  /-- Every key stands once, after the smaller ones. -/
  ascending : entries.Pairwise (·.1 < ·.1) := by exact .nil

namespace IdMap

variable {α : Type}

def empty : IdMap α := {}

def get? (m : IdMap α) (k : Nat) : Option α :=
  (m.entries.find? (·.1 = k)).map (·.2)

@[simp] theorem get?_empty (k : Nat) : (empty : IdMap α).get? k = none :=
  rfl

def keys (m : IdMap α) : List Nat :=
  m.entries.map (·.1)

/-- Puts an entry in its place, over one with the same key. -/
def place (k : Nat) (a : α) : List (Nat × α) → List (Nat × α)
  | [] => [(k, a)]
  | e :: rest =>
    if k < e.1 then (k, a) :: e :: rest
    else if k = e.1 then (k, a) :: rest
    else e :: place k a rest

theorem key_mem_place {k : Nat} {a : α} {es : List (Nat × α)} {e : Nat × α} (h : e ∈ place k a es) :
    e.1 = k ∨ e ∈ es := by
  induction es with
  | nil => exact .inl (congrArg Prod.fst (List.mem_singleton.mp h))
  | cons d rest ih =>
    unfold place at h
    split at h
    next => exact (List.mem_cons.mp h).imp (congrArg Prod.fst) id
    split at h
    next =>
      refine (List.mem_cons.mp h).imp (congrArg Prod.fst) fun h => List.mem_cons_of_mem d h
    next =>
      rcases List.mem_cons.mp h with rfl | h
      · exact .inr List.mem_cons_self
      · exact (ih h).imp id fun h => List.mem_cons_of_mem d h

theorem place_ascending (k : Nat) (a : α) {es : List (Nat × α)} (h : es.Pairwise (·.1 < ·.1)) :
    (place k a es).Pairwise (·.1 < ·.1) := by
  induction es with
  | nil => simp [place]
  | cons d rest ih =>
    obtain ⟨hd, hrest⟩ := List.pairwise_cons.mp h
    unfold place
    split
    next hk =>
      refine List.pairwise_cons.mpr ⟨fun e he => ?_, h⟩
      rcases List.mem_cons.mp he with rfl | he
      · exact hk
      · exact Nat.lt_trans hk (hd e he)
    split
    next hk => exact List.pairwise_cons.mpr ⟨fun e he => hk ▸ hd e he, hrest⟩
    next hlt hne =>
      refine List.pairwise_cons.mpr ⟨fun e he => ?_, ih hrest⟩
      rcases key_mem_place he with rfl | he
      · omega
      · exact hd e he

def insert (m : IdMap α) (k : Nat) (a : α) : IdMap α :=
  ⟨place k a m.entries, place_ascending k a m.ascending⟩

def erase (m : IdMap α) (k : Nat) : IdMap α :=
  ⟨m.entries.filter (·.1 ≠ k), m.ascending.filter _⟩

/-- Gives a key the entry it had before, if any. -/
def restore (m : IdMap α) (k : Nat) (before : Option α) : IdMap α :=
  match before with
  | some a => m.insert k a
  | none => m.erase k

theorem find?_place (k j : Nat) (a : α) (es : List (Nat × α)) :
    (place k a es).find? (·.1 = j) = if j = k then some (k, a) else es.find? (·.1 = j) := by
  induction es with
  | nil => by_cases h : j = k <;> simp [place, h, eq_comm]
  | cons e rest ih =>
    unfold place
    by_cases hl : k < e.1
    · by_cases h : j = k <;> simp [hl, List.find?_cons, h, eq_comm]
    · by_cases he : k = e.1
      · by_cases h : j = k <;> simp_all [eq_comm]
      · simp only [hl, he, ↓reduceIte, List.find?_cons, ih]
        by_cases h : e.1 = j
        · have hjk : j ≠ k := by omega
          simp [h, hjk]
        · simp [h]

theorem get?_insert (m : IdMap α) (k j : Nat) (a : α) :
    (m.insert k a).get? j = if j = k then some a else m.get? j := by
  simp only [get?, insert, find?_place]
  split <;> rfl

theorem get?_erase (m : IdMap α) (k j : Nat) :
    (m.erase k).get? j = if j = k then none else m.get? j := by
  simp only [get?, erase, List.find?_filter]
  by_cases h : j = k
  · simp [h]
  · have hp : ∀ e : Nat × α, (e.1 ≠ k ∧ e.1 = j) ↔ e.1 = j := by
      intro e
      omega
    simp only [decide_eq_true_eq, hp, h, ↓reduceIte]

theorem filter_place {k : Nat} (a : α) {es : List (Nat × α)} (h : ∀ e ∈ es, e.1 ≠ k) :
    (place k a es).filter (·.1 ≠ k) = es := by
  induction es with
  | nil => simp [place]
  | cons d rest ih =>
    obtain ⟨hd, hrest⟩ := List.forall_mem_cons.mp h
    have hkeep : (d :: rest).filter (·.1 ≠ k) = d :: rest :=
      List.filter_eq_self.mpr fun e he => by simpa using h e he
    unfold place
    split
    next => simpa using hkeep
    split
    next hk => exact absurd hk.symm hd
    next => rw [List.filter_cons_of_pos (by simpa using hd), ih hrest]

theorem place_place {k : Nat} (a : α) {b : α} {es : List (Nat × α)} (ho : es.Pairwise (·.1 < ·.1))
    (h : (k, b) ∈ es) : place k b (place k a es) = es := by
  induction es with
  | nil => simp at h
  | cons d rest ih =>
    obtain ⟨hd, hrest⟩ := List.pairwise_cons.mp ho
    rcases List.mem_cons.mp h with rfl | h
    · simp [place]
    · have hlt : d.1 < k := hd _ h
      have hnot : ¬k < d.1 := by omega
      have hne : k ≠ d.1 := by omega
      simp only [place, hnot, hne, ↓reduceIte, ih hrest h]

/-- Putting an entry and then restoring what was there changes nothing. -/
theorem restore_insert (m : IdMap α) (k : Nat) (a : α) : (m.insert k a).restore k (m.get? k) = m := by
  cases hb : m.get? k with
  | none =>
    have hfind := Option.map_eq_none_iff.mp hb
    have hkeys : ∀ e ∈ m.entries, e.1 ≠ k := by simpa using List.find?_eq_none.mp hfind
    simp only [restore, erase, insert, filter_place a hkeys]
  | some b =>
    obtain ⟨e, he, rfl⟩ := Option.map_eq_some_iff.mp hb
    have hk : e.1 = k := by simpa using List.find?_some he
    subst hk
    simp only [restore, insert, place_place a m.ascending (List.mem_of_find?_eq_some he)]

end IdMap

end GuardElision
