/-!
# Maps keyed by ids

Finite maps from natural numbers, kept as entries in ascending order of the key. Equal maps have equal
entries, so a map prints and encodes in one way only.
-/

namespace ExactScript

/-- A finite map from ids, as entries in strictly ascending order. -/
structure IdMap (α : Type) where
  entries : List (Nat × α)
  ascending : entries.Pairwise fun e f => e.1 < f.1 := by exact .nil

namespace IdMap

variable {α : Type}

/-! ## Entries in ascending order -/

/-- The value under `id` in a list of entries. -/
def find? (id : Nat) : List (Nat × α) → Option α
  | [] => none
  | (i, v) :: es => if i = id then some v else find? id es

/-- Puts an entry at its place, in the stead of one with the same id. -/
def place (id : Nat) (v : α) : List (Nat × α) → List (Nat × α)
  | [] => [(id, v)]
  | (i, w) :: es =>
    if id < i then (id, v) :: (i, w) :: es
    else if id = i then (id, v) :: es
    else (i, w) :: place id v es

theorem mem_place {id : Nat} {v : α} {es : List (Nat × α)} {e : Nat × α}
    (h : e ∈ place id v es) : e = (id, v) ∨ e ∈ es := by
  induction es with
  | nil => simpa [place] using h
  | cons f es ih =>
    obtain ⟨i, w⟩ := f
    simp only [place] at h
    split at h
    · simpa using h
    · split at h
      · rcases List.mem_cons.mp h with h | h
        · exact .inl h
        · exact .inr (List.mem_cons_of_mem _ h)
      · rcases List.mem_cons.mp h with h | h
        · exact .inr (h ▸ List.mem_cons_self)
        · exact (ih h).imp (fun h => h) (List.mem_cons_of_mem _)

theorem pairwise_place (id : Nat) (v : α) {es : List (Nat × α)}
    (h : es.Pairwise fun e f => e.1 < f.1) : (place id v es).Pairwise fun e f => e.1 < f.1 := by
  induction es with
  | nil => simp [place]
  | cons f es ih =>
    obtain ⟨i, w⟩ := f
    obtain ⟨hi, hes⟩ := List.pairwise_cons.mp h
    simp only [place]
    split
    case isTrue hlt =>
      refine List.pairwise_cons.mpr ⟨fun e he => ?_, h⟩
      rcases List.mem_cons.mp he with rfl | he
      · exact hlt
      · exact Nat.lt_trans hlt (hi e he)
    case isFalse hlt =>
      split
      case isTrue heq =>
        subst heq
        exact List.pairwise_cons.mpr ⟨hi, hes⟩
      case isFalse hne =>
        refine List.pairwise_cons.mpr ⟨fun e he => ?_, ih hes⟩
        rcases mem_place he with rfl | he
        · show i < id
          omega
        · exact hi e he

/-! ## Operations -/

def empty : IdMap α := ⟨[], .nil⟩

instance : Inhabited (IdMap α) := ⟨empty⟩

def get? (m : IdMap α) (id : Nat) : Option α := find? id m.entries

def contains (m : IdMap α) (id : Nat) : Bool := (m.get? id).isSome

def insert (m : IdMap α) (id : Nat) (v : α) : IdMap α :=
  ⟨place id v m.entries, pairwise_place id v m.ascending⟩

/-- Adds entries one after the other; the last one for an id stays. -/
def insertAll (m : IdMap α) : List (Nat × α) → IdMap α
  | [] => m
  | (id, v) :: es => insertAll (m.insert id v) es

def size (m : IdMap α) : Nat := m.entries.length

/-! ## Lookup after insertion -/

theorem find?_place_self (id : Nat) (v : α) (es : List (Nat × α)) :
    find? id (place id v es) = some v := by
  induction es with
  | nil => simp [place, find?]
  | cons f es ih =>
    obtain ⟨i, w⟩ := f
    simp only [place]
    split
    · simp [find?]
    · split
      · simp [find?]
      · next h => simp [find?, ih, Ne.symm h]

theorem find?_place_of_ne {id j : Nat} (h : j ≠ id) (v : α) (es : List (Nat × α)) :
    find? j (place id v es) = find? j es := by
  induction es with
  | nil => simp [place, find?, Ne.symm h]
  | cons f es ih =>
    obtain ⟨i, w⟩ := f
    simp only [place]
    split
    · simp [find?, Ne.symm h]
    · split
      · next heq => simp [find?, ← heq, Ne.symm h]
      · simp [find?, ih]

@[simp] theorem get?_empty (id : Nat) : (empty : IdMap α).get? id = none := rfl

@[simp] theorem get?_insert_self (m : IdMap α) (id : Nat) (v : α) :
    (m.insert id v).get? id = some v := find?_place_self id v m.entries

theorem get?_insert_of_ne (m : IdMap α) {id j : Nat} (h : j ≠ id) (v : α) :
    (m.insert id v).get? j = m.get? j := find?_place_of_ne h v m.entries

theorem contains_insert {m : IdMap α} {id j : Nat} {v : α} :
    (m.insert id v).contains j ↔ j = id ∨ m.contains j := by
  unfold contains
  by_cases hj : j = id
  · subst hj
    simp
  · simp [get?_insert_of_ne m hj, hj]

end IdMap

end ExactScript
