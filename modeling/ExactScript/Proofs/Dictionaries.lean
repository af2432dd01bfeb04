import ExactScript.Proofs.MapCounts
import ExactScript.Proofs.PathUpdates

/-!
# Dictionaries

A map is what the changes to it say, and nothing else can be read from it. Under every key there is the value
that was put last, unless the key was deleted since; the keys come in the order in which they were put first,
counted from their last deletions. So a key that is put again keeps its place, and one that is deleted and put
again goes to the end. Keys are compared as programs compare values: a fraction and the same fraction in lowest
terms are one key, and it is shown as it was put first.

Lists are changed at the positions that they have. What was put into a list or a map is found again, and nothing
else is changed.

## Contents
* `Dictionary.Change`, `Dictionary.Built` and `Dictionary.putsUnder`: maps with their histories;
* `Dictionary.Kept`, the entries of a map with its history: `Kept.put`, `Kept.delete`, `Kept.ofFlat`;
* `Dictionary.Answers`, what is read from a map, with `Dictionary.Kept.answers`;
* `Value.PutAt`, the laws of `put`, and `Value.Indexed`, the positions of a list;
* `Value.dictionary_laws`, the theorem.
-/

namespace ExactScript

/-! ## Keys that are the same -/

theorem Key.same_comm (j k : Key) : j.same k = k.same j := by
  have hswap : ∀ {j k : Key}, j.same k = true → k.same j = true := fun {j k} h =>
    (Key.same_congr h j).symm.trans (Key.same_self j)
  exact Bool.eq_iff_iff.mpr ⟨hswap, hswap⟩

namespace Value

variable {j k : Key} {v : Value}

@[simp] theorem same_ofKey (j k : Key) : (ofKey j).same (ofKey k) = j.same k := by
  cases j <;> cases k <;> simp [ofKey, same, Key.same]

theorem same_ofKey_comm (v : Value) (k : Key) : v.same (ofKey k) = (ofKey k).same v := by
  cases hv : v.toKey? with
  | some j =>
    obtain rfl := eq_ofKey hv
    rw [same_ofKey, same_ofKey, Key.same_comm]
  | none => cases v <;> cases hv <;> cases k <;> simp [ofKey, same]

/-- What is the same as a key is a key. -/
theorem exists_of_same_ofKey (h : v.same (ofKey k) = true) : ∃ j, v = ofKey j ∧ j.same k = true := by
  cases hv : v.toKey? with
  | some j =>
    obtain rfl := eq_ofKey hv
    exact ⟨j, rfl, same_ofKey j k ▸ h⟩
  | none => cases v <;> cases hv <;> cases k <;> simp [ofKey, same] at h

/-- Keys that are the same are the same as the same values. -/
theorem same_ofKey_congr (h : j.same k = true) (v : Value) : v.same (ofKey j) = v.same (ofKey k) := by
  have hright : ∀ i : Key, i.same j = i.same k := fun i => by
    rw [Key.same_comm i, Key.same_comm i, Key.same_congr h]
  refine Bool.eq_iff_iff.mpr ⟨fun hv => ?_, fun hv => ?_⟩ <;> obtain ⟨i, rfl, hi⟩ := exists_of_same_ofKey hv
  · rw [same_ofKey, ← hright, hi]
  · rw [same_ofKey, hright, hi]

theorem ofKey_same_congr (h : j.same k = true) (v : Value) : (ofKey j).same v = (ofKey k).same v := by
  rw [← same_ofKey_comm, ← same_ofKey_comm, same_ofKey_congr h]

/-- What is found in a map. -/
theorem find_ofKey (es : Entries Value) (k : Key) :
    (map es).find (ofKey k) = match Entries.get? es k with
      | some v => .ok v
      | none => .error (.keyNotFound k) := by
  have hkey : (ofKey k).key "FIND" = .ok k := by rw [key, toKey?_ofKey]
  simp only [find, hkey, bind, Except.bind]
  cases Entries.get? es k <;> rfl

end Value

/-! ## Entries -/

namespace Entries

variable {es rest : Entries Value} {k : Key} {v w : Value}

/-- What is removed is the entry with an equal key. -/
theorem of_erase?_eq_some (h : es.erase? k = some rest) : ∃ before j w after,
    es = before ++ (j, w) :: after ∧ j.same k = true ∧ rest = before ++ after := by
  induction es generalizing rest with
  | nil => cases h
  | cons e es ih =>
    obtain ⟨j, u⟩ := e
    simp only [erase?] at h
    split at h
    · next hj =>
      cases h
      exact ⟨[], j, u, es, rfl, hj, rfl⟩
    · obtain ⟨rest', hrest, rfl⟩ := Option.map_eq_some_iff.mp h
      obtain ⟨before, i, w, after, rfl, hi, rfl⟩ := ih hrest
      exact ⟨(j, u) :: before, i, w, after, rfl, hi, rfl⟩

/-- What is put twice is what was put last. -/
theorem insert_insert : Entries.insert (Entries.insert es k v) k w = Entries.insert es k w := by
  induction es with
  | nil => simp only [insert, Key.same_self, if_true]
  | cons e es ih =>
    obtain ⟨j, u⟩ := e
    simp only [insert]
    split
    · next hj => simp only [insert, hj, if_true]
    · next hj => simp only [insert, hj, if_false, ih, Bool.false_eq_true]

/-- Entries with different keys are not changed when they are put one after the other. -/
theorem ofPairs_eq_self (h : (es.map Prod.fst).Pairwise fun j k => j.same k = false) : ofPairs es = es := by
  induction es using List.reverseRecOn with
  | nil => rfl
  | append_singleton es e ih =>
    rw [List.map_append, List.pairwise_append] at h
    have hes : ofPairs es = es := ih h.1
    have hnew : get? es e.1 = none := by
      cases hget : get? es e.1 with
      | none => rfl
      | some w =>
        obtain ⟨before, j, after, rfl, hj, -, -⟩ := insert_of_get? (w := w) hget
        have hdiffers := h.2.2 j (by simp) e.1 (by simp)
        rw [hj] at hdiffers
        cases hdiffers
    rw [ofPairs, List.foldl_concat, ← ofPairs, hes, (insert_of_get?_eq_none hnew).2]

end Entries

namespace Dictionary

/-! ## Histories -/

/-- A change to a map. -/
inductive Change where
  | put (key value : Value)
  | delete (key : Value)

/-- A put, with the number of changes before it. -/
structure Put where
  time : Nat
  key : Value
  value : Value

/-- The puts under a key since its last deletion, the first one first. In a history, the last change comes
first. -/
def putsUnder (k : Value) : List Change → List Put
  | [] => []
  | .put j v :: history =>
    if j.same k then putsUnder k history ++ [⟨history.length, j, v⟩] else putsUnder k history
  | .delete j :: history => if j.same k then [] else putsUnder k history

/-- Keys and values in turns are put one after the other. A key without a value is dropped. -/
def changesOfFlat : List Value → List Change
  | k :: v :: flat => .put k v :: changesOfFlat flat
  | _ => []

/-- Maps that were built and changed, with their histories. -/
inductive Built : List Change → Value → Prop
  | build {flat : List Value} {m : Value} (h : Value.ofFlat flat = .ok m) :
    Built (changesOfFlat flat).reverse m
  | put {history : List Change} {m k v m' : Value} (hm : Built history m) (h : m.put k v = .ok m') :
    Built (.put k v :: history) m'
  | delete {history : List Change} {m k m' : Value} (hm : Built history m) (h : m.delete k = .ok m') :
    Built (.delete k :: history) m'

/-- Of two keys, the first one was put first. -/
def Earlier (history : List Change) (j k : Value) : Prop :=
  ∃ p q, (putsUnder j history).head? = some p ∧ (putsUnder k history).head? = some q ∧ p.time < q.time

variable {history : List Change} {j k : Key} {u v : Value} {p : Put}

theorem putsUnder_congr (h : j.same k = true) : putsUnder (.ofKey j) history = putsUnder (.ofKey k) history := by
  induction history with
  | nil => rfl
  | cons c history ih => cases c <;> simp only [putsUnder, Value.same_ofKey_congr h, ih]

theorem time_lt (hp : p ∈ putsUnder u history) : p.time < history.length := by
  induction history with
  | nil => cases hp
  | cons c history ih =>
    have hlt : p ∈ putsUnder u history → p.time < (c :: history).length := fun hp => Nat.lt_succ_of_lt (ih hp)
    cases c with
    | put j v =>
      simp only [putsUnder] at hp
      split at hp
      · rcases List.mem_append.mp hp with hp | hp
        · exact hlt hp
        · obtain rfl := List.mem_singleton.mp hp
          exact Nat.lt_succ_self _
      · exact hlt hp
    | delete j =>
      simp only [putsUnder] at hp
      split at hp
      · cases hp
      · exact hlt hp

theorem putsUnder_put (h : u.same v = true) (w : Value) :
    putsUnder v (.put u w :: history) = putsUnder v history ++ [⟨history.length, u, w⟩] := if_pos h

theorem putsUnder_put_of_differs (h : u.same v = false) (w : Value) :
    putsUnder v (.put u w :: history) = putsUnder v history := if_neg (by rw [h]; decide)

theorem putsUnder_delete_of_differs (h : u.same v = false) :
    putsUnder v (.delete u :: history) = putsUnder v history := if_neg (by rw [h]; decide)

/-- A put does not change which put of a key is the first one. -/
theorem head?_put (h : (putsUnder u history).head? = some p) (v w : Value) :
    (putsUnder u (.put v w :: history)).head? = some p := by
  simp only [putsUnder]
  split
  · rw [List.head?_append, h]
    rfl
  · exact h

theorem Earlier.put (h : Earlier history u v) (w x : Value) : Earlier (.put w x :: history) u v := by
  obtain ⟨p, q, hp, hq, hlt⟩ := h
  exact ⟨p, q, head?_put hp w x, head?_put hq w x, hlt⟩

/-! ## The entries of a map with its history -/

/-- The first of the puts gave the entry its key, and the last one gave it its value. -/
structure Made (puts : List Put) (e : Key × Value) : Prop where
  first : ∃ p, puts.head? = some p ∧ p.key = .ofKey e.1
  last : ∃ p, puts.getLast? = some p ∧ p.value = e.2

/-- The entries are what the history says. -/
structure Kept (history : List Change) (es : Entries Value) : Prop where
  distinct : (es.map Prod.fst).Pairwise fun j k => j.same k = false
  ordered : (es.map Prod.fst).Pairwise fun j k => Earlier history (.ofKey j) (.ofKey k)
  complete : ∀ u, putsUnder u history ≠ [] → ∃ e ∈ es, (Value.ofKey e.1).same u = true
  made : ∀ e ∈ es, Made (putsUnder (.ofKey e.1) history) e

namespace Kept

variable {es before after : Entries Value} {i : Key} {w : Value}

theorem nil : Kept [] [] where
  distinct := .nil
  ordered := .nil
  complete _ h := absurd rfl h
  made _ h := nomatch h

/-- No other entry has the key of an entry. -/
theorem differs (h : Kept history (before ++ (i, w) :: after)) : ∀ e ∈ before ++ after, i.same e.1 = false := by
  have hdistinct := h.distinct
  rw [List.map_append, List.map_cons, List.pairwise_middle fun hjk => Key.same_comm _ _ ▸ hjk,
    ← List.map_append] at hdistinct
  intro e he
  exact (List.pairwise_cons.mp hdistinct).1 e.1 (List.mem_map_of_mem he)

/-- A key that is not there was not put, or it was deleted. -/
theorem putsUnder_eq_nil (h : Kept history es) (hnew : ∀ e ∈ es, ¬e.1.same k) :
    putsUnder (.ofKey k) history = [] := by
  by_contra hne
  obtain ⟨e, he, hek⟩ := h.complete _ hne
  rw [Value.same_ofKey] at hek
  exact hnew e he hek

/-- A new value under a key, which keeps its place and its stored form. -/
theorem overwrite (h : Kept history (before ++ (i, w) :: after)) (hi : i.same k = true) (v : Value) :
    Kept (.put (.ofKey k) v :: history) (before ++ (i, v) :: after) := by
  have hkeys : (before ++ (i, v) :: after).map Prod.fst = (before ++ (i, w) :: after).map Prod.fst := by simp
  have hmem : ∀ {x : Value} {e : Key × Value}, e ∈ before ++ (i, x) :: after ↔ e = (i, x) ∨ e ∈ before ++ after :=
    List.perm_middle.mem_iff.trans List.mem_cons
  have hothers : ∀ e ∈ before ++ after, e ∈ before ++ (i, w) :: after ∧
      putsUnder (.ofKey e.1) (.put (.ofKey k) v :: history) = putsUnder (.ofKey e.1) history := by
    intro e he
    refine ⟨hmem.mpr (.inr he), putsUnder_put_of_differs ?_ v⟩
    rw [Value.same_ofKey, ← Key.same_congr hi, h.differs e he]
  have hself : putsUnder (.ofKey i) (.put (.ofKey k) v :: history) =
      putsUnder (.ofKey i) history ++ [⟨history.length, .ofKey k, v⟩] :=
    putsUnder_put (by rw [Value.same_ofKey, Key.same_comm, hi]) v
  constructor
  case distinct =>
    rw [hkeys]
    exact h.distinct
  case ordered =>
    rw [hkeys]
    exact h.ordered.imp fun hjk => hjk.put _ v
  case complete =>
    intro u hu
    cases hsame : (Value.ofKey k).same u with
    | true => exact ⟨(i, v), hmem.mpr (.inl rfl), (Value.ofKey_same_congr hi u).trans hsame⟩
    | false =>
      rw [putsUnder_put_of_differs hsame] at hu
      obtain ⟨e, he, heu⟩ := h.complete u hu
      rcases hmem.mp he with rfl | he
      · exact ⟨(i, v), hmem.mpr (.inl rfl), heu⟩
      · exact ⟨e, hmem.mpr (.inr he), heu⟩
  case made =>
    intro e he
    rcases hmem.mp he with rfl | he
    · -- the first put is the same as before, and this one is the last
      obtain ⟨p, hp, hkey⟩ := (h.made (i, w) (hmem.mpr (.inl rfl))).first
      exact ⟨⟨p, head?_put hp _ v, hkey⟩, _, hself ▸ List.getLast?_concat, rfl⟩
    · obtain ⟨he, hputs⟩ := hothers e he
      rw [hputs]
      exact h.made e he

/-- A new key, which goes to the end. -/
theorem add (h : Kept history es) (hnew : ∀ e ∈ es, ¬e.1.same k) (v : Value) :
    Kept (.put (.ofKey k) v :: history) (es ++ [(k, v)]) := by
  have hdiffers : ∀ e ∈ es, (Value.ofKey k).same (.ofKey e.1) = false := by
    intro e he
    rw [Value.same_ofKey, Key.same_comm]
    exact Bool.eq_false_iff.mpr (hnew e he)
  have hself : putsUnder (.ofKey k) (.put (.ofKey k) v :: history) = [⟨history.length, .ofKey k, v⟩] := by
    rw [putsUnder_put (by rw [Value.same_ofKey, Key.same_self]), h.putsUnder_eq_nil hnew]
    rfl
  constructor
  case distinct =>
    rw [List.map_append, List.pairwise_append]
    refine ⟨h.distinct, List.pairwise_singleton .., ?_⟩
    intro j hj i hi
    obtain ⟨e, he, rfl⟩ := List.mem_map.mp hj
    obtain rfl : i = k := List.mem_singleton.mp hi
    exact Bool.eq_false_iff.mpr (hnew e he)
  case ordered =>
    rw [List.map_append, List.pairwise_append]
    refine ⟨h.ordered.imp fun hjk => hjk.put _ v, List.pairwise_singleton .., ?_⟩
    intro j hj i hi
    obtain ⟨e, he, rfl⟩ := List.mem_map.mp hj
    obtain rfl : i = k := List.mem_singleton.mp hi
    obtain ⟨p, hp, -⟩ := (h.made e he).first
    -- every put of the history was earlier than this one
    exact ⟨p, _, head?_put hp _ v, congrArg List.head? hself, time_lt (List.mem_of_head? hp)⟩
  case complete =>
    intro u hu
    cases hsame : (Value.ofKey k).same u with
    | true => exact ⟨(k, v), List.mem_append_right _ List.mem_cons_self, hsame⟩
    | false =>
      rw [putsUnder_put_of_differs hsame] at hu
      obtain ⟨e, he, heu⟩ := h.complete u hu
      exact ⟨e, List.mem_append_left _ he, heu⟩
  case made =>
    intro e he
    rcases List.mem_append.mp he with he | he
    · rw [putsUnder_put_of_differs (hdiffers e he)]
      exact h.made e he
    · obtain rfl := List.mem_singleton.mp he
      rw [hself]
      exact ⟨⟨_, rfl, rfl⟩, _, rfl, rfl⟩

/-- **A put**, whether the key is new or not. -/
theorem put (h : Kept history es) (k : Key) (v : Value) :
    Kept (.put (.ofKey k) v :: history) (es.insert k v) := by
  cases hget : Entries.get? es k with
  | none =>
    obtain ⟨hnew, hinsert⟩ := Entries.insert_of_get?_eq_none (w := v) hget
    exact hinsert ▸ h.add hnew v
  | some w =>
    obtain ⟨before, i, after, rfl, hi, -, hinsert⟩ := Entries.insert_of_get? (w := v) hget
    exact hinsert ▸ h.overwrite hi v

/-- **A deletion.** -/
theorem delete {rest : Entries Value} (h : Kept history es) (herase : es.erase? k = some rest) :
    Kept (.delete (.ofKey k) :: history) rest := by
  obtain ⟨before, i, w, after, rfl, hi, rfl⟩ := Entries.of_erase?_eq_some herase
  have hsublist : (before ++ after).Sublist (before ++ (i, w) :: after) :=
    (List.sublist_cons_self _ _).append_left before
  have hputs : ∀ e ∈ before ++ after,
      putsUnder (.ofKey e.1) (.delete (.ofKey k) :: history) = putsUnder (.ofKey e.1) history := by
    intro e he
    refine putsUnder_delete_of_differs ?_
    rw [Value.same_ofKey, ← Key.same_congr hi, h.differs e he]
  constructor
  case distinct => exact h.distinct.sublist (hsublist.map _)
  case ordered =>
    refine (h.ordered.sublist (hsublist.map _)).imp_of_mem ?_
    intro j k hj hk hjk
    obtain ⟨e, he, rfl⟩ := List.mem_map.mp hj
    obtain ⟨f, hf, rfl⟩ := List.mem_map.mp hk
    unfold Earlier
    rw [hputs e he, hputs f hf]
    exact hjk
  case complete =>
    intro u hu
    cases hsame : (Value.ofKey k).same u with
    | true => exact absurd (if_pos hsame) hu
    | false =>
      rw [putsUnder_delete_of_differs hsame] at hu
      obtain ⟨e, he, heu⟩ := h.complete u hu
      rcases List.mem_cons.mp (List.perm_middle.mem_iff.mp he) with rfl | he
      · -- that is the entry that is removed
        rw [Value.ofKey_same_congr hi, hsame] at heu
        cases heu
      · exact ⟨e, he, heu⟩
  case made =>
    intro e he
    rw [hputs e he]
    exact h.made e (hsublist.subset he)

/-- What is built is put one after the other. -/
theorem ofFlat {rest : Entries Value} {flat : List Value} (h : Kept history es)
    (hflat : Value.entriesOfFlat es flat = .ok rest) : Kept ((changesOfFlat flat).reverse ++ history) rest := by
  fun_induction changesOfFlat flat generalizing es history with
  | case1 u v flat ih =>
    rw [Value.entriesOfFlat] at hflat
    cases hkey : u.key "BUILD_MAP" with
    | error e => rw [hkey] at hflat; cases hflat
    | ok k =>
      rw [hkey] at hflat
      obtain rfl := Value.eq_ofKey (Value.of_key hkey).1
      have hrest := ih (h.put k v) hflat
      rw [List.reverse_cons, List.append_assoc]
      exact hrest
  | case2 flat hflat' =>
    rw [Value.entriesOfFlat] at hflat
    · cases hflat
      exact h
    · exact hflat'

/-- The value that is found was put last. -/
theorem find_eq (h : Kept history es) (k : Key) : (Value.map es).find (.ofKey k) =
    match (putsUnder (.ofKey k) history).getLast? with
    | some p => .ok p.value
    | none => .error (.keyNotFound k) := by
  rw [Value.find_ofKey]
  cases hget : Entries.get? es k with
  | none =>
    rw [h.putsUnder_eq_nil (Entries.insert_of_get?_eq_none (w := .unit) hget).1]
    rfl
  | some v =>
    obtain ⟨before, i, after, rfl, hi, -, -⟩ := Entries.insert_of_get? (w := .unit) hget
    -- the entry has an equal key, and so the same puts
    obtain ⟨p, hp, hv⟩ := (h.made (i, v) (by simp)).last
    rw [← putsUnder_congr hi, hp]
    exact congrArg Except.ok hv.symm

end Kept

/-- A map that was built and changed has the entries that its history says. -/
theorem Built.kept {m : Value} (h : Built history m) : ∃ es, m = .map es ∧ Kept history es := by
  induction h with
  | @build flat m h =>
    rw [Value.ofFlat] at h
    cases hes : Value.entriesOfFlat [] flat with
    | error e => rw [hes] at h; cases h
    | ok es =>
      rw [hes] at h
      cases h
      exact ⟨es, rfl, List.append_nil (changesOfFlat flat).reverse ▸ Kept.nil.ofFlat hes⟩
  | @put history m u v m' _ h ih =>
    obtain ⟨es, rfl, hes⟩ := ih
    rw [Value.put] at h
    cases hkey : u.key "PUT" with
    | error e => rw [hkey] at h; cases h
    | ok k =>
      rw [hkey] at h
      cases h
      obtain rfl := Value.eq_ofKey (Value.of_key hkey).1
      exact ⟨_, rfl, hes.put k v⟩
  | @delete history m u m' _ h ih =>
    obtain ⟨es, rfl, hes⟩ := ih
    rw [Value.delete] at h
    cases hkey : u.key "DELETE" with
    | error e => rw [hkey] at h; cases h
    | ok k =>
      rw [hkey] at h
      obtain rfl := Value.eq_ofKey (Value.of_key hkey).1
      cases herase : Entries.erase? es k with
      | none => simp only [bind, Except.bind, herase] at h; cases h
      | some rest =>
        simp only [bind, Except.bind, herase] at h
        cases h
        exact ⟨rest, rfl, hes.delete herase⟩

/-! ## What is read from a map -/

/-- **Everything that can be read** from a map is what its history says. -/
structure Answers (history : List Change) (m : Value) (ks vs : List Value) : Prop where
  keys : QueryOp.keys.apply m = .ok (.list ks)
  values : QueryOp.values.apply m = .ok (.list vs)
  items : QueryOp.items.apply m = .ok (.list (List.zipWith (fun k v => .list [k, v]) ks vs))
  length : QueryOp.length.apply m = .ok (.ofNat ks.length)
  distinct : ks.Pairwise fun j k => j.same k = false
  ordered : ks.Pairwise (Earlier history)
  present : ∀ u, (∃ k ∈ ks, k.same u = true) ↔ putsUnder u history ≠ []
  /-- A key is shown as it was put first. -/
  stored : ∀ k ∈ ks, ∃ p, (putsUnder k history).head? = some p ∧ p.key = k
  found : ∀ u key, u.toKey? = some key → m.find u =
    match (putsUnder u history).getLast? with
    | some p => .ok p.value
    | none => .error (.keyNotFound key)
  agree : List.Forall₂ (fun k v => m.find k = .ok v) ks vs
  rebuilt : Value.ofFlat (List.zipWith (fun k v => [k, v]) ks vs).flatten = .ok m

theorem Kept.answers {es : Entries Value} (h : Kept history es) :
    Answers history (.map es) (es.map fun e => .ofKey e.1) (es.map Prod.snd) where
  keys := rfl
  values := rfl
  items := by
    rw [List.zipWith_map, List.zipWith_self]
    rfl
  length := by
    rw [List.length_map]
    rfl
  distinct := by
    have hdistinct := h.distinct
    rw [List.pairwise_map] at hdistinct ⊢
    exact hdistinct.imp fun hjk => (Value.same_ofKey _ _).trans hjk
  ordered := by
    have hordered := h.ordered
    rw [List.pairwise_map] at hordered ⊢
    exact hordered
  present u := by
    constructor
    · -- an entry was put, and so was what is the same as its key
      rintro ⟨k, hk, hku⟩ hnone
      obtain ⟨e, he, rfl⟩ := List.mem_map.mp hk
      obtain ⟨j, rfl, hj⟩ := Value.exists_of_same_ofKey ((Value.same_ofKey_comm u e.1).trans hku)
      obtain ⟨p, hp, -⟩ := (h.made e he).first
      rw [← putsUnder_congr hj, hnone] at hp
      cases hp
    · intro hne
      obtain ⟨e, he, heu⟩ := h.complete u hne
      exact ⟨_, List.mem_map_of_mem he, heu⟩
  stored k hk := by
    obtain ⟨e, he, rfl⟩ := List.mem_map.mp hk
    exact (h.made e he).first
  found u key hu := by
    obtain rfl := Value.eq_ofKey hu
    exact h.find_eq key
  agree := by
    rw [List.forall₂_map_left_iff, List.forall₂_map_right_iff, List.forall₂_same]
    intro e he
    obtain ⟨p, hp, hv⟩ := (h.made e he).last
    rw [h.find_eq, hp, ← hv]
  rebuilt := by
    rw [List.zipWith_map, List.zipWith_self, ← List.flatMap_def]
    exact (Value.ofFlat_flatten es).trans (by rw [Entries.ofPairs_eq_self h.distinct])

end Dictionary

namespace Value

/-! ## Elements -/

/-- **The laws of a put** of `v` under `k`: it is found again, nothing else is changed, and what was put before
under this key does not matter. -/
structure PutAt (c k v c' : Value) : Prop where
  found : c'.find k = .ok v
  others : ∀ j, j.same k = false → c'.find j = c.find j
  again : ∀ w, c'.put k w = c.put k w

/-- **The positions of a list** are the keys that are stored as integers from 0 up to its length. -/
structure Indexed (elems : List Value) : Prop where
  find : ∀ k v, (list elems).find k = .ok v ↔ ∃ i : Nat, k = .ofNat i ∧ elems[i]? = some v
  put : ∀ k v c, (list elems).put k v = .ok c ↔ ∃ i : Nat, k = .ofNat i ∧ i < elems.length ∧
    c = .list (elems.set i v)
  /-- The later elements move up. -/
  delete : ∀ k c, (list elems).delete k = .ok c ↔ ∃ i : Nat, k = .ofNat i ∧ i < elems.length ∧ ∃ rest,
    c = .list rest ∧ ∀ j, rest[j]? = if j < i then elems[j]? else elems[j + 1]?

variable {elems : List Value} {es : Entries Value} {c c' k u v : Value}

theorem putAt_map (h : (map es).put u v = .ok c) : PutAt (map es) u v c := by
  rw [put] at h
  cases hkey : u.key "PUT" with
  | error e => rw [hkey] at h; cases h
  | ok k =>
    rw [hkey] at h
    cases h
    obtain ⟨hk, hfind⟩ := of_key hkey
    obtain rfl := eq_ofKey hk
    constructor
    case found =>
      rw [find, hfind]
      simp only [bind, Except.bind, Entries.get?_insert, Key.same_self, if_true]
      rfl
    case others =>
      intro j hj
      rw [find, find]
      cases hkey' : j.key "FIND" with
      | error e => rfl
      | ok i =>
        obtain rfl := eq_ofKey (of_key hkey').1
        have hki : ¬k.same i := by rw [Key.same_comm, ← same_ofKey, hj]; decide
        simp only [bind, Except.bind, Entries.get?_insert, if_neg hki]
    case again =>
      intro w
      rw [put, put, hfind]
      simp only [bind, Except.bind, Entries.insert_insert]

theorem putAt_list (h : (list elems).put u v = .ok c) : PutAt (list elems) u v c := by
  rw [put] at h
  cases hi : u.position "PUT" elems.length with
  | error e => rw [hi] at h; cases h
  | ok i =>
    rw [hi] at h
    cases h
    obtain ⟨-, -, -, -, hposition⟩ := of_position hi
    obtain ⟨rfl, hlt⟩ := eq_ofNat_of_position hi
    constructor
    case found =>
      rw [find, List.length_set, hposition]
      simp [bind, Except.bind, pure, Except.pure, List.getD_eq_getElem?_getD, hlt]
    case others =>
      intro j hj
      rw [find, find, List.length_set]
      cases hi' : j.position "FIND" elems.length with
      | error e => rfl
      | ok i' =>
        obtain ⟨rfl, -⟩ := eq_ofNat_of_position hi'
        have hne : i ≠ i' := by
          rintro rfl
          have hself : (ofNat i).same (ofNat i) = true :=
            (same_ofKey (.num (.ofNat i)) (.num (.ofNat i))).trans (Key.same_self _)
          rw [hself] at hj
          cases hj
        simp [bind, Except.bind, List.getD_eq_getElem?_getD, List.getElem?_set_ne hne]
    case again =>
      intro w
      rw [put, put, List.length_set, hposition]
      simp only [bind, Except.bind, List.set_set]

theorem putAt_of_put (h : c.put k v = .ok c') : PutAt c k v c' := by
  cases c with
  | map es => exact putAt_map h
  | list elems => exact putAt_list h
  | _ => cases h

/-- What is done at a position of a list succeeds exactly for the positions. -/
theorem at_position_iff {α : Type} {op : String} {n : Nat} (h : n ≤ wordSize) {f : Nat → α} {a : α} :
    (k.position op n >>= fun i => .ok (f i)) = .ok a ↔ ∃ i : Nat, k = .ofNat i ∧ i < n ∧ a = f i := by
  constructor
  · intro ha
    cases hi : k.position op n with
    | error e => rw [hi] at ha; cases ha
    | ok i =>
      rw [hi] at ha
      obtain ⟨hk, hlt⟩ := eq_ofNat_of_position hi
      exact ⟨i, hk, hlt, (Except.ok.inj ha).symm⟩
  · rintro ⟨i, hk, hlt, rfl⟩
    rw [(position_eq_ok_iff h).mpr ⟨hk, hlt⟩]
    rfl

theorem indexed (h : elems.length ≤ wordSize) : Indexed elems where
  find k v := by
    refine (at_position_iff h).trans (exists_congr fun i => and_congr_right fun _ => ?_)
    rw [List.getElem?_eq_some_iff, List.getD_eq_getElem?_getD, ← exists_prop]
    refine exists_congr fun hlt => ?_
    rw [List.getElem?_eq_getElem hlt, Option.getD_some, eq_comm]
  put k v c := at_position_iff h
  delete k c := by
    refine (at_position_iff h).trans (exists_congr fun i => and_congr_right fun _ => and_congr_right fun _ => ?_)
    constructor
    · rintro rfl
      exact ⟨_, rfl, fun j => List.getElem?_eraseIdx⟩
    · rintro ⟨rest, rfl, hrest⟩
      exact congrArg list (List.ext_getElem? fun j => (hrest j).trans List.getElem?_eraseIdx.symm)

/-- **Dictionaries.** Whatever is read from a map that was built and changed is what its history says: its keys
are pairwise different and in the order of their first puts, under each there is what was put last, the items are
the keys with their values, and built of its items the map is the same again. What was put into a list or a map
is found, and nothing else is changed. And lists, which are no longer than there are machine words, are read and
changed exactly at their positions. -/
theorem dictionary_laws :
    (∀ history m, Dictionary.Built history m → ∃ ks vs, Dictionary.Answers history m ks vs) ∧
    (∀ c k v c', put c k v = .ok c' → PutAt c k v c') ∧
    ∀ elems : List Value, elems.length ≤ wordSize → Indexed elems := by
  refine ⟨fun history m h => ?_, fun c k v c' => putAt_of_put, fun elems => indexed⟩
  obtain ⟨es, rfl, hes⟩ := h.kept
  exact ⟨_, _, hes.answers⟩

/-- A half is put, deleted, and put again in another form. -/
def sampleChanges : List Dictionary.Change :=
  [.put (.num ⟨2, 4, by decide⟩) (.bool true), .delete (.num ⟨1, 2, by decide⟩), .put (.str "a") .unit,
    .put (.num ⟨1, 2, by decide⟩) .unit]

def sampleMap : Value := .map [(.str "a", .unit), (.num ⟨2, 4, by decide⟩, .bool true)]

/-- The half is the last key, in its new form. -/
theorem dictionary_laws_reinserted :
    Dictionary.Answers sampleChanges sampleMap [.str "a", .num ⟨2, 4, by decide⟩] [.unit, .bool true] ∧
    (list [.bool true]).find (.ofNat 0) = .ok (.bool true) ∧
    (list [.unit]).delete (.ofNat 0) = .ok (.list []) := by
  have hflat : ofFlat [.num ⟨1, 2, by decide⟩, .unit, .str "a", .unit] =
    .ok (.map [(.num ⟨1, 2, by decide⟩, .unit), (.str "a", .unit)]) := rfl
  have hbuilt : Dictionary.Built sampleChanges sampleMap := .put (.delete (.build hflat) rfl) rfl
  obtain ⟨ks, vs, h⟩ := dictionary_laws.1 _ _ hbuilt
  obtain rfl := Value.list.inj (Except.ok.inj h.keys)
  obtain rfl := Value.list.inj (Except.ok.inj h.values)
  exact ⟨h, (dictionary_laws.2.1 (list [.unit]) (.ofNat 0) (.bool true) _ rfl).found,
    ((dictionary_laws.2.2 [.unit] (by decide)).delete _ _).mpr ⟨0, rfl, by decide, [], rfl, by simp⟩⟩

end Value

end ExactScript
