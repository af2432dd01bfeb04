import ExactScript.Proofs.LexicalScoping

/-!
# Scopes as a stack

Scopes are opened and closed in any order, with entries added and looked up in between. While a scope is
open, those around it are out of reach: what is done from its opening to its closing is what would be done
to scopes of their own, opened *inside* of the others. Among these it is the outermost one, which no
operation closes, so its entries can be read off the operations: they are those that were added while no
scope was open above it, and of several with one key the last.

Lookups are described by the index of a scope, counted from the outermost one. So a scope keeps its index
when others are opened and closed above it, and the scope that a lookup finds is the one with the greatest
index.

## Contents
* `Scopes.Operation`, what can be done to scopes, and `Scopes.applyAll`, sequences of it;
* `Operation.above?`, how many scopes are open above one, and `Balanced`, sequences that close what they
  open;
* `Scopes.inside`, scopes around scopes, with `apply_inside` for one operation and `applyAll_inside` for a
  sequence;
* `Scopes.added` and `Scope.Records`, what the operations leave in a scope, with `records_applyAll`;
* `Scopes.Foremost`, the entry that a key refers to, and `getWithDepth?_eq_some_iff`;
* `Scopes.stack_laws`, the theorem.
-/

namespace ExactScript

/-! ## Entries of one scope -/

namespace Scope

variable {κ ν : Type} [DecidableEq κ] {s : Scope κ ν}

/-- Adds entries one after the other. -/
def insertAll (s : Scope κ ν) (es : List (κ × ν)) : Scope κ ν := es.foldl (fun s e => s.insert e.1 e.2) s

theorem insertAll_cons (s : Scope κ ν) (e : κ × ν) (es : List (κ × ν)) :
    s.insertAll (e :: es) = (s.insert e.1 e.2).insertAll es := rfl

theorem insertAll_append (s : Scope κ ν) (es fs : List (κ × ν)) :
    s.insertAll (es ++ fs) = (s.insertAll es).insertAll fs := List.foldl_append

/-- The last entry with the key counts. -/
theorem get?_insertAll (s : Scope κ ν) (es : List (κ × ν)) (k : κ) :
    (s.insertAll es).get? k = ((es.filter (·.1 = k)).getLast?.map Prod.snd).or (s.get? k) := by
  induction es generalizing s with
  | nil => rfl
  | cons e es ih =>
    rw [insertAll_cons, ih, get?_insert]
    by_cases he : e.1 = k
    · rw [if_pos he, List.filter_cons_of_pos (by simpa using he), List.getLast?_cons]
      -- unless the key is added again, this is the last entry
      cases (es.filter (·.1 = k)).getLast? with
      | none => rfl
      | some last => rfl
    · rw [if_neg he, List.filter_cons_of_neg (by simpa using he)]

theorem mem_keys_insert {k j : κ} {v : ν} :
    j ∈ (s.insert k v).map Prod.fst ↔ j = k ∨ j ∈ s.map Prod.fst := by
  induction s with
  | nil => simp [insert]
  | cons e s ih =>
    obtain ⟨i, w⟩ := e
    by_cases hi : i = k
    · simp [insert, hi]
    · simp only [insert, if_neg hi, List.map_cons, List.mem_cons, ih]
      exact or_left_comm

theorem nodup_keys_insert (h : (s.map Prod.fst).Nodup) (k : κ) (v : ν) :
    ((s.insert k v).map Prod.fst).Nodup := by
  induction s with
  | nil => simp [insert]
  | cons e s ih =>
    obtain ⟨i, w⟩ := e
    obtain ⟨hi, hs⟩ := List.nodup_cons.mp h
    by_cases heq : i = k
    · subst heq
      simpa [insert] using h
    · rw [insert, if_neg heq]
      refine List.nodup_cons.mpr ⟨fun hmem => ?_, ih hs⟩
      rcases mem_keys_insert.mp hmem with hk | hmem
      · exact heq hk
      · exact hi hmem

theorem nodup_keys_insertAll (h : (s.map Prod.fst).Nodup) (es : List (κ × ν)) :
    ((s.insertAll es).map Prod.fst).Nodup := by
  induction es generalizing s with
  | nil => exact h
  | cons e es ih => exact ih (nodup_keys_insert h e.1 e.2)

end Scope

/-! ## Operations -/

namespace Scopes

variable {κ ν : Type}

/-- What can be done to scopes. -/
inductive Operation (κ ν : Type) where
  | openScope
  | closeScope
  | add (k : κ) (v : ν)
  /-- Asks whether the innermost scope has the key. -/
  | contains (k : κ)
  /-- Looks the key up from the innermost scope outwards. -/
  | find (k : κ)

/-- The number of scopes above some scope after the operation, if it is `n` before it. There is none if the
operation would close the scope itself. -/
def Operation.above? : Nat → Operation κ ν → Option Nat
  | n, .openScope => some (n + 1)
  | 0, .closeScope => none
  | n + 1, .closeScope => some n
  | n, _ => some n

/-- The operations close the scopes that they open, and no other. -/
def Balanced (ops : List (Operation κ ν)) : Prop := ops.foldlM Operation.above? 0 = some 0

instance (ops : List (Operation κ ν)) : Decidable (Balanced ops) :=
  inferInstanceAs (Decidable (_ = some 0))

/-- The entry that the operation adds to a scope with `n` scopes above it. -/
def Operation.adds? : Nat → Operation κ ν → Option (κ × ν)
  | 0, .add k v => some (k, v)
  | _, _ => none

/-- The entries that the operations add, in order, to a scope with `n` scopes above it at first. The scope
itself stays open. -/
def added : Nat → List (Operation κ ν) → List (κ × ν)
  | _, [] => []
  | n, op :: ops => (op.adds? n).toList ++ added ((op.above? n).getD n) ops

/-! ## Scopes inside of scopes -/

/-- The scopes `t`, opened inside the innermost scope of `s`. -/
def inside (t s : Scopes κ ν) : Scopes κ ν := { s with inner := t.toList ++ s.inner }

theorem empty_inside (s : Scopes κ ν) : empty.inside s = s.openScope := rfl

/-- Closing the last scope of `t` brings back what is around. -/
theorem closeScope_inside {t : Scopes κ ν} (s : Scopes κ ν) (h : t.inner.length = 0) :
    (t.inside s).closeScope = (some t.outermost, s) := by
  unfold closeScope inside toList
  rw [List.length_eq_zero_iff.mp h]
  rfl

section Apply

/-! ## One operation after the other -/

variable [DecidableEq κ]

/-- The scopes after the operation. Lookups leave them as they are. -/
def apply (s : Scopes κ ν) : Operation κ ν → Scopes κ ν
  | .openScope => s.openScope
  | .closeScope => s.closeScope.2
  | .add k v => s.add k v
  | .contains _ => s
  | .find _ => s

/-- The operations are carried out one after the other. -/
def applyAll (s : Scopes κ ν) (ops : List (Operation κ ν)) : Scopes κ ν := ops.foldl apply s

variable {t : Scopes κ ν} {op : Operation κ ν} {ops : List (Operation κ ν)} {n : Nat}

theorem applyAll_cons (s : Scopes κ ν) (op : Operation κ ν) (ops : List (Operation κ ν)) :
    s.applyAll (op :: ops) = (s.apply op).applyAll ops := rfl

/-- The scopes above the outermost one. It is not closed, even if that is asked for. -/
theorem length_inner_apply (s : Scopes κ ν) (op : Operation κ ν) :
    (s.apply op).inner.length = (op.above? s.inner.length).getD s.inner.length := by
  obtain ⟨inner, outermost⟩ := s
  -- what a close and an addition do depends on whether the outermost scope is the innermost one
  cases op <;> cases inner <;> rfl

/-- **One operation.** As long as it does not close the outermost scope of `t`, what is around makes no
difference. -/
theorem apply_inside (s : Scopes κ ν) (h : op.above? t.inner.length = some n) :
    (t.inside s).apply op = (t.apply op).inside s := by
  obtain ⟨inner, outermost⟩ := t
  cases op with
  | closeScope =>
    cases inner with
    | nil =>
      -- this would close the outermost scope
      cases h
    | cons scope rest => rfl
  | add k v =>
    cases inner with
    | nil => rfl
    | cons scope rest => rfl
  | _ => rfl

/-- **Every sequence.** -/
theorem applyAll_inside (s : Scopes κ ν) (h : ops.foldlM Operation.above? t.inner.length = some n) :
    (t.inside s).applyAll ops = (t.applyAll ops).inside s ∧ (t.applyAll ops).inner.length = n := by
  induction ops generalizing t with
  | nil => exact ⟨rfl, Option.some.inj h⟩
  | cons op ops ih =>
    rw [List.foldlM_cons] at h
    obtain ⟨m, hm, hrest⟩ := Option.bind_eq_some_iff.mp h
    have hlength : (t.apply op).inner.length = m := by
      rw [length_inner_apply, hm]
      rfl
    rw [← hlength] at hrest
    rw [applyAll_cons, applyAll_cons, apply_inside s hm]
    exact ih hrest

/-! ## The outermost scope -/

/-- **One operation.** -/
theorem outermost_apply (s : Scopes κ ν) (op : Operation κ ν) :
    (s.apply op).outermost = s.outermost.insertAll (op.adds? s.inner.length).toList := by
  obtain ⟨inner, outermost⟩ := s
  cases op <;> cases inner <;> rfl

/-- **Every sequence.** -/
theorem outermost_applyAll (s : Scopes κ ν) (ops : List (Operation κ ν)) :
    (s.applyAll ops).outermost = s.outermost.insertAll (added s.inner.length ops) := by
  induction ops generalizing s with
  | nil => rfl
  | cons op ops ih =>
    rw [applyAll_cons, ih, outermost_apply, length_inner_apply, added, Scope.insertAll_append]

/-- The scope has each key once, with the last value that the operations add under it while no scope is open
above this one. -/
structure Records (scope : Scope κ ν) (ops : List (Operation κ ν)) : Prop where
  nodup_keys : (scope.map Prod.fst).Nodup
  get?_eq : ∀ k, scope.get? k = ((added 0 ops).filter (·.1 = k)).getLast?.map Prod.snd

/-- **From empty scopes.** The operations may be any at all. -/
theorem records_applyAll (ops : List (Operation κ ν)) :
    Records ((empty : Scopes κ ν).applyAll ops).outermost ops where
  nodup_keys := by
    rw [outermost_applyAll]
    exact Scope.nodup_keys_insertAll (s := []) List.nodup_nil _
  get?_eq k := by
    rw [outermost_applyAll, Scope.get?_insertAll]
    exact Option.or_none

end Apply

/-! ## Lookups -/

/-- The scope with this index. The outermost one has index 0, and the innermost one the greatest. -/
def scopeAt? (s : Scopes κ ν) (i : Nat) : Option (Scope κ ν) := s.toList.reverse[i]?

variable {s : Scopes κ ν} {i j : Nat}

theorem scopeAt?_zero (s : Scopes κ ν) : s.scopeAt? 0 = some s.outermost := by
  simp [scopeAt?, toList]

theorem mem_toList_of_scopeAt? {scope : Scope κ ν} (h : s.scopeAt? i = some scope) : scope ∈ s.toList :=
  List.mem_reverse.mp (List.mem_of_getElem? h)

theorem scopeAt?_of_toList {scope : Scope κ ν} {inner outer : List (Scope κ ν)}
    (h : s.toList = inner ++ scope :: outer) : s.scopeAt? outer.length = some scope := by
  simp [scopeAt?, h]

/-- Further inside are only those with greater indices. -/
theorem mem_of_scopeAt? {scope found : Scope κ ν} {inner outer : List (Scope κ ν)}
    (h : s.toList = inner ++ scope :: outer) (hj : outer.length < j) (hfound : s.scopeAt? j = some found) :
    found ∈ inner := by
  have hreverse : s.toList.reverse = (outer.reverse ++ [scope]) ++ inner.reverse := by simp [h]
  have hlength : (outer.reverse ++ [scope]).length ≤ j := by
    rw [List.length_append, List.length_reverse]
    exact hj
  rw [scopeAt?, hreverse, List.getElem?_append_right hlength] at hfound
  exact List.mem_reverse.mp (List.mem_of_getElem? hfound)

variable [DecidableEq κ] {k : κ} {v w : ν}

/-- The scope with index `i` has the value under the key, and no scope with a greater index has the key. -/
structure Foremost (s : Scopes κ ν) (k : κ) (i : Nat) (v : ν) : Prop where
  found : ∃ scope, s.scopeAt? i = some scope ∧ scope.get? k = some v
  above : ∀ j scope, i < j → s.scopeAt? j = some scope → scope.get? k = none

theorem Foremost.unique (h : s.Foremost k i v) (h' : s.Foremost k j w) : i = j ∧ v = w := by
  obtain ⟨scope, hscope, hv⟩ := h.found
  obtain ⟨scope', hscope', hw⟩ := h'.found
  rcases Nat.lt_trichotomy i j with hlt | rfl | hlt
  · rw [h.above j scope' hlt hscope'] at hw
    cases hw
  · obtain rfl : scope = scope' := Option.some.inj (hscope.symm.trans hscope')
    exact ⟨rfl, Option.some.inj (hv.symm.trans hw)⟩
  · rw [h'.above i scope hlt hscope] at hv
    cases hv

/-- A lookup that succeeds has asked every scope further inside. -/
theorem of_findWithDepth?_eq_some {scopes : List (Scope κ ν)} (h : findWithDepth? k scopes = some (i, v)) :
    ∃ inner scope outer, scopes = inner ++ scope :: outer ∧ outer.length = i ∧ scope.get? k = some v ∧
      ∀ other ∈ inner, other.get? k = none := by
  induction scopes with
  | nil => cases h
  | cons scope outer ih =>
    unfold findWithDepth? at h
    cases hscope : scope.get? k with
    | some u =>
      rw [hscope] at h
      cases h
      exact ⟨[], scope, outer, rfl, rfl, hscope, fun _ hmem => by cases hmem⟩
    | none =>
      rw [hscope] at h
      obtain ⟨inner, found, rest, rfl, hrest, hv, hinner⟩ := ih h
      exact ⟨scope :: inner, found, rest, rfl, hrest, hv, List.forall_mem_cons.mpr ⟨hscope, hinner⟩⟩

/-- A lookup that fails has asked every scope. -/
theorem of_findWithDepth?_eq_none {scopes : List (Scope κ ν)} (h : findWithDepth? k scopes = none) :
    ∀ scope ∈ scopes, scope.get? k = none := by
  induction scopes with
  | nil => exact fun _ hmem => by cases hmem
  | cons scope outer ih =>
    unfold findWithDepth? at h
    cases hscope : scope.get? k with
    | some v =>
      rw [hscope] at h
      cases h
    | none =>
      rw [hscope] at h
      exact List.forall_mem_cons.mpr ⟨hscope, ih h⟩

theorem foremost_of_getWithDepth? (h : s.getWithDepth? k = some (i, v)) : s.Foremost k i v := by
  obtain ⟨inner, scope, outer, hsplit, rfl, hv, hinner⟩ := of_findWithDepth?_eq_some h
  constructor
  · exact ⟨scope, scopeAt?_of_toList hsplit, hv⟩
  · intro j found hj hfound
    exact hinner found (mem_of_scopeAt? hsplit hj hfound)

/-- **What a key refers to.** It is the entry of the scope with the greatest index that has the key. -/
theorem getWithDepth?_eq_some_iff : s.getWithDepth? k = some (i, v) ↔ s.Foremost k i v := by
  constructor
  · exact foremost_of_getWithDepth?
  · intro h
    cases hlookup : s.getWithDepth? k with
    | none =>
      obtain ⟨scope, hscope, hv⟩ := h.found
      rw [of_findWithDepth?_eq_none hlookup scope (mem_toList_of_scopeAt? hscope)] at hv
      cases hv
    | some entry =>
      obtain ⟨rfl, rfl⟩ := h.unique (foremost_of_getWithDepth? hlookup)
      rfl

/-- **A key that refers to nothing.** It is in no scope. -/
theorem getWithDepth?_eq_none_iff : s.getWithDepth? k = none ↔ ∀ scope ∈ s.toList, scope.get? k = none := by
  constructor
  · exact of_findWithDepth?_eq_none
  · intro h
    cases hlookup : s.getWithDepth? k with
    | none => rfl
    | some entry =>
      obtain ⟨scope, hscope, hv⟩ := (foremost_of_getWithDepth? hlookup).found
      rw [h scope (mem_toList_of_scopeAt? hscope)] at hv
      cases hv

/-! ## The theorem -/

/-- **Scopes are a stack.** A scope that is opened and closed again, with any operations in between that close
what they open, leaves the scopes exactly as they were, and the scope that is closed has the last value that
was added to it under each key. Whatever was done before, a lookup finds the entry of the scope with the
greatest index that has the key, and it fails exactly if no scope has the key. And whatever is done to empty
scopes, the outermost one is there, with all that was added to it. -/
theorem stack_laws (s : Scopes κ ν) (ops : List (Operation κ ν)) :
    (Balanced ops → ∃ scope : Scope κ ν,
      (s.applyAll (.openScope :: ops)).closeScope = (some scope, s) ∧ Records scope ops) ∧
    (∀ k i v, (s.applyAll ops).getWithDepth? k = some (i, v) ↔ (s.applyAll ops).Foremost k i v) ∧
    (∀ k, (s.applyAll ops).getWithDepth? k = none ↔
      ∀ scope ∈ (s.applyAll ops).toList, scope.get? k = none) ∧
    (∃ scope : Scope κ ν, (empty.applyAll ops).scopeAt? 0 = some scope ∧ Records scope ops) := by
  refine ⟨fun hbalanced => ?_, fun k i v => getWithDepth?_eq_some_iff,
    fun k => getWithDepth?_eq_none_iff, ?_⟩
  · obtain ⟨hinside, hlength⟩ := applyAll_inside s (t := empty) hbalanced
    refine ⟨((empty : Scopes κ ν).applyAll ops).outermost, ?_, records_applyAll ops⟩
    rw [applyAll_cons]
    show (s.openScope.applyAll ops).closeScope = _
    rw [← empty_inside, hinside]
    exact closeScope_inside s hlength
  · exact ⟨_, scopeAt?_zero _, records_applyAll ops⟩

/-- A key is added again behind a scope that shadows it, and another one only in that scope. -/
theorem stack_laws_shadowing :
    let s : Scopes String Nat := ⟨[[("x", 5)]], [("x", 6), ("z", 7)]⟩
    let ops : List (Operation String Nat) :=
      [.add "x" 1, .openScope, .add "x" 2, .find "z", .add "y" 3, .closeScope, .contains "y", .add "x" 4]
    Balanced ops ∧ ∃ scope : Scope String Nat,
      (s.applyAll (.openScope :: ops)).closeScope = (some scope, s) ∧
        scope.get? "x" = some 4 ∧ scope.get? "y" = none := by
  intro s ops
  have hbalanced : Balanced ops := by decide
  obtain ⟨scope, hclosed, hrecords⟩ := (stack_laws s ops).1 hbalanced
  refine ⟨hbalanced, scope, hclosed, ?_, ?_⟩
  · exact (hrecords.get?_eq "x").trans (by decide)
  · exact (hrecords.get?_eq "y").trans (by decide)

end Scopes

end ExactScript
