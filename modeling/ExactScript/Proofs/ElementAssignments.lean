import Mathlib.Data.List.Induction
import ExactScript.Proofs.Executions
import ExactScript.Proofs.ReadAfterWrite

/-!
# Assignments to elements

The code of `x[k₁]…[kₙ] = v` puts the changed element back into its parent, the changed parent into the parent
of that, and so on up to the variable. For every one of these puts the collection and the key have to be on
the stack, and they are computed anew each time, from the variable on. So the keys are evaluated in passes: the
first pass evaluates `k₁`, the second `k₁` and `k₂`, the last all of them; then the value is evaluated. An
element is read at the keys of a later pass than the one that gives the key at which it is put back.

Of updates and assignments to elements of a variable itself, the collection is on the stack before the operands
are evaluated. What these store in the variable is gone when the changed collection is stored.

## Contents
* `Expr.element`, elements of variables and their code;
* `ReadsAlong`, `PassesAlong`, `putBack`: what an assignment to an element evaluates, and what it does with
  the values;
* `Program.put_in_passes`, every execution of such an assignment;
* `Revises`, `Program.revised_value_stored`, updates and assignments through a variable.
-/

namespace ExactScript

variable {p : Program}

/-! ## Elements -/

namespace Expr

open Piece (ofList)

/-- The element of a variable at a path of keys. -/
def element {β : Type} (x : β) (keys : List (Expr β)) : Expr β := keys.foldl .index (.var x)

@[simp] theorem element_nil {β : Type} (x : β) : element x [] = .var x := rfl

@[simp] theorem element_concat {β : Type} (x : β) (keys : List (Expr β)) (key : Expr β) :
    element x (keys ++ [key]) = .index (element x keys) key := List.foldl_concat ..

variable {x : Symbol} {keys : List (Expr Symbol)} {key : Expr Symbol}

theorem piece_element_concat : (element x (keys ++ [key])).piece =
    (element x keys).piece ++ (key.piece ++ ofList [.find]) := by
  rw [element_concat, piece]

/-- To set an element of a variable, the changed collection is stored. -/
theorem pieceOfPut_element_nil (k v : Piece) : (element x []).pieceOfPut k v =
    (element x []).piece ++ (k ++ (v ++ ofList [.put])) ++ ofList [.dup, .store x.id] := by
  simp only [element_nil, pieceOfPut, piece, Piece.append_assoc, Piece.ofList_append, List.cons_append,
    List.nil_append]

/-- To set an element of an element, the outer one is set to what becomes of it. -/
theorem pieceOfPut_element_concat (k v : Piece) : (element x (keys ++ [key])).pieceOfPut k v =
    (element x keys).pieceOfPut key.piece
      ((element x (keys ++ [key])).piece ++ (k ++ (v ++ ofList [.put]))) := by
  rw [piece_element_concat, element_concat, pieceOfPut, Piece.append_assoc, Piece.append_assoc]

theorem ready_of_mem {tree : List (Expr Symbol)} (h : Program.ofTree tree = .ok p)
    (hfits : ∀ e ∈ tree, e.Fits) {e : Expr Symbol} (he : e ∈ tree.flatMap subtrees) : e.Ready := by
  obtain ⟨root, hroot, he⟩ := List.mem_flatMap.mp he
  exact ⟨(Program.assignable_of_ofTree h root hroot).nested e he, (hfits root hroot).nested e he⟩

theorem Ready.element_concat (h : (element x (keys ++ [key])).Ready) : (element x keys).Ready ∧ key.Ready := by
  rw [Expr.element_concat] at h
  exact ⟨h.child (by simp [children]), h.child (by simp [children])⟩

theorem Ready.moves_put {k v : Piece} (h : (element x keys).Ready) (hk : Moves 0 1 k) (hv : Moves 0 1 v) :
    Moves 0 1 ((element x keys).piece ++ (k ++ (v ++ ofList [.put]))) :=
  ((Expr.heights _).value h).append ((hk.above 1).append ((hv.above 2).append (.plain .put trivial)))

end Expr

/-! ## What is evaluated -/

open Machine

/-- **An element is read.** The variable is loaded, and at each key, once this is evaluated, the element at the
key is found. The values of the keys are `ks`, the element is `v`. -/
inductive ReadsAlong (x : Symbol) : List (Expr Symbol) → Machine → List Value → Value → Machine → Prop
  | load {m m' : Machine} {v : Value} (hv : m.memory.load x.id = some v) (hs : m.step = (.ok .more, m'))
    (hm' : m' = { m with stack := v :: m.stack, ip := m.ip + 1 }) : ReadsAlong x [] m [] v m'
  | find {keys : List (Expr Symbol)} {key : Expr Symbol} {m m₁ m₂ m' : Machine} {ks : List Value}
    {coll k v : Value} (h : ReadsAlong x keys m ks coll m₁) (hk : Evaluates key.piece m₁ k m₂)
    (hv : coll.find k = .ok v) (hs : m₂.step = (.ok .more, m'))
    (hm' : m' = { m₂ with stack := v :: m.stack, ip := m₂.ip + 1 }) :
    ReadsAlong x (keys ++ [key]) m (ks ++ [k]) v m'

/-- What a pass over the keys has left on the stack. -/
structure Pass where
  /-- The values of the keys that lead to the collection. -/
  above : List Value
  /-- The collection to which an element is put back. -/
  coll : Value
  /-- The value of the key at which it is put back. -/
  key : Value

/-- The values of all keys that were evaluated in the pass. -/
def Pass.path (a : Pass) : List Value := a.above ++ [a.key]

/-- **Passes over the keys**, each one key longer than the one before. -/
inductive PassesAlong (x : Symbol) : List (Expr Symbol) → Machine → List Pass → Machine → Prop
  | nil (m : Machine) : PassesAlong x [] m [] m
  | concat {keys : List (Expr Symbol)} {key : Expr Symbol} {m m₁ m₂ m₃ : Machine} {passes : List Pass}
    {ks : List Value} {coll k : Value} (h : PassesAlong x keys m passes m₁)
    (hr : ReadsAlong x keys m₁ ks coll m₂) (hk : Evaluates key.piece m₂ k m₃) :
    PassesAlong x (keys ++ [key]) m (passes ++ [⟨ks, coll, k⟩]) m₃

/-- The value is put into the collection of the last pass, the result into that of the pass before, and so
on. -/
def putBack (passes : List Pass) (v : Value) : Except RunError Value :=
  passes.foldrM (fun a v => a.coll.put a.key v) v

theorem putBack_concat {passes : List Pass} {a : Pass} {v r : Value} (h : a.coll.put a.key v = .ok r) :
    putBack (passes ++ [a]) v = putBack passes r := by
  rw [putBack, List.foldrM_append]
  simp only [List.foldrM_cons, List.foldrM_nil, pure_bind, h]
  rfl

/-- How often the key at position `j` was evaluated in the passes. -/
def evaluations (passes : List Pass) (j : Nat) : Nat := passes.countP fun a => decide (j < a.path.length)

section Evaluations

variable {x : Symbol} {keys : List (Expr Symbol)} {m m' : Machine} {ks : List Value} {v : Value}
  {passes : List Pass}

theorem ReadsAlong.length_eq (h : ReadsAlong x keys m ks v m') : ks.length = keys.length := by
  induction h with
  | load => rfl
  | find _ _ _ _ _ ih =>
    rw [List.length_append, List.length_append, ih, List.length_singleton, List.length_singleton]

theorem ReadsAlong.stack_eq (h : ReadsAlong x keys m ks v m') : m'.stack = v :: m.stack := by
  cases h with
  | load _ _ hm' => rw [hm']
  | find _ _ _ _ hm' => rw [hm']

theorem ReadsAlong.reachable (h : ReadsAlong x keys m ks v m') (hm : Reachable p m) : Reachable p m' := by
  induction h with
  | load _ hs _ => exact hm.step hs
  | find _ hk _ hs _ ih => exact (hk.reachable (ih hm)).step hs

theorem PassesAlong.reachable (h : PassesAlong x keys m passes m') (hm : Reachable p m) : Reachable p m' := by
  induction h with
  | nil => exact hm
  | concat _ hr hk ih => exact hk.reachable (hr.reachable (ih hm))

theorem ReadsAlong.of_nil (h : ReadsAlong x [] m ks v m') :
    m.memory.load x.id = some v ∧ m' = { m with stack := v :: m.stack, ip := m.ip + 1 } := by
  generalize hkeys : [] = keys at h
  cases h with
  | load hv _ hm' => exact ⟨hv, hm'⟩
  | find => simp at hkeys

theorem PassesAlong.of_nil (h : PassesAlong x [] m passes m') : passes = [] ∧ m' = m := by
  generalize hkeys : [] = keys at h
  cases h with
  | nil => exact ⟨rfl, rfl⟩
  | concat => simp at hkeys

/-- A key is evaluated in its own pass and in each later one. -/
theorem PassesAlong.evaluations_eq (h : PassesAlong x keys m passes m') :
    passes.length = keys.length ∧ ∀ j, evaluations passes j = keys.length - j := by
  induction h with
  | nil => exact ⟨rfl, fun j => (Nat.zero_sub j).symm⟩
  | @concat keys key _ _ _ _ passes ks coll k _ hr _ ih =>
    obtain ⟨hlength, hcount⟩ := ih
    refine ⟨by rw [List.length_append, List.length_append, hlength]; rfl, fun j => ?_⟩
    have hpath : (Pass.mk ks coll k).path.length = keys.length + 1 := by
      rw [Pass.path, List.length_append, hr.length_eq, List.length_singleton]
    have hsplit : evaluations (passes ++ [⟨ks, coll, k⟩]) j =
        evaluations passes j + if j < keys.length + 1 then 1 else 0 := by
      simp only [evaluations, List.countP_append, List.countP_singleton, hpath, decide_eq_true_eq]
    rw [hsplit, hcount, List.length_append, List.length_singleton]
    split <;> omega

end Evaluations

/-! ## Executions -/

section Executions

variable {x : Symbol} {m m' : Machine} {trail : List Machine}

/-- The code of an element reads it. -/
theorem exists_reads (hp : p.Disciplined) {keys : List (Expr Symbol)} (hready : (Expr.element x keys).Ready)
    (hm : Reachable p m) (h : Executes (Expr.element x keys).piece m trail m') :
    ∃ ks v, ReadsAlong x keys m ks v m' := by
  induction keys using List.reverseRecOn generalizing trail m' with
  | nil =>
    obtain ⟨hstep, v, hv, hm'⟩ := Executes.load h
    exact ⟨[], v, .load hv hstep hm'⟩
  | append_singleton keys key ih =>
    obtain ⟨htarget, hkey⟩ := hready.element_concat
    have hfind : Moves 2 1 (.ofList [.find]) := .plain .find trivial
    rw [Expr.piece_element_concat] at h
    obtain ⟨coll, m₁, t₁, h₁, h⟩ := h.evaluates hp hm ((Expr.heights _).value htarget)
      ((((Expr.heights key).value hkey).above 1).append hfind) (Nat.zero_le _)
    obtain ⟨s₁, hs₁⟩ := h₁.executes
    obtain ⟨ks, w, hreads⟩ := ih htarget hs₁
    have hm₁ := h₁.reachable hm
    obtain ⟨k, m₂, t₂, h₂, h⟩ := h.evaluates hp hm₁ ((Expr.heights key).value hkey) hfind
      (by rw [h₁.stack]; exact Nat.le_add_left _ _)
    have hs₂ : m₂.stack = [k, coll] ++ m.stack := by
      rw [h₂.stack, h₁.stack]
      rfl
    obtain ⟨hstep, v, hv, hm'⟩ := h.combine trivial hs₂ rfl
    obtain ⟨rfl, -⟩ := List.cons.inj (h₁.stack.symm.trans hreads.stack_eq)
    exact ⟨ks ++ [k], v, .find hreads h₂ hv hstep hm'⟩

/-- An element is read, and changed. -/
theorem exists_put (hp : p.Disciplined) {keys : List (Expr Symbol)} {key value : Piece}
    (hready : (Expr.element x keys).Ready) (hkey : Moves 0 1 key) (hvalue : Moves 0 1 value)
    (hm : Reachable p m)
    (h : Executes ((Expr.element x keys).piece ++ (key ++ (value ++ .ofList [.put]))) m trail m') :
    ∃ ks coll m₁ k m₂ v m₃ r, ReadsAlong x keys m ks coll m₁ ∧ Evaluates key m₁ k m₂ ∧
      Evaluates value m₂ v m₃ ∧ coll.put k v = .ok r ∧
      m' = { m₃ with stack := r :: m.stack, ip := m₃.ip + 1 } := by
  have hput : Moves 3 1 (.ofList [.put]) := .plain .put trivial
  have hoperands : Moves 2 1 (value ++ .ofList [.put]) := (hvalue.above 2).append hput
  obtain ⟨coll, m₁, t₁, h₁, h⟩ := h.evaluates hp hm ((Expr.heights _).value hready)
    ((hkey.above 1).append hoperands) (Nat.zero_le _)
  obtain ⟨s₁, hs₁⟩ := h₁.executes
  obtain ⟨ks, w, hreads⟩ := exists_reads hp hready hm hs₁
  obtain ⟨rfl, -⟩ := List.cons.inj (h₁.stack.symm.trans hreads.stack_eq)
  have hm₁ := h₁.reachable hm
  obtain ⟨k, m₂, t₂, h₂, h⟩ := h.evaluates hp hm₁ hkey hoperands (by rw [h₁.stack]; exact Nat.le_add_left _ _)
  obtain ⟨v, m₃, t₃, h₃, h⟩ := h.evaluates hp (h₂.reachable hm₁) hvalue hput
    (by rw [h₂.stack, h₁.stack]; exact Nat.le_add_left _ _)
  have hs₃ : m₃.stack = [v, k, coll] ++ m.stack := by
    rw [h₃.stack, h₂.stack, h₁.stack]
    rfl
  obtain ⟨-, r, hr, hm'⟩ := h.combine trivial hs₃ rfl
  exact ⟨ks, coll, m₁, k, m₂, v, m₃, r, hreads, h₂, h₃, hr, hm'⟩

/-- **The code of an assignment to an element**, for any code of the last key and of the value. -/
theorem exists_passes (hp : p.Disciplined) {keys : List (Expr Symbol)} {key value : Piece}
    (hready : (Expr.element x keys).Ready) (hkey : Moves 0 1 key) (hvalue : Moves 0 1 value)
    (hm : Reachable p m) (h : Executes ((Expr.element x keys).pieceOfPut key value) m trail m') :
    ∃ passes m₁ ks coll m₂ k m₃ v m₄ r₀ r, PassesAlong x keys m passes m₁ ∧
      ReadsAlong x keys m₁ ks coll m₂ ∧ Evaluates key m₂ k m₃ ∧ Evaluates value m₃ v m₄ ∧
      coll.put k v = .ok r₀ ∧ putBack passes r₀ = .ok r ∧
      m' = { m₄ with stack := r :: m.stack, memory := m₄.memory.store x.id r, ip := m'.ip } := by
  induction keys using List.reverseRecOn generalizing key value trail m' with
  | nil =>
    have hkeep : Moves 1 1 (.ofList [.dup, .store x.id]) := Expr.moves_restore (.var x)
    rw [Expr.pieceOfPut_element_nil] at h
    obtain ⟨r, m₅, t₁, h₁, h₂⟩ := h.evaluates hp hm (hready.moves_put hkey hvalue) hkeep (Nat.zero_le _)
    obtain ⟨t, hput⟩ := h₁.executes
    obtain ⟨ks, coll, m₂, k, m₃, v, m₄, r', hreads, hk, hv, hr, rfl⟩ := exists_put hp hready hkey hvalue hm hput
    obtain ⟨rfl, -⟩ := List.cons.inj h₁.stack
    have hm' := h₂.keep hp (h₁.reachable hm) rfl
    refine ⟨[], m, ks, coll, m₂, k, m₃, v, m₄, r', r', .nil m, hreads, hk, hv, hr, rfl, ?_⟩
    rw [hm']
  | append_singleton keys key' ih =>
    obtain ⟨htarget, hkey'⟩ := hready.element_concat
    -- the code that changes the element has the place of the value
    rw [Expr.pieceOfPut_element_concat] at h
    obtain ⟨passes, m₁, ks, coll, m₂, k, m₃, w, m₄, r₀, r, hpasses, hreads, hk, hw, hr₀, hr, hm'⟩ :=
      ih htarget ((Expr.heights key').value hkey') (hready.moves_put hkey hvalue) h
    have hall := hpasses.concat hreads hk
    obtain ⟨t, hput⟩ := hw.executes
    obtain ⟨ks', coll', m₅, k', m₆, v, m₇, r', hreads', hk', hv, hr', rfl⟩ :=
      exists_put hp hready hkey hvalue (hall.reachable hm) hput
    obtain ⟨rfl, -⟩ := List.cons.inj hw.stack
    exact ⟨_, m₃, ks', coll', m₅, k', m₆, v, m₇, r', r, hall, hreads', hk', hv, hr',
      (putBack_concat hr₀).trans hr, hm'⟩

end Executions

/-! ## Assignments in programs -/

namespace Program

variable {tree : List (Expr Symbol)} {x : Symbol}

/-- **Assignments to elements.** Every execution of `x[k₁]…[kₙ] = v` that comes to its end makes `n` passes over
the keys, then evaluates the value once, puts it back through the collections of the passes, and stores what
comes of it in the variable. So the key at level `j` is evaluated once in each pass from its own on, and what
is read at that level on the way to a deeper one is read at the key of a later pass. -/
theorem put_in_passes (h : ofTree tree = .ok p) (hfits : ∀ e ∈ tree, e.Fits) {keys : List (Expr Symbol)}
    {key value : Expr Symbol} (hmem : .put (.element x keys) key value ∈ tree.flatMap Expr.subtrees)
    {m m' : Machine} {trail : List Machine} (hm : Machine.Reachable p m)
    (he : Machine.Executes (Expr.put (.element x keys) key value).piece m trail m') :
    ∃ passes m₁ v m₂ r, PassesAlong x (keys ++ [key]) m passes m₁ ∧ Machine.Evaluates value.piece m₁ v m₂ ∧
      putBack passes v = .ok r ∧
      m' = { m₂ with stack := r :: m.stack, memory := m₂.memory.store x.id r, ip := m'.ip } ∧
      ∀ j ≤ keys.length, evaluations passes j = keys.length + 1 - j := by
  have hready := Expr.ready_of_mem h hfits hmem
  have hkey := (Expr.heights key).value (hready.child (by simp [Expr.children]))
  have hvalue := (Expr.heights value).value (hready.child (by simp [Expr.children]))
  rw [Expr.piece] at he
  obtain ⟨passes, m₁, ks, coll, m₂, k, m₃, v, m₄, r₀, r, hpasses, hreads, hk, hv, hr₀, hr, hm'⟩ :=
    exists_passes (disciplined_of_ofTree h hfits) (hready.child (by simp [Expr.children])) hkey hvalue hm he
  have hall := hpasses.concat hreads hk
  refine ⟨_, m₃, v, m₄, r, hall, hv, (putBack_concat hr₀).trans hr, hm', fun j hj => ?_⟩
  rw [hall.evaluations_eq.2, List.length_append, List.length_singleton]

/-- An element of an element at a key that answers differently each time. -/
def sampleToggle : Program where
  code := #[.push (.bool true), .push (.num (.ofNat 1)), .push (.num (.ofNat 2)), .push (.num (.ofNat 2)),
    .buildList, .push (.bool false), .push (.num (.ofNat 3)), .push (.num (.ofNat 4)),
    .push (.num (.ofNat 2)), .buildList, .push (.num (.ofNat 2)), .buildMap, .dup, .store 0, .pop,
    .push (.bool false), .dup, .store 1, .pop, .jump 29, .makeFunction 20 0, .store 2, .load 1, .unary .not,
    .dup, .store 1, .pop, .load 1, .ret, .makeFunction 20 0, .dup, .store 2, .pop, .load 0, .load 2, .call 0,
    .load 0, .load 2, .call 0, .find, .push (.num (.ofNat 0)), .push (.num (.ofNat 5)), .put, .put, .dup,
    .store 0, .pop, .load 0, .halt]
  names := ((IdMap.empty.insert 0 "m").insert 1 "b").insert 2 "f"

/-- The tree of this program. -/
def sampleToggleTree : List (Expr Symbol) :=
  [.declare ⟨"m", 0⟩ (.map
      [(.literal (.bool true), .list [.literal (.num (.ofNat 1)), .literal (.num (.ofNat 2))]),
        (.literal (.bool false), .list [.literal (.num (.ofNat 3)), .literal (.num (.ofNat 4))])]),
    .declare ⟨"b", 1⟩ (.literal (.bool false)),
    .function ⟨"f", 2⟩ [] [.assign ⟨"b", 1⟩ (.unary .not (.var ⟨"b", 1⟩))] (.var ⟨"b", 1⟩),
    .put (.index (.var ⟨"m", 0⟩) (.call ⟨"f", 2⟩ [])) (.literal (.num (.ofNat 0)))
      (.literal (.num (.ofNat 5))),
    .var ⟨"m", 0⟩]

example : ofTree sampleToggleTree = .ok sampleToggle := rfl

/-- The first call answers with the key at which the element is put back, the second with the key at which it
is read. -/
theorem sampleToggle_executes : ∃ m trail m', Machine.Reachable sampleToggle m ∧
    Machine.Executes (Expr.put (.element ⟨"m", 0⟩ [.call ⟨"f", 2⟩ []]) (.literal (.num (.ofNat 0)))
      (.literal (.num (.ofNat 5)))).piece m trail m' ∧
    (trail.countP fun y => y.current? = some (.call 0) ∧ y.memory.depth = m.memory.depth) = 2 ∧
    m'.stack =
      [.map [(.bool true, .list [.ofNat 5, .ofNat 4]), (.bool false, .list [.ofNat 3, .ofNat 4])]] := by
  refine ⟨_, _, _, ⟨{}, 24, .of_after rfl⟩,
    ⟨⟨[.pop, .load 0, .halt], rfl⟩, .of_compute? (n := 31) rfl, ?_, rfl, rfl⟩, rfl, rfl⟩
  decide

theorem mem_sampleToggleTree : .put (.element ⟨"m", 0⟩ [.call ⟨"f", 2⟩ []]) (.literal (.num (.ofNat 0)))
    (.literal (.num (.ofNat 5))) ∈ sampleToggleTree.flatMap Expr.subtrees :=
  List.mem_flatMap.mpr ⟨_, .tail _ (.tail _ (.tail _ (.head _))), List.mem_cons_self⟩

theorem put_in_passes_toggle : ∃ m trail m' passes m₁, Machine.Reachable sampleToggle m ∧
    Machine.Executes (Expr.put (.element ⟨"m", 0⟩ [.call ⟨"f", 2⟩ []]) (.literal (.num (.ofNat 0)))
      (.literal (.num (.ofNat 5)))).piece m trail m' ∧
    PassesAlong ⟨"m", 0⟩ [.call ⟨"f", 2⟩ [], .literal (.num (.ofNat 0))] m passes m₁ ∧
    evaluations passes 0 = 2 ∧ evaluations passes 1 = 1 ∧
    m'.stack =
      [.map [(.bool true, .list [.ofNat 5, .ofNat 4]), (.bool false, .list [.ofNat 3, .ofNat 4])]] := by
  have hcompile : ofTree sampleToggleTree = .ok sampleToggle := rfl
  obtain ⟨m, trail, m', hm, he, -, hstack⟩ := sampleToggle_executes
  obtain ⟨passes, m₁, v, m₂, r, hpasses, -, -, -, hcount⟩ :=
    put_in_passes hcompile (by decide) mem_sampleToggleTree hm he
  exact ⟨m, trail, m', passes, m₁, hm, he, hpasses, hcount 0 (Nat.zero_le _), hcount 1 (Nat.le_refl _), hstack⟩

/-- An assignment to an element with one call among its keys may make two calls. -/
theorem exists_put_calling_twice : ¬∀ (tree : List (Expr Symbol)) (p : Program) (x f : Symbol) (k v : Literal)
    (m m' : Machine) (trail : List Machine), ofTree tree = .ok p → (∀ e ∈ tree, e.Fits) →
    .put (.element x [.call f []]) (.literal k) (.literal v) ∈ tree.flatMap Expr.subtrees →
    Machine.Reachable p m →
    Machine.Executes (Expr.put (.element x [.call f []]) (.literal k) (.literal v)).piece m trail m' →
    (trail.countP fun y => y.current? = some (.call 0) ∧ y.memory.depth = m.memory.depth) = 1 := by
  intro h
  have hcompile : ofTree sampleToggleTree = .ok sampleToggle := rfl
  obtain ⟨m, trail, m', hm, he, htwice, -⟩ := sampleToggle_executes
  have honce := h _ _ _ _ _ _ m m' trail hcompile (by decide) mem_sampleToggleTree hm he
  rw [htwice] at honce
  cases honce

end Program

/-! ## Updates through a variable -/

/-- The expression changes the collection in the variable: `x.cons(e)`, `x.append(e)`, `x.delete(e)` or
`x[k] = e`. -/
inductive Expr.Changes (x : Symbol) : Expr Symbol → Prop
  | update (op : UpdateOp) (arg : Expr Symbol) : Changes x (.update op (.var x) arg)
  | put (key value : Expr Symbol) : Changes x (.put (.var x) key value)

/-- **What becomes of a collection.** The operands are evaluated from the state `m` on, up to the state `m'`;
the operation makes `v` of the collection and the values of the operands. -/
inductive Revises (x : Symbol) (m : Machine) (coll : Value) : Expr Symbol → Machine → Value → Prop
  | update {op : UpdateOp} {arg : Expr Symbol} {m' : Machine} {a v : Value}
    (ha : Evaluates arg.piece m a m') (hv : op.apply coll a = .ok v) :
    Revises x m coll (.update op (.var x) arg) m' v
  | put {key value : Expr Symbol} {m₁ m' : Machine} {k a v : Value} (hk : Evaluates key.piece m k m₁)
    (ha : Evaluates value.piece m₁ a m') (hv : coll.put k a = .ok v) :
    Revises x m coll (.put (.var x) key value) m' v

section Revisions

variable {x : Symbol} {m m' : Machine} {trail : List Machine}

theorem exists_revises (hp : p.Disciplined) {e : Expr Symbol} (he : e.Changes x) (hready : e.Ready)
    (hm : Reachable p m) (h : Executes e.piece m trail m') :
    ∃ coll m₁ m₂ v, m.memory.load x.id = some coll ∧ m₁ = { m with stack := coll :: m.stack, ip := m.ip + 1 } ∧
      Revises x m₁ coll e m₂ v ∧ Reachable p m₂ ∧
      m' = { m₂ with stack := v :: m.stack, memory := m₂.memory.store x.id v, ip := m'.ip } := by
  cases he with
  | update op arg =>
    have harg := (Expr.heights arg).value (hready.child (by simp [Expr.children]))
    have hupdate : Moves 2 1 (.ofList [.update op]) := .plain (.update op) trivial
    have hend : Moves 2 1 (.ofList [.update op] ++ .ofList [.dup, .store x.id]) :=
      hupdate.append (Expr.moves_restore (.var x))
    have hcode : (Expr.update op (.var x) arg).piece =
        .ofList [.load x.id] ++ (arg.piece ++ (.ofList [.update op] ++ .ofList [.dup, .store x.id])) := rfl
    rw [hcode] at h
    obtain ⟨coll, m₁, t₁, hcoll, hstep, hm₁, h⟩ := h.loads hp hm ((harg.above 1).append hend)
    have hreach₁ := hm.step hstep
    obtain ⟨a, m₂, t₂, h₂, h⟩ := h.evaluates hp hreach₁ harg hend (by rw [hm₁]; exact Nat.le_add_left _ _)
    have hreach₂ := h₂.reachable hreach₁
    have hs₂ : m₂.stack = [a, coll] ++ m.stack := by
      rw [h₂.stack, hm₁]
      rfl
    obtain ⟨v, hv, hm'⟩ := h.combine_keep hp hreach₂ hupdate trivial hs₂ rfl rfl
    exact ⟨coll, m₁, m₂, v, hcoll, hm₁, .update h₂ hv, hreach₂, hm'⟩
  | put key value =>
    have htarget : (Expr.element x []).Ready := hready.child (by simp [Expr.children])
    obtain ⟨passes, m₁, ks, coll, m₂, k, m₃, a, m₄, r₀, r, hpasses, hreads, hk, ha, hr₀, hr, hm'⟩ :=
      exists_passes hp htarget ((Expr.heights key).value (hready.child (by simp [Expr.children])))
        ((Expr.heights value).value (hready.child (by simp [Expr.children]))) hm h
    obtain ⟨rfl, rfl⟩ := hpasses.of_nil
    have hm₄ := ha.reachable (hk.reachable (hreads.reachable hm))
    obtain ⟨hv, hloaded⟩ := hreads.of_nil
    obtain rfl : r₀ = r := Except.ok.inj hr
    exact ⟨coll, m₂, m₄, r₀, hv, hloaded, .put hk ha hr₀, hm₄, hm'⟩

end Revisions

namespace Program

variable {tree : List (Expr Symbol)} {x : Symbol}

/-- **The collection from before the operands.** Every execution of an update of a variable, or of an
assignment to an element of it, that comes to its end loads the collection first, then evaluates the operands,
and stores what the operation makes of them and the collection that was loaded. What the operands have stored
in the variable is gone. -/
theorem revised_value_stored (h : ofTree tree = .ok p) (hfits : ∀ e ∈ tree, e.Fits) {e : Expr Symbol}
    (hmem : e ∈ tree.flatMap Expr.subtrees) (hchanges : e.Changes x) {m m' : Machine} {trail : List Machine}
    (hm : Machine.Reachable p m) (he : Machine.Executes e.piece m trail m') :
    ∃ coll m₁ m₂ v, m.memory.load x.id = some coll ∧
      m₁ = { m with stack := coll :: m.stack, ip := m.ip + 1 } ∧ Revises x m₁ coll e m₂ v ∧
      m' = { m₂ with stack := v :: m.stack, memory := m₂.memory.store x.id v, ip := m'.ip } ∧
      m'.memory.load x.id = some v := by
  obtain ⟨coll, m₁, m₂, v, hcoll, hm₁, hrevises, hm₂, hm'⟩ :=
    exists_revises (disciplined_of_ofTree h hfits) hchanges (Expr.ready_of_mem h hfits hmem) hm he
  refine ⟨coll, m₁, m₂, v, hcoll, hm₁, hrevises, hm', ?_⟩
  rw [hm']
  exact (Machine.separate_of_reachable hm₂).load_store_self

/-- An update of a variable whose operand updates the variable, too. -/
def sampleOverwrite : Program where
  code := #[.push (.num (.ofNat 1)), .push (.num (.ofNat 1)), .buildList, .dup, .store 0, .pop, .jump 17,
    .makeFunction 7 0, .store 1, .load 0, .push (.num (.ofNat 2)), .update .append, .dup, .store 0, .pop,
    .push (.num (.ofNat 3)), .ret, .makeFunction 7 0, .dup, .store 1, .pop, .load 0, .load 1, .call 0,
    .update .append, .dup, .store 0, .pop, .load 0, .halt]
  names := (IdMap.empty.insert 0 "x").insert 1 "f"

/-- The tree of this program. -/
def sampleOverwriteTree : List (Expr Symbol) :=
  [.declare ⟨"x", 0⟩ (.list [.literal (.num (.ofNat 1))]),
    .function ⟨"f", 1⟩ [] [.update .append (.var ⟨"x", 0⟩) (.literal (.num (.ofNat 2)))]
      (.literal (.num (.ofNat 3))),
    .update .append (.var ⟨"x", 0⟩) (.call ⟨"f", 1⟩ []), .var ⟨"x", 0⟩]

example : ofTree sampleOverwriteTree = .ok sampleOverwrite := rfl

/-- After the operand the variable has two elements. Only the first of them is left when the update is done. -/
theorem sampleOverwrite_executes : ∃ m trail m' y, Machine.Reachable sampleOverwrite m ∧
    Machine.Executes (Expr.update .append (.var ⟨"x", 0⟩) (.call ⟨"f", 1⟩ [])).piece m trail m' ∧
    y ∈ trail ∧ y.memory.depth = m.memory.depth ∧ y.ip = m.ip + 3 ∧ y.stack.head? = some (.ofNat 3) ∧
    m.memory.load 0 = some (.list [.ofNat 1]) ∧ y.memory.load 0 = some (.list [.ofNat 1, .ofNat 2]) ∧
    m'.memory.load 0 = some (.list [.ofNat 1, .ofNat 3]) := by
  refine ⟨_, _, _, _, ⟨{}, 11, .of_after rfl⟩,
    ⟨⟨[.pop, .load 0, .halt], rfl⟩, .of_compute? (n := 16) rfl, ?_, rfl, rfl⟩,
    List.mem_of_getElem? (i := 13) rfl, rfl, rfl, rfl, rfl, rfl, rfl⟩
  decide

theorem mem_sampleOverwriteTree : .update .append (.var ⟨"x", 0⟩) (.call ⟨"f", 1⟩ []) ∈
    sampleOverwriteTree.flatMap Expr.subtrees :=
  List.mem_flatMap.mpr ⟨_, .tail _ (.tail _ (.head _)), List.mem_cons_self⟩

theorem revised_value_stored_overwrite : ∃ m trail m' m₁ m₂, Machine.Reachable sampleOverwrite m ∧
    Machine.Executes (Expr.update .append (.var ⟨"x", 0⟩) (.call ⟨"f", 1⟩ [])).piece m trail m' ∧
    Revises ⟨"x", 0⟩ m₁ (.list [.ofNat 1]) (.update .append (.var ⟨"x", 0⟩) (.call ⟨"f", 1⟩ [])) m₂
      (.list [.ofNat 1, .ofNat 3]) := by
  have hcompile : ofTree sampleOverwriteTree = .ok sampleOverwrite := rfl
  obtain ⟨m, trail, m', y, hm, he, -, -, -, -, hbefore, -, hstored⟩ := sampleOverwrite_executes
  obtain ⟨coll, m₁, m₂, v, hcoll, -, hrevises, -, hv⟩ :=
    revised_value_stored hcompile (by decide) mem_sampleOverwriteTree (.update _ _) hm he
  obtain rfl := Option.some.inj (hbefore.symm.trans hcoll)
  obtain rfl := Option.some.inj (hstored.symm.trans hv)
  exact ⟨m, trail, m', m₁, m₂, hm, he, hrevises⟩

/-- What the operand of an update stores in the variable may get lost. -/
theorem exists_lost_update : ¬∀ (tree : List (Expr Symbol)) (p : Program) (x : Symbol) (op : UpdateOp)
    (arg : Expr Symbol) (m m' : Machine) (trail : List Machine), ofTree tree = .ok p →
    (∀ e ∈ tree, e.Fits) → .update op (.var x) arg ∈ tree.flatMap Expr.subtrees → Machine.Reachable p m →
    Machine.Executes (Expr.update op (.var x) arg).piece m trail m' →
    ∀ y ∈ trail, y.memory.depth = m.memory.depth → y.ip = m.ip + 1 + arg.piece.width →
      ∃ a coll v, y.stack.head? = some a ∧ y.memory.load x.id = some coll ∧ op.apply coll a = .ok v ∧
        m'.memory.load x.id = some v := by
  intro h
  have hcompile : ofTree sampleOverwriteTree = .ok sampleOverwrite := rfl
  obtain ⟨m, trail, m', y, hm, he, hy, hdepth, hip, hhead, -, hload, hstored⟩ := sampleOverwrite_executes
  obtain ⟨a, coll, v, ha, hcoll, hv, hlater⟩ :=
    h _ _ _ _ _ m m' trail hcompile (by decide) mem_sampleOverwriteTree hm he y hy hdepth hip
  obtain rfl := Option.some.inj (hhead.symm.trans ha)
  obtain rfl := Option.some.inj (hload.symm.trans hcoll)
  -- three elements and two
  cases hv
  cases hstored.symm.trans hlater

end Program

end ExactScript
