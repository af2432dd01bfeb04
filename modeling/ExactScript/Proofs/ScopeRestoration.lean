import ExactScript.Proofs.LexicalScoping

/-!
# What resolution leaves behind

A part of resolution may end with an error, anywhere inside of scopes and functions. However it ends, it
has closed every scope and left every function that it opened or entered. So it leaves nothing behind but
names in the innermost scope, and these are among the names that it declares there itself: the `locals` of
the outline.

## Contents
* `Resolver.stateAfter`, the state after a part of resolution, with or without success;
* `Resolver.Leaves`, what may have become of a state, and `Leaves.get?_eq`, what that means for lookups;
* `Resolver.Tidy` and its rules, `tidy_outline`;
* `resolve_restores`, the theorem.
-/

namespace ExactScript

namespace Scopes

variable {κ ν : Type} {s t : Scopes κ ν}

theorem innermost_eq_head (s : Scopes κ ν) : s.toList = s.innermost :: s.toList.tail := by
  obtain ⟨inner, outermost⟩ := s
  cases inner with
  | nil => rfl
  | cons scope rest => rfl

/-- What stands around a scope that was opened stands there again when it is closed. -/
theorem closeScope_of_tail (h : t.toList.tail = s.openScope.toList.tail) : t.closeScope.2 = s := by
  obtain ⟨inner, outermost⟩ := t
  change _ = s.inner ++ [s.outermost] at h
  cases inner with
  | nil =>
    -- there would be no scope left
    change [] = _ at h
    exact absurd h.symm (List.append_ne_nil_of_right_ne_nil _ (List.cons_ne_nil _ _))
  | cons scope rest =>
    change rest ++ [outermost] = _ at h
    obtain ⟨hinner, houtermost⟩ := List.append_inj' h rfl
    cases houtermost
    subst hinner
    rfl

variable [DecidableEq κ]

/-- A lookup goes to the innermost scope first. -/
theorem get?_of_toList {scope : Scope κ ν} {outer : List (Scope κ ν)} (h : s.toList = scope :: outer)
    (k : κ) : s.get? k = (scope.get? k).or ((findWithDepth? k outer).map Prod.snd) := by
  unfold get? getWithDepth?
  rw [h, findWithDepth?]
  cases scope.get? k with
  | none => rfl
  | some v => rfl

theorem depth_add (s : Scopes κ ν) (k : κ) (v : ν) : (s.add k v).depth = s.depth := by
  obtain ⟨inner, outermost⟩ := s
  cases inner with
  | nil => rfl
  | cons scope rest => rfl

theorem innermost_add (s : Scopes κ ν) (k : κ) (v : ν) :
    (s.add k v).innermost = s.innermost.insert k v ∧ (s.add k v).toList.tail = s.toList.tail := by
  obtain ⟨inner, outermost⟩ := s
  cases inner with
  | nil => exact ⟨rfl, rfl⟩
  | cons scope rest => exact ⟨rfl, rfl⟩

end Scopes

namespace Resolver

variable {α β : Type} {r r' r'' : Resolver} {own own' : List String}

/-! ## States -/

/-- The state after a part of resolution, which may have failed. -/
def stateAfter (f : Resolve α) (r : Resolver) : Resolver :=
  match f r with
  | .ok _ r' => r'
  | .error _ r' => r'

/-- The state `r'` is left of `r`: the innermost scope may have new entries, with names of `own`, and all
other scopes and the functions are as they were. -/
structure Leaves (own : List String) (r r' : Resolver) : Prop where
  functions : r'.functions = r.functions
  depth : r'.scopes.depth = r.scopes.depth
  /-- The scopes around the innermost one, from inside out. -/
  around : r'.scopes.toList.tail = r.scopes.toList.tail
  kept : ∀ x b, r.scopes.innermost.get? x = some b → r'.scopes.innermost.get? x = some b
  gained : ∀ x, x ∉ own → r'.scopes.innermost.get? x = r.scopes.innermost.get? x

namespace Leaves

theorem refl (r : Resolver) : Leaves own r r :=
  ⟨rfl, rfl, rfl, fun _ _ h => h, fun _ _ => rfl⟩

theorem trans (h : Leaves own r r') (h' : Leaves own' r' r'') : Leaves (own ++ own') r r'' where
  functions := h'.functions.trans h.functions
  depth := h'.depth.trans h.depth
  around := h'.around.trans h.around
  kept x b hb := h'.kept x b (h.kept x b hb)
  gained x hx := by
    rw [List.mem_append, not_or] at hx
    rw [h'.gained x hx.2, h.gained x hx.1]

theorem mono (h : Leaves own r r') (hown : own ⊆ own') : Leaves own' r r' where
  functions := h.functions
  depth := h.depth
  around := h.around
  kept := h.kept
  gained x hx := h.gained x fun hmem => hx (hown hmem)

/-- A declaration adds its name, which was free. -/
theorem declaring {s : Symbol} (h : r.scopes.innermostContains s.name = false) :
    Leaves [s.name] r (r.declaring s) where
  functions := rfl
  depth := r.scopes.depth_add _ _
  around := (r.scopes.innermost_add _ _).2
  kept x b hb := by
    have hne : s.name ≠ x := by
      rintro rfl
      rw [Scopes.innermostContains, hb] at h
      cases h
    rw [Resolver.declaring, (r.scopes.innermost_add _ _).1, Scope.get?_insert, if_neg hne, hb]
  gained x hx := by
    have hne : s.name ≠ x := fun h => hx (List.mem_singleton.mpr h.symm)
    rw [Resolver.declaring, (r.scopes.innermost_add _ _).1, Scope.get?_insert, if_neg hne]

/-- A scope that is closed again has changed nothing. -/
theorem closed (h : Leaves own r.opened r') : Leaves [] r r'.closed := by
  have hscopes : r'.closed.scopes = r.scopes := Scopes.closeScope_of_tail h.around
  refine ⟨h.functions, ?_, ?_, fun x b hb => ?_, fun x _ => ?_⟩
  · rw [hscopes]
  · rw [hscopes]
  · rw [hscopes, hb]
  · rw [hscopes]

/-- Nor has a function that is left again. -/
theorem left {s : Symbol} (h : Leaves own (r.entering s) r') : Leaves own r r'.leaving where
  functions := congrArg List.tail h.functions
  depth := h.depth
  around := h.around
  kept := h.kept
  gained := h.gained

/-- Every other name means what it meant before. -/
theorem get?_eq (h : Leaves own r r') {x : String} (hx : x ∉ own) :
    r'.scopes.get? x = r.scopes.get? x := by
  rw [Scopes.get?_of_toList r'.scopes.innermost_eq_head, Scopes.get?_of_toList r.scopes.innermost_eq_head,
    h.gained x hx, h.around]

end Leaves

/-! ## Parts of resolution -/

/-- The part leaves nothing behind but names of `own`, whether it succeeds or not. -/
def Tidy (f : Resolve α) (own : List String) : Prop := ∀ r, Leaves own r (stateAfter f r)

namespace Tidy

variable {f : Resolve α} {k : α → Resolve β}

theorem pure (a : α) : Tidy (pure a) [] := fun r => .refl r

theorem bind (h : Tidy f own) (hk : ∀ a, Tidy (k a) own') : Tidy (f >>= k) (own ++ own') := by
  intro r
  have hf := h r
  unfold stateAfter at hf ⊢
  cases hr : f r with
  | ok a r' =>
    rw [hr] at hf
    rw [bind_ok hr]
    exact hf.trans (hk a r')
  | error e r' =>
    -- what follows is not reached
    rw [hr] at hf
    rw [bind_fails hr]
    exact hf.mono (List.subset_append_left own own')

/-- The result is only put together. -/
theorem map {g : α → β} (h : Tidy f own) : Tidy (f >>= fun a => Pure.pure (g a)) own := by
  have hbind := h.bind fun a => Tidy.pure (g a)
  rwa [List.append_nil] at hbind

theorem reference (x : String) : Tidy (reference x) [] := by
  intro r
  unfold stateAfter
  rcases reference_cases x r with ⟨b, -, h⟩ | ⟨e, h⟩
  · rw [h]
    exact .refl r
  · rw [h]
    exact .refl r

theorem declare (x : String) : Tidy (declare x) [x] := by
  intro r
  unfold stateAfter
  rcases declare_cases x r with ⟨hfree, h⟩ | ⟨e, h⟩
  · rw [h]
    exact Leaves.declaring (s := ⟨x, r.nextId⟩) hfree
  · rw [h]
    exact .refl r

/-- Whatever is declared in a scope of its own is gone. -/
theorem inScope (h : Tidy f own) : Tidy (inScope f) [] := by
  intro r
  have hopened := h r.opened
  unfold stateAfter at hopened ⊢
  cases hr : f r.opened with
  | ok a r' =>
    rw [hr] at hopened
    rw [inScope_ok hr]
    exact hopened.closed
  | error e r' =>
    rw [hr] at hopened
    rw [inScope_fails hr]
    exact hopened.closed

theorem inFunction {s : Symbol} (h : Tidy f own) : Tidy (inFunction s f) own := by
  intro r
  have hentered := h (r.entering s)
  unfold stateAfter at hentered ⊢
  cases hr : f (r.entering s) with
  | ok a r' =>
    rw [hr] at hentered
    rw [inFunction_ok hr]
    exact hentered.left
  | error e r' =>
    rw [hr] at hentered
    rw [inFunction_fails hr]
    exact hentered.left

end Tidy

/-- **Along an outline**: nothing is left behind but the names that it declares in the scope at hand. -/
theorem tidy_outline (o : Outline String) : Tidy o.resolve o.locals := by
  induction o with
  | done => exact .pure _
  | refer x o ih => exact Tidy.bind (.reference x) fun s => ih.map
  | declare x o ih => exact Tidy.bind (.declare x) fun s => ih.map
  | scope body o hbody ih => exact Tidy.bind hbody.inScope fun t => ih.map
  | function x body o hbody ih =>
    exact Tidy.bind (.declare x) fun s => Tidy.bind hbody.inScope.inFunction fun t => ih.map

end Resolver

/-! ## Trees -/

section Trees

open Resolver

/-- What is resolved before its result is put together leaves the same state. -/
theorem Resolver.stateAfter_bind_pure {α β : Type} (f : Resolve α) (g : α → β) (r : Resolver) :
    stateAfter (f >>= fun a => pure (g a)) r = stateAfter f r := by
  unfold stateAfter
  cases hr : f r with
  | ok a r' =>
    rw [bind_ok hr]
    rfl
  | error e r' => rw [bind_fails hr]

theorem Expr.tidy_resolve (e : Expr String) : Tidy e.resolve e.outline.locals := by
  intro r
  have h := tidy_outline e.outline r
  rwa [e.resolve_outline, stateAfter_bind_pure] at h

theorem Expr.tidy_resolveAll (tree : List (Expr String)) :
    Tidy (resolveAll tree) (outlineOfAll tree).locals := by
  intro r
  have h := tidy_outline (outlineOfAll tree) r
  rwa [resolve_outlineOfAll, stateAfter_bind_pure] at h

/-- **Resolution restores its context.** Whatever the state is in which it begins, and whether it succeeds
or not, resolution of an expression leaves the functions, the number of scopes and all scopes but the
innermost one as they were; the innermost one keeps its entries and gains only names that the expression
declares directly in it. So it is for programs, and every name that a program does not declare at its top
level means afterwards what it meant before. -/
theorem resolve_restores (r : Resolver) :
    (∀ e : Expr String, Leaves e.outline.locals r (stateAfter e.resolve r)) ∧
    ∀ tree : List (Expr String),
      Leaves (Expr.outlineOfAll tree).locals r (stateAfter (Expr.resolveAll tree) r) ∧
      ∀ x, x ∉ (Expr.outlineOfAll tree).locals →
        (stateAfter (Expr.resolveAll tree) r).scopes.get? x = r.scopes.get? x := by
  refine ⟨fun e => e.tidy_resolve r, fun tree => ?_⟩
  have h := Expr.tidy_resolveAll tree r
  exact ⟨h, fun x hx => h.get?_eq hx⟩

end Trees

end ExactScript
