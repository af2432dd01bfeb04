import ExactScript.Proofs.Outlines
import ExactScript.Proofs.Scoping

/-!
# Resolution sees the outline only

What resolution does to its state depends on the outline of a tree, and on nothing else: names are declared
and looked up in the order of the outline, and scopes and functions begin and end where it says. So here is
the resolution of an outline alone, and the proof that a tree is resolved as its outline is, be it with
success or with an error. Whatever is claimed of states can then be proved along outlines, which have five
constructors.

## Contents
* `Outline.resolve`, resolution of an outline;
* `Resolver.reference_cases` and others, the outcomes of one step;
* `Expr.resolve_outline`, `Expr.resolve_outlineOfAll`: the trees.
-/

namespace ExactScript

open Resolver in
/-- Resolves the names of an outline, in order. -/
def Outline.resolve : Outline String → Resolve (Outline Symbol)
  | done => return done
  | refer x o => do
    let s ← reference x
    return refer s (← o.resolve)
  | declare x o => do
    let s ← Resolver.declare x
    return declare s (← o.resolve)
  | scope body o => do
    let body ← inScope body.resolve
    return scope body (← o.resolve)
  | function x body o => do
    let s ← Resolver.declare x
    let body ← inFunction s (inScope body.resolve)
    return function s body (← o.resolve)

/-- Outlines in sequence are resolved in sequence. -/
theorem Outline.resolve_append (o p : Outline String) :
    (o ++ p).resolve = o.resolve >>= fun t => p.resolve >>= fun u => pure (t ++ u) := by
  induction o with
  | done => exact (bind_pure _).symm
  | refer x o ih => simp only [refer_append, resolve, ih, bind_assoc, pure_bind]
  | declare x o ih => simp only [declare_append, resolve, ih, bind_assoc, pure_bind]
  | scope body o _ ih => simp only [scope_append, resolve, ih, bind_assoc, pure_bind]
  | function x body o _ ih => simp only [function_append, resolve, ih, bind_assoc, pure_bind]

namespace Resolver

variable {α β : Type} {r r' : Resolver} {e : ResolveError}

/-! ## One step -/

/-- The state after its innermost scope is closed. -/
def closed (r : Resolver) : Resolver := { r with scopes := r.scopes.closeScope.2 }

/-- The state after the function at hand is left. -/
def leaving (r : Resolver) : Resolver := { r with functions := r.functions.tail }

theorem bind_ok {f : Resolve α} {k : α → Resolve β} {a : α} (h : f r = .ok a r') :
    (f >>= k) r = k a r' := by
  show EStateM.bind f k r = _
  rw [EStateM.bind, h]

theorem bind_fails {f : Resolve α} {k : α → Resolve β} (h : f r = .error e r') :
    (f >>= k) r = .error e r' := by
  show EStateM.bind f k r = _
  rw [EStateM.bind, h]

theorem inScope_ok {f : Resolve α} {a : α} (h : f r.opened = .ok a r') :
    inScope f r = .ok a r'.closed := by
  rw [Resolver.opened] at h
  rw [inScope, h]
  rfl

theorem inScope_fails {f : Resolve α} (h : f r.opened = .error e r') :
    inScope f r = .error e r'.closed := by
  rw [Resolver.opened] at h
  rw [inScope, h]
  rfl

theorem inFunction_ok {f : Resolve α} {s : Symbol} {a : α} (h : f (r.entering s) = .ok a r') :
    inFunction s f r = .ok a r'.leaving := by
  rw [Resolver.entering] at h
  rw [inFunction, h]
  rfl

theorem inFunction_fails {f : Resolve α} {s : Symbol} (h : f (r.entering s) = .error e r') :
    inFunction s f r = .error e r'.leaving := by
  rw [Resolver.entering] at h
  rw [inFunction, h]
  rfl

/-- A reference looks and changes nothing. -/
theorem reference_cases (x : String) (r : Resolver) :
    (∃ b, r.scopes.get? x = some b ∧ reference x r = .ok b.symbol r) ∨
      ∃ e, reference x r = .error e r := by
  unfold reference
  split
  · exact .inr ⟨_, rfl⟩
  · next b hb =>
    split
    · exact .inl ⟨b, hb, rfl⟩
    · split
      · exact .inl ⟨b, hb, rfl⟩
      · exact .inr ⟨_, rfl⟩

/-- A declaration takes the next id, unless the innermost scope has the name. -/
theorem declare_cases (x : String) (r : Resolver) :
    (r.scopes.innermostContains x = false ∧
      declare x r = .ok ⟨x, r.nextId⟩ (r.declaring ⟨x, r.nextId⟩)) ∨
      ∃ e, declare x r = .error e r := by
  cases hx : r.scopes.innermostContains x with
  | true =>
    refine .inr ⟨.duplicateDeclaration x, ?_⟩
    rw [declare, if_pos hx]
  | false =>
    refine .inl ⟨rfl, ?_⟩
    rw [declare, if_neg (by simp [hx])]
    rfl

/-! ## Results -/

/-- A result can be put together before the scope is closed. -/
theorem inScope_bind_pure (f : Resolve α) (g : α → β) :
    (inScope f >>= fun a => pure (g a)) = inScope (f >>= fun a => pure (g a)) := by
  funext r
  show EStateM.bind (inScope f) (fun a => pure (g a)) r = inScope (EStateM.bind f fun a => pure (g a)) r
  unfold inScope EStateM.bind
  beta_reduce
  cases f { r with scopes := r.scopes.openScope } with
  | ok a r' => rfl
  | error e r' => rfl

theorem inFunction_bind_pure (s : Symbol) (f : Resolve α) (g : α → β) :
    (inFunction s f >>= fun a => pure (g a)) = inFunction s (f >>= fun a => pure (g a)) := by
  funext r
  show EStateM.bind (inFunction s f) (fun a => pure (g a)) r =
    inFunction s (EStateM.bind f fun a => pure (g a)) r
  unfold inFunction EStateM.bind
  beta_reduce
  cases f { r with functions := s :: r.functions } with
  | ok a r' => rfl
  | error e r' => rfl

theorem resolve_declareAll (xs : List String) (o : Outline String) :
    (Outline.declareAll xs o).resolve =
      declareAll xs >>= fun ss => o.resolve >>= fun t => pure (.declareAll ss t) := by
  induction xs with
  | nil => exact (bind_pure _).symm
  | cons x xs ih =>
    show (Outline.declare x (Outline.declareAll xs o)).resolve = _
    simp only [Outline.resolve, declareAll, ih, bind_assoc, pure_bind]
    rfl

end Resolver

namespace Expr

open Resolver

section Lists

theorem resolve_outlineOfAll_of {es : List (Expr String)}
    (h : ∀ e ∈ es, e.outline.resolve = e.resolve >>= fun t => pure t.outline) :
    (outlineOfAll es).resolve = resolveAll es >>= fun ts => pure (outlineOfAll ts) := by
  induction es with
  | nil => rfl
  | cons e es ih =>
    obtain ⟨he, hes⟩ := List.forall_mem_cons.mp h
    simp only [outlineOfAll, resolveAll, Outline.resolve_append, he, ih hes, bind_assoc, pure_bind]

theorem resolve_outlineOfAlternative {no : Option (List (Expr String))}
    (h : ∀ body ∈ no, ∀ e ∈ body, e.outline.resolve = e.resolve >>= fun t => pure t.outline) :
    (outlineOfAlternative no).resolve =
      resolveAlternative no >>= fun no => pure (outlineOfAlternative no) := by
  cases no with
  | none => rfl
  | some body =>
    have hbody := resolve_outlineOfAll_of (h body rfl)
    simp only [outlineOfAlternative, resolveAlternative, Outline.resolve, hbody, inScope_bind_pure,
      bind_assoc, pure_bind]

theorem resolve_outlineOfStep {step : Option (Expr String)}
    (h : ∀ e ∈ step, e.outline.resolve = e.resolve >>= fun t => pure t.outline) :
    (outlineOfStep step).resolve = resolveStep step >>= fun step => pure (outlineOfStep step) := by
  cases step with
  | none => rfl
  | some e => simp only [outlineOfStep, resolveStep, h e rfl, bind_assoc, pure_bind]

theorem resolve_outlineOfEntries {es : List (Expr String × Expr String)}
    (h : ∀ kv ∈ es, kv.1.outline.resolve = (kv.1.resolve >>= fun t => pure t.outline) ∧
      kv.2.outline.resolve = kv.2.resolve >>= fun t => pure t.outline) :
    (outlineOfEntries es).resolve = resolveEntries es >>= fun es => pure (outlineOfEntries es) := by
  induction es with
  | nil => rfl
  | cons kv es ih =>
    obtain ⟨⟨hk, hv⟩, hes⟩ := List.forall_mem_cons.mp h
    simp only [outlineOfEntries, resolveEntries, Outline.resolve_append, hk, hv, ih hes, bind_assoc,
      pure_bind]

end Lists

/-- **A tree is resolved as its outline is.** Both come to the same end, in the same state. -/
theorem resolve_outline (e : Expr String) : e.outline.resolve = e.resolve >>= fun t => pure t.outline := by
  induction e using induct with
  | literal l => rfl
  | var x => simp only [outline, resolve, Outline.resolve, bind_assoc, pure_bind]
  | declare x value hv =>
    simp only [outline, resolve, Outline.resolve_append, Outline.resolve, hv, bind_assoc, pure_bind]
  | assign x value hv =>
    simp only [outline, resolve, Outline.resolve_append, Outline.resolve, hv, bind_assoc, pure_bind]
  | letIn x value body hv hb =>
    simp only [outline, resolve, Outline.resolve_append, Outline.resolve, hv, hb, inScope_bind_pure,
      bind_assoc, pure_bind]
  | unary op operand ho => simp only [outline, resolve, ho, bind_assoc, pure_bind]
  | binary op left right hl hr =>
    simp only [outline, resolve, Outline.resolve_append, hl, hr, bind_assoc, pure_bind]
  | logical op left right hl hr =>
    simp only [outline, resolve, Outline.resolve_append, hl, hr, bind_assoc, pure_bind]
  | block body hb =>
    have hbody := resolve_outlineOfAll_of hb
    simp only [outline, resolve, Outline.resolve, hbody, inScope_bind_pure, bind_assoc, pure_bind]
  | cond test yes no ht hy hn =>
    have hyes := resolve_outlineOfAll_of hy
    have hno := resolve_outlineOfAlternative hn
    simp only [outline, resolve, Outline.resolve_append, Outline.resolve, ht, hyes, hno, ← inScope_bind_pure,
      bind_assoc, pure_bind]
  | loop test body ht hb =>
    have hbody := resolve_outlineOfAll_of hb
    simp only [outline, resolve, Outline.resolve_append, Outline.resolve, ht, hbody, inScope_bind_pure,
      bind_assoc, pure_bind]
  | count x init test advance body hi ht ha hb =>
    have hbody := resolve_outlineOfAll_of hb
    simp only [outline, resolve, Outline.resolve_append, Outline.resolve, hi, ht, ha, hbody,
      inScope_bind_pure, bind_assoc, pure_bind]
  | print args ha => simp only [outline, resolve, resolve_outlineOfAll_of ha, bind_assoc, pure_bind]
  | list elems he => simp only [outline, resolve, resolve_outlineOfAll_of he, bind_assoc, pure_bind]
  | fill value size hv hs =>
    simp only [outline, resolve, Outline.resolve_append, hv, hs, bind_assoc, pure_bind]
  | map entries he => simp only [outline, resolve, resolve_outlineOfEntries he, bind_assoc, pure_bind]
  | query op target ht => simp only [outline, resolve, ht, bind_assoc, pure_bind]
  | update op target arg ht ha =>
    simp only [outline, resolve, Outline.resolve_append, ht, ha, bind_assoc, pure_bind]
  | index target key ht hk =>
    simp only [outline, resolve, Outline.resolve_append, ht, hk, bind_assoc, pure_bind]
  | put target key value ht hk hv =>
    simp only [outline, resolve, Outline.resolve_append, ht, hk, hv, bind_assoc, pure_bind]
  | concat parts hp => simp only [outline, resolve, resolve_outlineOfAll_of hp, bind_assoc, pure_bind]
  | slice target start stop step ht hs hp hst =>
    have hstep := resolve_outlineOfStep hst
    simp only [outline, resolve, Outline.resolve_append, ht, hs, hp, hstep, bind_assoc, pure_bind]
  | function name params body ret hb hr =>
    have hbody := resolve_outlineOfAll_of hb
    simp only [outline, resolve, Outline.resolve, resolve_declareAll, Outline.resolve_append, hbody, hr,
      inScope_bind_pure, inFunction_bind_pure, bind_assoc, pure_bind]
  | call callee args ha =>
    simp only [outline, resolve, Outline.resolve, resolve_outlineOfAll_of ha, bind_assoc, pure_bind]

/-- The same of many trees. -/
theorem resolve_outlineOfAll (es : List (Expr String)) :
    (outlineOfAll es).resolve = resolveAll es >>= fun ts => pure (outlineOfAll ts) :=
  resolve_outlineOfAll_of fun e _ => e.resolve_outline

end Expr

end ExactScript
