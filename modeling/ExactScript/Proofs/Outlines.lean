import ExactScript.Expr

/-!
# Scopes, declarations and uses

What scoping makes of a tree, said without symbols and without states. The *outline* of a tree keeps where
names are declared and referred to, and where scopes and functions begin and end, in the order in which a
name becomes visible. Everything else is read off outlines: the scopes with the names that each declares,
and every use of a name with the declarations that are visible there.

## Contents
* `Outline`, and `Expr.outline`, one line for each construct;
* `Outline.locals`, `Outline.scopes`: the names that the scopes declare;
* `Context`, `Use`, `Outline.uses`: the declarations that are visible where a name is used;
* `Outline.LexicallyScoped`: no scope declares a name twice, and every use has a declaration it may use;
* `Expr.rename`, a change of the bindings of a tree.
-/

namespace ExactScript

/-- What a part of a tree declares and refers to, in order. -/
inductive Outline (β : Type) where
  | done
  | refer (x : β) (rest : Outline β)
  | declare (x : β) (rest : Outline β)
  /-- A scope of its own, which is over before the rest. -/
  | scope (body rest : Outline β)
  /-- The declaration of a function, with one scope for its parameters, its body and what it returns. -/
  | function (name : β) (body rest : Outline β)

namespace Outline

variable {β γ : Type}

def append : Outline β → Outline β → Outline β
  | done, p => p
  | refer x o, p => refer x (o.append p)
  | declare x o, p => declare x (o.append p)
  | scope body o, p => scope body (o.append p)
  | function name body o, p => function name body (o.append p)

instance : Append (Outline β) := ⟨append⟩

/-- Declares names one after the other. -/
def declareAll (xs : List β) (rest : Outline β) : Outline β := xs.foldr declare rest

def map (f : β → γ) : Outline β → Outline γ
  | done => done
  | refer x o => refer (f x) (o.map f)
  | declare x o => declare (f x) (o.map f)
  | scope body o => scope (body.map f) (o.map f)
  | function name body o => function (f name) (body.map f) (o.map f)

end Outline

/-! ## Trees -/

namespace Expr

variable {β γ : Type}

mutual

/-- The outline of a tree. A declared name is visible after the value that it gets, a function's name in
the function, and the counter of a loop from its test on. -/
def outline : Expr β → Outline β
  | literal _ => .done
  | var x => .refer x .done
  | declare x value => value.outline ++ .declare x .done
  | assign x value => value.outline ++ .refer x .done
  | letIn x value body => value.outline ++ .scope (.declare x body.outline) .done
  | unary _ operand => operand.outline
  | binary _ left right => left.outline ++ right.outline
  | logical _ left right => left.outline ++ right.outline
  | block body => .scope (outlineOfAll body) .done
  | cond test yes no => test.outline ++ .scope (outlineOfAll yes) (outlineOfAlternative no)
  | loop test body => test.outline ++ .scope (outlineOfAll body) .done
  | count x init test advance body =>
    .scope (init.outline ++ .declare x
      (test.outline ++ (advance.outline ++ .scope (outlineOfAll body) .done))) .done
  | print args => outlineOfAll args
  | list elems => outlineOfAll elems
  | fill value size => value.outline ++ size.outline
  | map entries => outlineOfEntries entries
  | query _ target => target.outline
  | update _ target arg => target.outline ++ arg.outline
  | index target key => target.outline ++ key.outline
  | put target key value => target.outline ++ (key.outline ++ value.outline)
  | concat parts => outlineOfAll parts
  | slice target start stop step =>
    target.outline ++ (start.outline ++ (stop.outline ++ outlineOfStep step))
  | function name params body ret =>
    .function name (.declareAll params (outlineOfAll body ++ ret.outline)) .done
  | call callee args => .refer callee (outlineOfAll args)

def outlineOfAll : List (Expr β) → Outline β
  | [] => .done
  | e :: es => e.outline ++ outlineOfAll es

def outlineOfAlternative : Option (List (Expr β)) → Outline β
  | none => .done
  | some body => .scope (outlineOfAll body) .done

def outlineOfStep : Option (Expr β) → Outline β
  | none => .done
  | some step => step.outline

def outlineOfEntries : List (Expr β × Expr β) → Outline β
  | [] => .done
  | (k, v) :: es => k.outline ++ (v.outline ++ outlineOfEntries es)

end

mutual

/-- The tree with other bindings at the same places. -/
def rename (f : β → γ) : Expr β → Expr γ
  | literal l => literal l
  | var x => var (f x)
  | declare x value => declare (f x) (value.rename f)
  | assign x value => assign (f x) (value.rename f)
  | letIn x value body => letIn (f x) (value.rename f) (body.rename f)
  | unary op operand => unary op (operand.rename f)
  | binary op left right => binary op (left.rename f) (right.rename f)
  | logical op left right => logical op (left.rename f) (right.rename f)
  | block body => block (renameAll f body)
  | cond test yes no => cond (test.rename f) (renameAll f yes) (renameAlternative f no)
  | loop test body => loop (test.rename f) (renameAll f body)
  | count x init test advance body =>
    count (f x) (init.rename f) (test.rename f) (advance.rename f) (renameAll f body)
  | print args => print (renameAll f args)
  | list elems => list (renameAll f elems)
  | fill value size => fill (value.rename f) (size.rename f)
  | map entries => map (renameEntries f entries)
  | query op target => query op (target.rename f)
  | update op target arg => update op (target.rename f) (arg.rename f)
  | index target key => index (target.rename f) (key.rename f)
  | put target key value => put (target.rename f) (key.rename f) (value.rename f)
  | concat parts => concat (renameAll f parts)
  | slice target start stop step =>
    slice (target.rename f) (start.rename f) (stop.rename f) (renameStep f step)
  | function name params body ret =>
    function (f name) (params.map f) (renameAll f body) (ret.rename f)
  | call callee args => call (f callee) (renameAll f args)

def renameAll (f : β → γ) : List (Expr β) → List (Expr γ)
  | [] => []
  | e :: es => e.rename f :: renameAll f es

def renameAlternative (f : β → γ) : Option (List (Expr β)) → Option (List (Expr γ))
  | none => none
  | some body => some (renameAll f body)

def renameStep (f : β → γ) : Option (Expr β) → Option (Expr γ)
  | none => none
  | some step => some (step.rename f)

def renameEntries (f : β → γ) : List (Expr β × Expr β) → List (Expr γ × Expr γ)
  | [] => []
  | (k, v) :: es => (k.rename f, v.rename f) :: renameEntries f es

end

end Expr

/-! ## Visible declarations -/

/-- What surrounds a position: the visible declarations, the latest first, each with the number of
functions around it, and the functions around the position, the innermost first. -/
structure Context (β : Type) where
  visible : List (Nat × β) := []
  around : List β := []

/-- A name at a place where it is used. -/
structure Use (β : Type) where
  target : β
  context : Context β

namespace Context

variable {β γ : Type}

def declaring (c : Context β) (x : β) : Context β :=
  { c with visible := (c.around.length, x) :: c.visible }

def entering (c : Context β) (f : β) : Context β := { c with around := f :: c.around }

/-- The innermost visible declaration of a name. -/
def declaration? (name : β → String) (c : Context β) (x : String) : Option (Nat × β) :=
  c.visible.find? fun d => name d.2 = x

def map (f : β → γ) (c : Context β) : Context γ :=
  ⟨c.visible.map (Prod.map id f), c.around.map f⟩

end Context

namespace Outline

variable {β : Type}

/-- The names that are declared in the scope at hand, in order. -/
def locals : Outline β → List β
  | done => []
  | refer _ o => o.locals
  | declare x o => x :: o.locals
  | scope _ o => o.locals
  | function name _ o => name :: o.locals

/-- The scopes inside of the one at hand, each as the names that it declares. -/
def scopes : Outline β → List (List β)
  | done => []
  | refer _ o => o.scopes
  | declare _ o => o.scopes
  | scope body o => body.locals :: body.scopes ++ o.scopes
  | function _ body o => body.locals :: body.scopes ++ o.scopes

/-- Every use of a name. What a scope declares is visible to its end, what stands before the scope is
visible in it. -/
def uses (c : Context β) : Outline β → List (Use β)
  | done => []
  | refer x o => ⟨x, c⟩ :: o.uses c
  | declare x o => o.uses (c.declaring x)
  | scope body o => body.uses c ++ o.uses c
  | function name body o => body.uses ((c.declaring name).entering name) ++ o.uses (c.declaring name)

end Outline

/-! ## Lexical scoping -/

namespace Use

/-- The innermost visible declaration of the name that is used. -/
def declaration? {β : Type} (name : β → String) (u : Use β) : Option (Nat × β) :=
  u.context.declaration? name (name u.target)

/-- The declaration belongs to another of the functions around the use: it is neither outside of every
function nor in the innermost one. -/
def Foreign (u : Use String) (d : Nat × String) : Prop := d.1 ≠ 0 ∧ d.1 ≠ u.context.around.length

/-- The name is the one of the function at hand. -/
def OwnName (u : Use String) : Prop := u.context.around.head? = some u.target

end Use

/-- The rules of scoping. -/
structure Outline.LexicallyScoped (o : Outline String) : Prop where
  distinct : ∀ names ∈ o.locals :: o.scopes, names.Nodup
  visible : ∀ u ∈ o.uses {}, (u.declaration? id).isSome
  owned : ∀ u ∈ o.uses {}, ∀ d ∈ u.declaration? id, u.Foreign d → u.OwnName

/-! ## Sequences of outlines -/

namespace Outline

variable {β γ : Type}

@[simp] theorem done_append (o : Outline β) : done ++ o = o := rfl

@[simp] theorem refer_append (x : β) (o p : Outline β) : refer x o ++ p = refer x (o ++ p) := rfl

@[simp] theorem declare_append (x : β) (o p : Outline β) : declare x o ++ p = declare x (o ++ p) := rfl

@[simp] theorem scope_append (body o p : Outline β) : scope body o ++ p = scope body (o ++ p) := rfl

@[simp] theorem function_append (x : β) (body o p : Outline β) :
    function x body o ++ p = function x body (o ++ p) := rfl

@[simp] theorem append_done (o : Outline β) : o ++ done = o := by
  induction o with
  | done => rfl
  | refer x o ih => rw [refer_append, ih]
  | declare x o ih => rw [declare_append, ih]
  | scope body o _ ih => rw [scope_append, ih]
  | function x body o _ ih => rw [function_append, ih]

theorem declareAll_append (xs : List β) (o p : Outline β) :
    declareAll xs o ++ p = declareAll xs (o ++ p) := by
  induction xs with
  | nil => rfl
  | cons x xs ih => exact congrArg (declare x) ih

theorem map_append (f : β → γ) (o p : Outline β) : (o ++ p).map f = o.map f ++ p.map f := by
  induction o with
  | done => rfl
  | refer x o ih => simp [map, ih]
  | declare x o ih => simp [map, ih]
  | scope body o _ ih => simp [map, ih]
  | function x body o _ ih => simp [map, ih]

theorem locals_append (o p : Outline β) : (o ++ p).locals = o.locals ++ p.locals := by
  induction o with
  | done => rfl
  | refer x o ih => simp [locals, ih]
  | declare x o ih => simp [locals, ih]
  | scope body o _ ih => simp [locals, ih]
  | function x body o _ ih => simp [locals, ih]

theorem scopes_append (o p : Outline β) : (o ++ p).scopes = o.scopes ++ p.scopes := by
  induction o with
  | done => rfl
  | refer x o ih => simp [scopes, ih]
  | declare x o ih => simp [scopes, ih]
  | scope body o _ ih => simp [scopes, ih]
  | function x body o _ ih => simp [scopes, ih]

theorem locals_map (f : β → γ) (o : Outline β) : (o.map f).locals = o.locals.map f := by
  induction o with
  | done => rfl
  | refer x o ih => exact ih
  | declare x o ih => exact congrArg (f x :: ·) ih
  | scope body o _ ih => exact ih
  | function x body o _ ih => exact congrArg (f x :: ·) ih

end Outline

end ExactScript
