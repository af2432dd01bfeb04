import ExactScript.Expr
import ExactScript.Scopes

/-!
# Resolution of names

Replaces every name of a tree by a symbol. A declaration gets a fresh id; a reference gets the id of the
innermost visible declaration of its name. Storage is by id, so a shadowed variable keeps its own.

Calls do not capture the variables around a function. A reference inside a function may therefore target
what is declared outside of every function, what the function itself declares, and the function's own
name, but not what belongs to another function.

## Contents
* `ResolveError`, `Binding`, `Resolver`;
* `declare`, `reference`, `inScope`;
* `Expr.resolve`, and `resolve` for a whole program.
-/

namespace ExactScript

inductive ResolveError where
  | duplicateDeclaration (name : String)
  | unboundName (name : String)
  /-- Function `function` refers to `name`, which another function declares. -/
  | foreignLocal (function name : String)
  deriving DecidableEq

namespace ResolveError

def message : ResolveError → String
  | duplicateDeclaration name => name ++ " was already declared in this scope"
  | unboundName name => "Unbound name: " ++ name
  | foreignLocal function name =>
    "Unsupported construct: function " ++ function ++ " refers to " ++ name ++
      ", which is local to another function"

end ResolveError

/-- What a name is bound to. -/
structure Binding where
  symbol : Symbol
  /-- The function that declares the name, if any. -/
  owner : Option Nat

structure Resolver where
  scopes : Scopes String Binding := .empty
  /-- The id of the next declaration. -/
  nextId : Nat := 0
  /-- The functions around the current position, the innermost first. -/
  functions : List Symbol := []

namespace Resolver

instance : Inhabited Resolver := ⟨{}⟩

/-- Resolution of a part of a tree. A failure carries the state that is left. -/
abbrev Resolve (α : Type) := EStateM ResolveError Resolver α

variable {α : Type}

/-! ## Declarations and references -/

/-- Declares a name in the innermost scope. -/
def declare (name : String) : Resolve Symbol := fun r =>
  if r.scopes.innermostContains name then .error (.duplicateDeclaration name) r
  else
    let symbol : Symbol := ⟨name, r.nextId⟩
    let binding : Binding := ⟨symbol, r.functions.head?.map Symbol.id⟩
    .ok symbol { r with scopes := r.scopes.add name binding, nextId := r.nextId + 1 }

def declareAll : List String → Resolve (List Symbol)
  | [] => return []
  | x :: xs => do
    let s ← declare x
    return s :: (← declareAll xs)

/-- Whether a binding may be used inside the given function. -/
def usableIn (b : Binding) (function : Option Symbol) : Bool :=
  match b.owner, function with
  | some owner, some f => owner == f.id || b.symbol.id == f.id
  | _, _ => true

/-- The symbol that a name refers to. -/
def reference (name : String) : Resolve Symbol := fun r =>
  match r.scopes.get? name with
  | none => .error (.unboundName name) r
  | some b =>
    match r.functions with
    | [] => .ok b.symbol r
    | f :: _ => if usableIn b (some f) then .ok b.symbol r else .error (.foreignLocal f.name name) r

/-- Runs `f` in a new scope, which is closed again whether it succeeds or not. -/
def inScope (f : Resolve α) : Resolve α := fun r =>
  match f { r with scopes := r.scopes.openScope } with
  | .ok a r => .ok a { r with scopes := r.scopes.closeScope.2 }
  | .error e r => .error e { r with scopes := r.scopes.closeScope.2 }

/-- Runs `f` as the inside of function `s`. -/
def inFunction (s : Symbol) (f : Resolve α) : Resolve α := fun r =>
  match f { r with functions := s :: r.functions } with
  | .ok a r => .ok a { r with functions := r.functions.tail }
  | .error e r => .error e { r with functions := r.functions.tail }

end Resolver

/-! ## Trees -/

namespace Expr

open Resolver

mutual

/-- Replaces the names of a tree by symbols, in source order except that a declaration or assignment
resolves its value before its name, and a call its callee before its arguments. -/
def resolve : Expr String → Resolve (Expr Symbol)
  | literal l => return literal l
  | var x => return var (← reference x)
  | declare x value => do
    let value ← value.resolve
    return declare (← Resolver.declare x) value
  | assign x value => do
    let value ← value.resolve
    return assign (← reference x) value
  | letIn x value body => do
    let value ← value.resolve
    inScope do
      let x ← Resolver.declare x
      return letIn x value (← body.resolve)
  | unary op operand => return unary op (← operand.resolve)
  | binary op left right => return binary op (← left.resolve) (← right.resolve)
  | logical op left right => return logical op (← left.resolve) (← right.resolve)
  | block body => return block (← inScope (resolveAll body))
  | cond test yes no => do
    let test ← test.resolve
    let yes ← inScope (resolveAll yes)
    return cond test yes (← resolveAlternative no)
  | loop test body => return loop (← test.resolve) (← inScope (resolveAll body))
  | count x init test advance body => inScope do
    let init ← init.resolve
    let x ← Resolver.declare x
    let test ← test.resolve
    let advance ← advance.resolve
    return count x init test advance (← inScope (resolveAll body))
  | print args => return print (← resolveAll args)
  | list elems => return list (← resolveAll elems)
  | fill value size => return fill (← value.resolve) (← size.resolve)
  | map entries => return map (← resolveEntries entries)
  | query op target => return query op (← target.resolve)
  | update op target arg => return update op (← target.resolve) (← arg.resolve)
  | index target key => return index (← target.resolve) (← key.resolve)
  | put target key value => return put (← target.resolve) (← key.resolve) (← value.resolve)
  | concat parts => return concat (← resolveAll parts)
  | slice target start stop step => do
    let target ← target.resolve
    let start ← start.resolve
    let stop ← stop.resolve
    return slice target start stop (← resolveStep step)
  | function name params body ret => do
    let name ← Resolver.declare name
    inFunction name <| inScope do
      let params ← declareAll params
      let body ← resolveAll body
      return function name params body (← ret.resolve)
  | call callee args => do
    let callee ← reference callee
    return call callee (← resolveAll args)

def resolveAll : List (Expr String) → Resolve (List (Expr Symbol))
  | [] => return []
  | e :: es => do
    let e ← e.resolve
    return e :: (← resolveAll es)

def resolveAlternative : Option (List (Expr String)) → Resolve (Option (List (Expr Symbol)))
  | none => return none
  | some body => return some (← inScope (resolveAll body))

def resolveStep : Option (Expr String) → Resolve (Option (Expr Symbol))
  | none => return none
  | some step => return some (← step.resolve)

def resolveEntries : List (Expr String × Expr String) → Resolve (List (Expr Symbol × Expr Symbol))
  | [] => return []
  | (k, v) :: es => do
    let k ← k.resolve
    let v ← v.resolve
    return (k, v) :: (← resolveEntries es)

end

end Expr

/-- Resolves a whole program, with nothing declared around it. -/
def resolve (tree : List (Expr String)) : Except ResolveError (List (Expr Symbol)) :=
  match Expr.resolveAll tree {} with
  | .ok tree _ => .ok tree
  | .error e _ => .error e

end ExactScript
