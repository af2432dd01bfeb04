import Mathlib.Logic.Function.Basic
import ExactScript.Proofs.Outlines
import ExactScript.Proofs.Trees
import ExactScript.Script

/-!
# Other names

Resolution and compilation use names for one thing only, to tell whether two of them are the same. So a tree
in which all names are replaced, different ones by different ones, takes the same way through both: every
state on it is the one of the original tree with the names replaced, and so is the result.

## Contents
* `rename` for symbols, errors, states of the resolver, code under construction and programs;
* `Scopes.map`, and the operations on scopes;
* `Resolver.Matches` and its rules, `Expr.matches_resolve`;
* `Assembly.Mirrors` and its rules, `Expr.mirrors_emit`;
* `compileNames`, and `compileNames_rename`, the theorem.
-/

namespace ExactScript

/-! ## Replacement -/

def Symbol.rename (f : String → String) (s : Symbol) : Symbol := { s with name := f s.name }

def Binding.rename (f : String → String) (b : Binding) : Binding := { b with symbol := b.symbol.rename f }

/-- The error says the same about the new names. -/
def ResolveError.rename (f : String → String) : ResolveError → ResolveError
  | duplicateDeclaration name => duplicateDeclaration (f name)
  | unboundName name => unboundName (f name)
  | foreignLocal function name => foreignLocal (f function) (f name)

/-- What keeps a tree with names from becoming a program, with other names. Errors of the compiler mention
no names. -/
def ScriptError.rename (f : String → String) : ScriptError → ScriptError
  | resolve e => resolve (e.rename f)
  | e => e

/-- The same ids with other values. -/
def IdMap.map {α β : Type} (g : α → β) (m : IdMap α) : IdMap β where
  entries := m.entries.map fun e => (e.1, g e.2)
  ascending := List.pairwise_map.mpr m.ascending

/-- The same instructions, with other names for messages and listings. -/
def Program.rename (f : String → String) (p : Program) : Program := { p with names := p.names.map f }

def Assembly.rename (f : String → String) (a : Assembly) : Assembly := { a with names := a.names.map f }

/-- Other keys and values at the same places. -/
def Scopes.map {κ κ' ν ν' : Type} (f : κ → κ') (g : ν → ν') (s : Scopes κ ν) : Scopes κ' ν' where
  inner := s.inner.map (List.map (Prod.map f g))
  outermost := s.outermost.map (Prod.map f g)

def Resolver.rename (f : String → String) (r : Resolver) : Resolver where
  scopes := r.scopes.map f (Binding.rename f)
  nextId := r.nextId
  functions := r.functions.map (Symbol.rename f)

/-! ## Scopes -/

section Scopes

variable {κ κ' ν ν' : Type} [DecidableEq κ] [DecidableEq κ'] {f : κ → κ'} {g : ν → ν'}

namespace Scope

theorem get?_map (hf : f.Injective) (s : Scope κ ν) (k : κ) :
    Scope.get? (s.map (Prod.map f g)) (f k) = (s.get? k).map g := by
  induction s with
  | nil => rfl
  | cons e s ih =>
    obtain ⟨j, v⟩ := e
    simp only [List.map_cons, Prod.map_apply, get?, hf.eq_iff, ih]
    split <;> rfl

theorem insert_map (hf : f.Injective) (s : Scope κ ν) (k : κ) (v : ν) :
    Scope.insert (s.map (Prod.map f g)) (f k) (g v) = (s.insert k v).map (Prod.map f g) := by
  induction s with
  | nil => rfl
  | cons e s ih =>
    obtain ⟨j, w⟩ := e
    simp only [List.map_cons, Prod.map_apply, insert, hf.eq_iff, ih]
    split <;> rfl

end Scope

namespace Scopes

variable (s : Scopes κ ν)

omit [DecidableEq κ] [DecidableEq κ'] in
theorem innermost_map : (s.map f g).innermost = s.innermost.map (Prod.map f g) := by
  obtain ⟨inner, outermost⟩ := s
  cases inner <;> rfl

theorem innermostContains_map (hf : f.Injective) (k : κ) :
    (s.map f g).innermostContains (f k) = s.innermostContains k := by
  rw [innermostContains, innermost_map, Scope.get?_map hf, Option.isSome_map, innermostContains]

theorem add_map (hf : f.Injective) (k : κ) (v : ν) : (s.map f g).add (f k) (g v) = (s.add k v).map f g := by
  obtain ⟨inner, outermost⟩ := s
  cases inner <;> simp [map, add, Scope.insert_map hf]

theorem findWithDepth?_map (hf : f.Injective) (k : κ) (scopes : List (Scope κ ν)) :
    findWithDepth? (f k) (scopes.map (List.map (Prod.map f g))) =
      (findWithDepth? k scopes).map (Prod.map id g) := by
  induction scopes with
  | nil => rfl
  | cons scope outer ih =>
    rw [List.map_cons, findWithDepth?, Scope.get?_map hf, findWithDepth?]
    cases scope.get? k with
    | some v => simp
    | none => exact ih

theorem get?_map (hf : f.Injective) (k : κ) : (s.map f g).get? (f k) = (s.get? k).map g := by
  have htoList : (s.map f g).toList = s.toList.map (List.map (Prod.map f g)) := by simp [map, toList]
  rw [get?, getWithDepth?, htoList, findWithDepth?_map hf, get?, getWithDepth?, Option.map_map,
    Option.map_map]
  rfl

omit [DecidableEq κ] [DecidableEq κ'] in
theorem closeScope_map : (s.map f g).closeScope.2 = s.closeScope.2.map f g := by
  obtain ⟨inner, outermost⟩ := s
  cases inner <;> rfl

end Scopes

end Scopes

/-! ## Resolution -/

namespace Resolver

variable {f : String → String} {α α' β β' : Type}

/-- An outcome with other names: its value as `g` says, its state and its error renamed. -/
def renamed (f : String → String) (g : α → α') :
    EStateM.Result ResolveError Resolver α → EStateM.Result ResolveError Resolver α'
  | .ok a r => .ok (g a) (r.rename f)
  | .error e r => .error (e.rename f) (r.rename f)

/-- From a renamed state `y` comes to what `x` comes to, renamed. -/
def Matches (f : String → String) (g : α → α') (x : Resolve α) (y : Resolve α') : Prop :=
  ∀ r, y (r.rename f) = renamed f g (x r)

namespace Matches

variable {g : α → α'} {g' : β → β'} {x : Resolve α} {y : Resolve α'}

theorem pure {a : α} {a' : α'} (h : a' = g a) : Matches f g (pure a) (pure a') := by
  subst h
  exact fun r => rfl

theorem bind {k : α → Resolve β} {k' : α' → Resolve β'} (h : Matches f g x y)
    (hk : ∀ a, Matches f g' (k a) (k' (g a))) : Matches f g' (x >>= k) (y >>= k') := by
  intro r
  have hr := h r
  simp only [Bind.bind, EStateM.bind]
  cases hx : x r with
  | ok a r' =>
    rw [hx] at hr
    rw [hr]
    exact hk a r'
  | error e r' =>
    rw [hx] at hr
    rw [hr]
    rfl

theorem inScope (h : Matches f g x y) : Matches f g (inScope x) (inScope y) := by
  intro r
  let opened : Resolver := { r with scopes := r.scopes.openScope }
  have hr : y { r.rename f with scopes := (r.rename f).scopes.openScope } = renamed f g (x opened) := h opened
  simp only [Resolver.inScope, hr]
  cases x opened <;> simp [renamed, rename, Scopes.closeScope_map]

theorem inFunction {s : Symbol} (h : Matches f g x y) :
    Matches f g (inFunction s x) (inFunction (s.rename f) y) := by
  intro r
  let entered : Resolver := { r with functions := s :: r.functions }
  have hr : y { r.rename f with functions := s.rename f :: (r.rename f).functions } =
      renamed f g (x entered) := h entered
  simp only [Resolver.inFunction, hr]
  cases x entered <;> simp [renamed, rename]

variable (hf : f.Injective)
include hf

theorem declare (x : String) : Matches f (Symbol.rename f) (declare x) (declare (f x)) := by
  intro r
  have howner : (r.rename f).functions.head?.map Symbol.id = r.functions.head?.map Symbol.id := by
    cases hfunctions : r.functions <;> simp [rename, hfunctions, Symbol.rename]
  have hadd := r.scopes.add_map hf x (Binding.mk ⟨x, r.nextId⟩ (r.functions.head?.map Symbol.id))
    (g := Binding.rename f)
  have hcontains : (r.rename f).scopes.innermostContains (f x) = r.scopes.innermostContains x :=
    r.scopes.innermostContains_map hf x
  simp only [Resolver.declare, howner, hcontains]
  split
  · rfl
  · simp only [renamed, rename, ← hadd]
    rfl

theorem declareAll (xs : List String) :
    Matches f (List.map (Symbol.rename f)) (declareAll xs) (declareAll (xs.map f)) := by
  induction xs with
  | nil => exact .pure rfl
  | cons x xs ih => exact (declare hf x).bind fun s => ih.bind fun ss => .pure rfl

theorem reference (x : String) : Matches f (Symbol.rename f) (reference x) (reference (f x)) := by
  intro r
  have hget : (r.rename f).scopes.get? (f x) = (r.scopes.get? x).map (Binding.rename f) :=
    r.scopes.get?_map hf x
  simp only [Resolver.reference, hget]
  cases r.scopes.get? x with
  | none => rfl
  | some b =>
    cases hfunctions : r.functions with
    | nil => simp [rename, hfunctions, renamed, Binding.rename]
    | cons s rest =>
      have husable : usableIn (b.rename f) (some (s.rename f)) = usableIn b (some s) := by
        obtain ⟨symbol, owner⟩ := b
        cases owner <;> rfl
      simp only [rename, hfunctions, List.map_cons, Option.map_some, husable]
      split <;> simp [renamed, rename, hfunctions, Binding.rename, ResolveError.rename, Symbol.rename]

end Matches

end Resolver

namespace Expr

open Resolver

variable {f : String → String}

/-- Resolution of the renamed tree gives the renamed result. -/
def MatchesRename (f : String → String) (e : Expr String) : Prop :=
  Matches f (Expr.rename (Symbol.rename f)) e.resolve (e.rename f).resolve

section Lists

variable {es : List (Expr String)}

theorem matches_resolveAll (h : ∀ e ∈ es, MatchesRename f e) :
    Matches f (renameAll (Symbol.rename f)) (resolveAll es) (resolveAll (renameAll f es)) := by
  induction es with
  | nil => exact .pure rfl
  | cons e es ih =>
    obtain ⟨he, hes⟩ := List.forall_mem_cons.mp h
    exact he.bind fun e => (ih hes).bind fun es => .pure rfl

theorem matches_resolveAlternative {no : Option (List (Expr String))}
    (h : ∀ body ∈ no, ∀ e ∈ body, MatchesRename f e) :
    Matches f (renameAlternative (Symbol.rename f)) (resolveAlternative no)
      (resolveAlternative (renameAlternative f no)) := by
  cases no with
  | none => exact .pure rfl
  | some body => exact (matches_resolveAll (h body rfl)).inScope.bind fun es => .pure rfl

theorem matches_resolveStep {step : Option (Expr String)} (h : ∀ e ∈ step, MatchesRename f e) :
    Matches f (renameStep (Symbol.rename f)) (resolveStep step) (resolveStep (renameStep f step)) := by
  cases step with
  | none => exact .pure rfl
  | some e => exact (h e rfl).bind fun e => .pure rfl

theorem matches_resolveEntries {es : List (Expr String × Expr String)}
    (h : ∀ kv ∈ es, MatchesRename f kv.1 ∧ MatchesRename f kv.2) :
    Matches f (renameEntries (Symbol.rename f)) (resolveEntries es)
      (resolveEntries (renameEntries f es)) := by
  induction es with
  | nil => exact .pure rfl
  | cons kv es ih =>
    obtain ⟨⟨hk, hv⟩, hes⟩ := List.forall_mem_cons.mp h
    exact hk.bind fun k => hv.bind fun v => (ih hes).bind fun es => .pure rfl

end Lists

/-- **Resolution follows the replacement of names.** -/
theorem matches_resolve (hf : f.Injective) (e : Expr String) : MatchesRename f e := by
  have hdeclare := Matches.declare hf
  have hreference := Matches.reference hf
  induction e using induct with
  | literal l => exact .pure rfl
  | var x => exact (hreference x).bind fun s => .pure rfl
  | declare x value hv => exact hv.bind fun v => (hdeclare x).bind fun s => .pure rfl
  | assign x value hv => exact hv.bind fun v => (hreference x).bind fun s => .pure rfl
  | letIn x value body hv hb =>
    exact hv.bind fun v => .inScope ((hdeclare x).bind fun s => hb.bind fun e => .pure rfl)
  | unary op operand ho => exact ho.bind fun e => .pure rfl
  | binary op left right hl hr => exact hl.bind fun l => hr.bind fun r => .pure rfl
  | logical op left right hl hr => exact hl.bind fun l => hr.bind fun r => .pure rfl
  | block body hb => exact (matches_resolveAll hb).inScope.bind fun es => .pure rfl
  | cond test yes no ht hy hn =>
    exact ht.bind fun t => (matches_resolveAll hy).inScope.bind fun y =>
      (matches_resolveAlternative hn).bind fun n => .pure rfl
  | loop test body ht hb =>
    exact ht.bind fun t => (matches_resolveAll hb).inScope.bind fun es => .pure rfl
  | count x init test advance body hi ht ha hb =>
    exact .inScope (hi.bind fun i => (hdeclare x).bind fun s => ht.bind fun t => ha.bind fun a =>
      (matches_resolveAll hb).inScope.bind fun es => .pure rfl)
  | print args ha => exact (matches_resolveAll ha).bind fun es => .pure rfl
  | list elems he => exact (matches_resolveAll he).bind fun es => .pure rfl
  | fill value size hv hs => exact hv.bind fun v => hs.bind fun s => .pure rfl
  | map entries he => exact (matches_resolveEntries he).bind fun es => .pure rfl
  | query op target ht => exact ht.bind fun e => .pure rfl
  | update op target arg ht ha => exact ht.bind fun t => ha.bind fun a => .pure rfl
  | index target key ht hk => exact ht.bind fun t => hk.bind fun k => .pure rfl
  | put target key value ht hk hv => exact ht.bind fun t => hk.bind fun k => hv.bind fun v => .pure rfl
  | concat parts hp => exact (matches_resolveAll hp).bind fun es => .pure rfl
  | slice target start stop step ht hs hp hst =>
    exact ht.bind fun t => hs.bind fun s => hp.bind fun p =>
      (matches_resolveStep hst).bind fun st => .pure rfl
  | function name params body ret hb hr =>
    exact (hdeclare name).bind fun s => .inFunction (.inScope ((Matches.declareAll hf params).bind fun ss =>
      (matches_resolveAll hb).bind fun es => hr.bind fun e => .pure rfl))
  | call callee args ha =>
    exact (hreference callee).bind fun s => (matches_resolveAll ha).bind fun es => .pure rfl

end Expr

/-- So does resolution of a whole program. -/
theorem resolve_rename {f : String → String} (hf : f.Injective) (tree : List (Expr String)) :
    resolve (Expr.renameAll f tree) =
      ((resolve tree).map (Expr.renameAll (Symbol.rename f))).mapError (ResolveError.rename f) := by
  have hmatches : Resolver.Matches f (Expr.renameAll (Symbol.rename f)) (Expr.resolveAll tree)
      (Expr.resolveAll (Expr.renameAll f tree)) := Expr.matches_resolveAll fun e _ => Expr.matches_resolve hf e
  have hempty : Resolver.rename f {} = {} := rfl
  have h := hmatches {}
  rw [hempty] at h
  rw [resolve, h, resolve]
  cases Expr.resolveAll tree {} <;> rfl

/-! ## Compilation -/

namespace IdMap

variable {α β : Type} (g : α → β)

theorem find?_map (id : Nat) (es : List (Nat × α)) :
    find? id (es.map fun e => (e.1, g e.2)) = (find? id es).map g := by
  induction es with
  | nil => rfl
  | cons e es ih =>
    obtain ⟨i, v⟩ := e
    simp only [List.map_cons, find?, ih]
    split <;> rfl

theorem place_map (id : Nat) (v : α) (es : List (Nat × α)) :
    place id (g v) (es.map fun e => (e.1, g e.2)) = (place id v es).map fun e => (e.1, g e.2) := by
  induction es with
  | nil => rfl
  | cons e es ih =>
    obtain ⟨i, w⟩ := e
    simp only [List.map_cons, place, ih]
    split
    · rfl
    · split <;> rfl

theorem get?_map (m : IdMap α) (id : Nat) : (m.map g).get? id = (m.get? id).map g := find?_map g id m.entries

theorem contains_map (m : IdMap α) (id : Nat) : (m.map g).contains id = m.contains id := by
  rw [contains, get?_map, Option.isSome_map, contains]

theorem insert_map (m : IdMap α) (id : Nat) (v : α) : (m.map g).insert id (g v) = (m.insert id v).map g := by
  simp only [insert, map, place_map]

end IdMap

namespace Assembly

variable {f : String → String} {x y : Except CompileError Assembly}

theorem note_rename (a : Assembly) (s : Symbol) :
    (a.rename f).note (s.rename f) = (a.note s).rename f := by
  have hcontains : (a.rename f).names.contains (s.rename f).id = a.names.contains s.id :=
    IdMap.contains_map f a.names s.id
  rw [note, hcontains, note]
  split
  · rfl
  · simp only [rename, Symbol.rename, IdMap.insert_map]

theorem load_rename (a : Assembly) (s : Symbol) :
    (a.rename f).load (s.rename f) = (a.load s).rename f := by
  rw [load, note_rename]
  rfl

theorem store_rename (a : Assembly) (s : Symbol) :
    (a.rename f).store (s.rename f) = (a.store s).rename f := by
  rw [store, note_rename]
  rfl

theorem storeAll_rename (a : Assembly) (xs : List Symbol) :
    (a.rename f).storeAll (xs.map (Symbol.rename f)) = (a.storeAll xs).rename f := by
  induction xs generalizing a with
  | nil => rfl
  | cons s xs ih =>
    show ((a.rename f).store (s.rename f)).storeAll _ = _
    rw [store_rename, ih]
    rfl

theorem restoreInto_rename (a : Assembly) (target : Expr Symbol) :
    (a.rename f).restoreInto (target.rename (Symbol.rename f)) = (a.restoreInto target).rename f := by
  cases target with
  | var s => exact store_rename (a.emit .dup) s
  | _ => rfl

/-- `y` comes to what `x` comes to, with other names. -/
def Mirrors (f : String → String) (x y : Except CompileError Assembly) : Prop := y = x.map (rename f)

namespace Mirrors

theorem ok {a b : Assembly} (h : b = a.rename f) : Mirrors f (.ok a) (.ok b) := congrArg Except.ok h

theorem bind {k k' : Emitter} (h : Mirrors f x y) (hk : ∀ a, Mirrors f (k a) (k' (a.rename f))) :
    Mirrors f (x >>= k) (y >>= k') := by
  obtain rfl := h
  cases x with
  | ok a => exact hk a
  | error e => rfl

theorem place (a : Assembly) (l : Label) : Mirrors f (a.place l) ((a.rename f).place l) := by
  have hlabels : (a.rename f).labels = a.labels := rfl
  rw [Mirrors, Assembly.place, Assembly.place, hlabels]
  cases a.labels[l.index]? with
  | none => rfl
  | some target => cases target <;> rfl

/-- A loop of parts that mirror each other. -/
theorem emitLoop {test test' body body' : Emitter} (ht : ∀ a, Mirrors f (test a) (test' (a.rename f)))
    (hb : ∀ a, Mirrors f (body a) (body' (a.rename f))) (a : Assembly) :
    Mirrors f (emitLoop test body a) (emitLoop test' body' (a.rename f)) :=
  (place _ _).bind fun a => (ht a).bind fun _ => (hb _).bind fun _ => (place _ _).bind fun _ => .ok rfl

end Mirrors

end Assembly

namespace Expr

open Assembly

variable {f : String → String}

/-- The code of the renamed tree mirrors that of the tree, and so does its code as a target. -/
structure Mirrored (f : String → String) (e : Expr Symbol) : Prop where
  value : ∀ a, Mirrors f (e.emit a) ((e.rename (Symbol.rename f)).emit (a.rename f))
  target : ∀ {key key' value value' : Emitter}, (∀ a, Mirrors f (key a) (key' (a.rename f))) →
    (∀ a, Mirrors f (value a) (value' (a.rename f))) →
    ∀ a, Mirrors f (e.emitPut key value a) ((e.rename (Symbol.rename f)).emitPut key' value' (a.rename f))

section Lists

theorem length_renameAll {β γ : Type} (g : β → γ) (es : List (Expr β)) : (renameAll g es).length = es.length := by
  induction es with
  | nil => rfl
  | cons e es ih => exact congrArg (· + 1) ih

theorem length_renameEntries {β γ : Type} (g : β → γ) (es : List (Expr β × Expr β)) :
    (renameEntries g es).length = es.length := by
  induction es with
  | nil => rfl
  | cons e es ih => exact congrArg (· + 1) ih

variable {es : List (Expr Symbol)}

theorem mirrors_emitBlock (h : ∀ e ∈ es, Mirrored f e) (a : Assembly) :
    Mirrors f (emitBlock es a) (emitBlock (renameAll (Symbol.rename f) es) (a.rename f)) := by
  induction es generalizing a with
  | nil => exact .ok rfl
  | cons e es ih =>
    obtain ⟨he, hes⟩ := List.forall_mem_cons.mp h
    cases es with
    | nil => exact he.value a
    | cons e' es => exact (he.value a).bind fun a => ih hes _

theorem mirrors_emitAlternative {no : Option (List (Expr Symbol))}
    (h : ∀ body ∈ no, ∀ e ∈ body, Mirrored f e) (a : Assembly) :
    Mirrors f (emitAlternative no a) (emitAlternative (renameAlternative (Symbol.rename f) no) (a.rename f)) := by
  cases no with
  | none => exact .ok rfl
  | some body => exact mirrors_emitBlock (h body rfl) a

theorem mirrors_emitStep {step : Option (Expr Symbol)} (h : ∀ e ∈ step, Mirrored f e) (a : Assembly) :
    Mirrors f (emitStep step a) (emitStep (renameStep (Symbol.rename f) step) (a.rename f)) := by
  cases step with
  | none => exact .ok rfl
  | some e => exact (h e rfl).value a

theorem mirrors_emitStatements (h : ∀ e ∈ es, Mirrored f e) (a : Assembly) :
    Mirrors f (emitStatements es a) (emitStatements (renameAll (Symbol.rename f) es) (a.rename f)) := by
  induction es generalizing a with
  | nil => exact .ok rfl
  | cons e es ih =>
    obtain ⟨he, hes⟩ := List.forall_mem_cons.mp h
    exact (he.value a).bind fun a => ih hes _

theorem mirrors_emitAll (h : ∀ e ∈ es, Mirrored f e) (a : Assembly) :
    Mirrors f (emitAll es a) (emitAll (renameAll (Symbol.rename f) es) (a.rename f)) := by
  induction es generalizing a with
  | nil => exact .ok rfl
  | cons e es ih =>
    obtain ⟨he, hes⟩ := List.forall_mem_cons.mp h
    exact (he.value a).bind fun a => ih hes a

theorem mirrors_emitReversed (h : ∀ e ∈ es, Mirrored f e) (a : Assembly) :
    Mirrors f (emitReversed es a) (emitReversed (renameAll (Symbol.rename f) es) (a.rename f)) := by
  induction es with
  | nil => exact .ok rfl
  | cons e es ih =>
    obtain ⟨he, hes⟩ := List.forall_mem_cons.mp h
    exact (ih hes).bind fun a => he.value a

theorem mirrors_emitEntries {es : List (Expr Symbol × Expr Symbol)}
    (h : ∀ kv ∈ es, Mirrored f kv.1 ∧ Mirrored f kv.2) (a : Assembly) :
    Mirrors f (emitEntries es a) (emitEntries (renameEntries (Symbol.rename f) es) (a.rename f)) := by
  induction es generalizing a with
  | nil => exact .ok rfl
  | cons kv es ih =>
    obtain ⟨⟨hk, hv⟩, hes⟩ := List.forall_mem_cons.mp h
    exact (hk.value a).bind fun a => (hv.value a).bind fun a => ih hes a

end Lists

/-- A tree that is no place is refused as a target, whatever its names are. -/
theorem Mirrored.of_value {e : Expr Symbol}
    (hv : ∀ a, Mirrors f (e.emit a) ((e.rename (Symbol.rename f)).emit (a.rename f)))
    (hput : ∀ key value key' value' a a', Mirrors f (e.emitPut key value a)
      ((e.rename (Symbol.rename f)).emitPut key' value' a')) : Mirrored f e where
  value := hv
  target _ _ _ := hput ..

/-- **Compilation mirrors the replacement of names.** -/
theorem mirrored (e : Expr Symbol) : Mirrored f e := by
  induction e using induct with
  | literal l => exact .of_value (fun a => .ok rfl) fun _ _ _ _ _ _ => rfl
  | var x =>
    refine ⟨fun a => .ok (load_rename a x), fun {key key' value value'} hk hv a => ?_⟩
    have hkey := hk (a.load x)
    rw [← load_rename] at hkey
    exact hkey.bind fun a => (hv a).bind fun a => .ok (restoreInto_rename (a.emit .put) (.var x))
  | declare x value hv =>
    exact .of_value (fun a => (hv.value a).bind fun a => .ok (store_rename (a.emit .dup) x))
      fun _ _ _ _ _ _ => rfl
  | assign x value hv =>
    exact .of_value (fun a => (hv.value a).bind fun a => .ok (store_rename (a.emit .dup) x))
      fun _ _ _ _ _ _ => rfl
  | letIn x value body hv hb =>
    refine .of_value (fun a => (hv.value a).bind fun a => ?_) fun _ _ _ _ _ _ => rfl
    rw [store_rename]
    exact hb.value _
  | unary op operand ho =>
    exact .of_value (fun a => (ho.value a).bind fun a => .ok rfl) fun _ _ _ _ _ _ => rfl
  | binary op left right hl hr =>
    exact .of_value (fun a => (hl.value a).bind fun a => (hr.value a).bind fun a => .ok rfl)
      fun _ _ _ _ _ _ => rfl
  | logical op left right hl hr =>
    exact .of_value (fun a => (hl.value a).bind fun a => (hr.value _).bind fun a => .place ..)
      fun _ _ _ _ _ _ => rfl
  | block body hb => exact .of_value (mirrors_emitBlock hb) fun _ _ _ _ _ _ => rfl
  | cond test yes no ht hy hn =>
    exact .of_value (fun a => (ht.value a).bind fun a => (mirrors_emitBlock hy _).bind fun a =>
      (Mirrors.place ..).bind fun a => (mirrors_emitAlternative hn a).bind fun a => .place ..)
      fun _ _ _ _ _ _ => rfl
  | loop test body ht hb =>
    exact .of_value (.emitLoop ht.value fun a => (mirrors_emitBlock hb a).bind fun a => .ok rfl)
      fun _ _ _ _ _ _ => rfl
  | count x init test advance body hi ht ha hb =>
    refine .of_value (fun a => (hi.value a).bind fun a => ?_) fun _ _ _ _ _ _ => rfl
    rw [store_rename]
    refine .emitLoop ht.value (fun a => ?_) _
    exact (mirrors_emitBlock hb a).bind fun a => (ha.value (a.emit .pop)).bind fun a => .ok rfl
  | print args ha =>
    exact .of_value (fun a => (mirrors_emitReversed ha a).bind fun a => .ok (by rw [length_renameAll]; rfl))
      fun _ _ _ _ _ _ => rfl
  | list elems he =>
    exact .of_value (fun a => (mirrors_emitAll he a).bind fun a => .ok (by rw [length_renameAll]; rfl))
      fun _ _ _ _ _ _ => rfl
  | fill value size hv hs =>
    exact .of_value (fun a => (hv.value a).bind fun a => (hs.value a).bind fun a => .ok rfl)
      fun _ _ _ _ _ _ => rfl
  | map entries he =>
    exact .of_value (fun a => (mirrors_emitEntries he a).bind fun a => .ok (by rw [length_renameEntries]; rfl))
      fun _ _ _ _ _ _ => rfl
  | query op target ht =>
    exact .of_value (fun a => (ht.value a).bind fun a => .ok rfl) fun _ _ _ _ _ _ => rfl
  | update op target arg ht ha =>
    exact .of_value (fun a => (ht.value a).bind fun a => (ha.value a).bind fun a =>
      .ok (restoreInto_rename (a.emit (.update op)) target)) fun _ _ _ _ _ _ => rfl
  | index target key ht hk =>
    refine ⟨fun a => (ht.value a).bind fun a => (hk.value a).bind fun a => .ok rfl,
      fun hkey hvalue a => ht.target hk.value (fun a => ?_) a⟩
    exact (ht.value a).bind fun a => (hk.value a).bind fun a => (hkey _).bind fun a =>
      (hvalue a).bind fun a => .ok rfl
  | put target key value ht hk hv =>
    exact .of_value (fun a => ht.target hk.value hv.value a) fun _ _ _ _ _ _ => rfl
  | concat parts hp =>
    exact .of_value (fun a => (mirrors_emitReversed hp a).bind fun a => .ok (by rw [length_renameAll]; rfl))
      fun _ _ _ _ _ _ => rfl
  | slice target start stop step ht hs hp hst =>
    exact .of_value (fun a => (ht.value a).bind fun a => (hs.value a).bind fun a => (hp.value a).bind fun a =>
      (mirrors_emitStep hst a).bind fun a => .ok rfl) fun _ _ _ _ _ _ => rfl
  | function name params body ret hb hr =>
    refine .of_value (fun a => (Mirrors.place ..).bind fun a => ?_) fun _ _ _ _ _ _ => rfl
    rw [← List.map_reverse, storeAll_rename, List.length_map]
    have hstore : ∀ (b : Assembly) (i : Instr Label),
        ((b.rename f).emit i).store (name.rename f) = ((b.emit i).store name).rename f :=
      fun b i => store_rename (b.emit i) name
    dsimp only
    rw [hstore]
    exact (mirrors_emitStatements hb _).bind fun a => (hr.value a).bind fun a =>
      (Mirrors.place (a.emit .ret) _).bind fun a => .ok (hstore (a.emit _) .dup)
  | call callee args ha =>
    refine .of_value (fun a => (mirrors_emitAll ha a).bind fun a => .ok ?_) fun _ _ _ _ _ _ => rfl
    rw [length_renameAll, load_rename]
    rfl

end Expr

/-! ## Programs -/

namespace Assembly

variable {f : String → String}

/-- Labels are resolved without names. -/
theorem resolveAll_rename (a : Assembly) (length : Nat) (is : List (Instr Label)) :
    (a.rename f).resolveAll length is = a.resolveAll length is := by
  induction is with
  | nil => rfl
  | cons i is ih =>
    show (i.mapTarget (a.resolve length) >>= fun i =>
      (a.rename f).resolveAll length is >>= fun is => pure (i :: is)) = _
    rw [ih]
    rfl

theorem finish_rename (a : Assembly) : (a.rename f).finish = a.finish.map (Program.rename f) := by
  have hwhole : (a.rename f).emit .halt = (a.emit .halt).rename f := rfl
  have hcode : ((a.emit .halt).rename f).code = (a.emit .halt).code := rfl
  rw [finish, hwhole, resolveAll_rename, hcode, finish]
  cases (a.emit .halt).resolveAll (a.emit .halt).code.size (a.emit .halt).code.toList <;> rfl

end Assembly

/-- The program of a renamed tree is the program of the tree, with other names in its table. -/
theorem Program.ofTree_rename (f : String → String) (tree : List (Expr Symbol)) :
    Program.ofTree (Expr.renameAll (Symbol.rename f) tree) = (Program.ofTree tree).map (Program.rename f) := by
  have h : Expr.emitBlock (Expr.renameAll (Symbol.rename f) tree) .empty =
      (Expr.emitBlock tree .empty).map (Assembly.rename f) :=
    Expr.mirrors_emitBlock (fun e _ => e.mirrored) .empty
  rw [ofTree, h, ofTree]
  cases Expr.emitBlock tree .empty with
  | ok a => exact a.finish_rename
  | error e => rfl

/-- What becomes of a tree with names: the program of the resolved tree. -/
def compileNames (tree : List (Expr String)) : Except ScriptError Program := do
  compileTree false (← (resolve tree).mapError .resolve)

/-- **Names do not influence code.** If all names of a tree are replaced, different ones by different ones,
then resolution and compilation of the new tree fail if they fail for the old one, and with the same error
about the new names. Otherwise the program has the same instructions, with the same ids, targets and
entries of functions, and its table gives to each id the new name in place of the old one. -/
theorem compileNames_rename {f : String → String} (hf : f.Injective) (tree : List (Expr String)) :
    compileNames (Expr.renameAll f tree) =
      ((compileNames tree).map (Program.rename f)).mapError (ScriptError.rename f) := by
  rw [compileNames, resolve_rename hf, compileNames]
  cases resolve tree with
  | error e => rfl
  | ok resolved =>
    show (Program.ofTree (Expr.renameAll (Symbol.rename f) resolved)).mapError _ = _
    rw [Program.ofTree_rename]
    show _ = (((Program.ofTree resolved).mapError ScriptError.compile).map _).mapError _
    cases Program.ofTree resolved <;> rfl

/-- A function, a call of it, and a block in which its name is shadowed. -/
def sampleNames : List (Expr String) :=
  [.function "next" ["x"] [] (.binary .add (.var "x") (.literal (.num (.ofInt 1)))),
    .declare "x" (.call "next" [.literal (.num (.ofInt 1))]),
    .block [.declare "next" (.var "x"), .assign "x" (.var "next")]]

theorem compileNames_rename_marked : Function.Injective (fun x : String => x ++ "_") ∧
    ∃ p, compileNames sampleNames = .ok p ∧
      compileNames (Expr.renameAll (· ++ "_") sampleNames) = .ok (p.rename (· ++ "_")) := by
  have hinjective : Function.Injective (fun x : String => x ++ "_") := fun x y h => by simpa using h
  have hcompile : ∃ p, compileNames sampleNames = .ok p := ⟨_, rfl⟩
  obtain ⟨p, hcompile⟩ := hcompile
  refine ⟨hinjective, p, hcompile, ?_⟩
  rw [compileNames_rename hinjective, hcompile]
  rfl

end ExactScript
