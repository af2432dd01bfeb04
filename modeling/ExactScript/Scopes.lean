/-!
# Scopes

A stack of mappings. Names are added to the innermost scope and looked up from the innermost scope
outwards. The outermost scope is always there: it is a field of its own, and closing stops before it.
-/

namespace ExactScript

/-- One scope: its entries, each key at most once. -/
abbrev Scope (κ ν : Type) := List (κ × ν)

/-- Nested scopes, the innermost first, inside the outermost one. -/
structure Scopes (κ ν : Type) where
  inner : List (Scope κ ν) := []
  outermost : Scope κ ν := []

namespace Scope

variable {κ ν : Type} [DecidableEq κ]

def get? (s : Scope κ ν) (k : κ) : Option ν :=
  match s with
  | [] => none
  | (j, v) :: s => if j = k then some v else get? s k

/-- A key that is present keeps its place and takes the new value. -/
def insert (s : Scope κ ν) (k : κ) (v : ν) : Scope κ ν :=
  match s with
  | [] => [(k, v)]
  | (j, w) :: s => if j = k then (k, v) :: s else (j, w) :: insert s k v

end Scope

namespace Scopes

variable {κ ν : Type}

def empty : Scopes κ ν := {}

instance : Inhabited (Scopes κ ν) := ⟨empty⟩

/-- Every scope, the innermost first. -/
def toList (s : Scopes κ ν) : List (Scope κ ν) := s.inner ++ [s.outermost]

/-- The number of scopes, the outermost included. -/
def depth (s : Scopes κ ν) : Nat := s.inner.length + 1

/-! ## Opening and closing -/

def openScope (s : Scopes κ ν) : Scopes κ ν := { s with inner := [] :: s.inner }

/-- Removes the innermost scope and answers with it, unless only the outermost one is left. -/
def closeScope (s : Scopes κ ν) : Option (Scope κ ν) × Scopes κ ν :=
  match s.inner with
  | [] => (none, s)
  | scope :: rest => (some scope, { s with inner := rest })

/-! ## Entries -/

def innermost (s : Scopes κ ν) : Scope κ ν := s.inner.headD s.outermost

variable [DecidableEq κ]

/-- Adds an entry to the innermost scope. -/
def add (s : Scopes κ ν) (k : κ) (v : ν) : Scopes κ ν :=
  match s.inner with
  | [] => { s with outermost := Scope.insert s.outermost k v }
  | scope :: rest => { s with inner := Scope.insert scope k v :: rest }

def innermostContains (s : Scopes κ ν) (k : κ) : Bool := (Scope.get? s.innermost k).isSome

/-- The value of the innermost scope with the key, and the number of scopes around that scope. -/
def findWithDepth? (k : κ) : List (Scope κ ν) → Option (Nat × ν)
  | [] => none
  | scope :: outer =>
    match Scope.get? scope k with
    | some v => some (outer.length, v)
    | none => findWithDepth? k outer

/-- The entry that a key refers to, with the index of its scope; the outermost scope has index 0. -/
def getWithDepth? (s : Scopes κ ν) (k : κ) : Option (Nat × ν) := findWithDepth? k s.toList

/-- The entry that a key refers to. -/
def get? (s : Scopes κ ν) (k : κ) : Option ν := (s.getWithDepth? k).map Prod.snd

end Scopes

end ExactScript
