import ExactScript.Program

/-!
# Putting code together

Code under construction refers to positions by labels. A label is created first, placed once at the
position of the next instruction, and may be used before and after that. Finishing the code appends a
`HALT` and replaces every label by its position.

## Contents
* `Label`, `CompileError`, `Assembly`;
* `emit`, `newLabel`, `place`, `load`, `store`;
* `finish`, the program with positions for labels.
-/

namespace ExactScript

/-- The number of a label in the assembly that created it. -/
structure Label where
  index : Nat
  deriving DecidableEq

def Label.text (l : Label) : String := "L" ++ toString l.index

/-- What keeps code from being put together. -/
inductive CompileError where
  | unresolvedLabel (label : Nat)
  | labelOutOfRange (label target length : Nat)
  | labelPlacedTwice (label first second : Nat)
  | unsupportedConstruct (construct : String)
  | foreignLabel (label : Label)
  deriving DecidableEq

namespace CompileError

def message : CompileError → String
  | unresolvedLabel label => "Label " ++ toString label ++ " was never placed"
  | labelOutOfRange label target length =>
    "Label " ++ toString label ++ " points to " ++ toString target ++ ", but there are only " ++
      toString length ++ " instructions"
  | labelPlacedTwice label first second =>
    "Label " ++ toString label ++ " was placed at " ++ toString first ++ " and again at " ++
      toString second
  | unsupportedConstruct construct => "Unsupported construct: " ++ construct
  | foreignLabel label =>
    "A compiler bug was detected: label " ++ label.text ++ " was not created by this builder"

end CompileError

/-- Code under construction. -/
structure Assembly where
  code : Array (Instr Label) := #[]
  /-- The position of every label created so far, once it is placed. -/
  labels : Array (Option Nat) := #[]
  names : IdMap String := .empty

namespace Assembly

instance : Inhabited Assembly := ⟨{}⟩

/-- Nothing yet. -/
def empty : Assembly := {}

/-! ## Instructions and labels -/

/-- The position of the next instruction. -/
def position (a : Assembly) : Nat := a.code.size

def emit (a : Assembly) (i : Instr Label) : Assembly := { a with code := a.code.push i }

/-- A label that is not placed yet. -/
def newLabel (a : Assembly) : Label × Assembly :=
  (⟨a.labels.size⟩, { a with labels := a.labels.push none })

/-- Places a label at the position of the next instruction. -/
def place (a : Assembly) (l : Label) : Except CompileError Assembly :=
  match a.labels[l.index]? with
  | some none => .ok { a with labels := a.labels.setIfInBounds l.index (some a.position) }
  | some (some first) => .error (.labelPlacedTwice l.index first a.position)
  | none => .error (.foreignLabel l)

/-! ## Symbols -/

/-- Remembers the name of a symbol; the first name of an id stays. -/
def note (a : Assembly) (s : Symbol) : Assembly :=
  if a.names.contains s.id then a else { a with names := a.names.insert s.id s.name }

def load (a : Assembly) (s : Symbol) : Assembly := (a.note s).emit (.load s.id)

def store (a : Assembly) (s : Symbol) : Assembly := (a.note s).emit (.store s.id)

/-! ## Finishing -/

/-- The position of a label in code of the given length. -/
def resolve (a : Assembly) (length : Nat) (l : Label) : Except CompileError Nat :=
  match a.labels[l.index]? with
  | some (some i) => if i < length then .ok i else .error (.labelOutOfRange l.index i length)
  | some none => .error (.unresolvedLabel l.index)
  | none => .error (.foreignLabel l)

/-- Replaces the labels of instructions in order, up to the first that has no position. -/
def resolveAll (a : Assembly) (length : Nat) :
    List (Instr Label) → Except CompileError (List (Instr Nat))
  | [] => .ok []
  | i :: is => return (← i.mapTarget (a.resolve length)) :: (← resolveAll a length is)

/-- The finished program. -/
def finish (a : Assembly) : Except CompileError Program := do
  let whole := a.emit .halt
  let code ← whole.resolveAll whole.code.size whole.code.toList
  return { code := code.toArray, names := a.names }

end Assembly

end ExactScript
