import ExactScript.Instr
import ExactScript.IdMap

/-!
# Programs

A finished program: instructions whose targets are positions, the version it was made by, and the names
of its symbols for messages and listings.
-/

namespace ExactScript

/-- The version of the instruction set, in three parts. -/
structure Version where
  major : Nat
  minor : Nat
  patch : Nat
  deriving DecidableEq

namespace Version

/-- The version that this library makes and accepts. -/
def current : Version := ⟨0, 1, 0⟩

def text (v : Version) : String :=
  "[" ++ toString v.major ++ ", " ++ toString v.minor ++ ", " ++ toString v.patch ++ "]"

end Version

structure Program where
  code : Array (Instr Nat) := #[]
  version : Version := .current
  /-- The names of the symbols that are loaded or stored. -/
  names : IdMap String := .empty

namespace Program

instance : Inhabited Program := ⟨{}⟩

def nameOf? (p : Program) (id : Nat) : Option String := p.names.get? id

/-! ## Listings -/

/-- A number, padded with blanks to four places. -/
def paddedIndex (i : Nat) : String :=
  let digits := toString i
  String.ofList (List.replicate (4 - digits.length) ' ') ++ digits

/-- The name that goes with an instruction in a listing. -/
def nameSuffix (p : Program) (i : Instr Nat) : String :=
  let suffix (id : Nat) := match p.nameOf? id with
    | some name => " (" ++ name ++ ")"
    | none => ""
  match i with
  | .load id => suffix id
  | .store id => suffix id
  | _ => ""

/-- The line of the instruction at a position. -/
def line? (p : Program) (i : Nat) : Option String :=
  p.code[i]?.map fun instr =>
    paddedIndex i ++ "  " ++ instr.text toString ++ p.nameSuffix instr

/-- Every line, in order. -/
def lines (p : Program) : List String := (List.range p.code.size).filterMap p.line?

/-- Every line, each ended. -/
def listing (p : Program) : String := String.join (p.lines.map (· ++ "\n"))

end Program

end ExactScript
