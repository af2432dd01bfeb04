import ExactScript.RunError

/-!
# The operand stack

Values with the topmost first. An operation that fails keeps what it had taken off: the stack that goes
with an error is the one that is left.
-/

namespace ExactScript

/-- Values, the topmost first. -/
abbrev Stack := List Value

namespace Stack

/-- An operation on the stack that may fail; a failure carries the stack that is left. -/
abbrev Op (α : Type) := EStateM RunError Stack α

variable {α : Type}

/-- The outcome of an operation that does not touch the stack. -/
def lift (r : Except RunError α) : Op α := fun s =>
  match r with
  | .ok a => .ok a s
  | .error e => .error e s

/-! ## Pushing and popping -/

def push (v : Value) : Op Unit := fun s => .ok () (v :: s)

def pop : Op Value
  | [] => .error .stackUnderflow []
  | v :: s => .ok v s

def peek : Op Value
  | [] => .error .stackUnderflow []
  | v :: s => .ok v (v :: s)

/-- Takes the `n` topmost values, the topmost first. Takes none when there are fewer. -/
def popMany (n : Nat) : Op (List Value) := fun s =>
  if s.length < n then .error .stackUnderflow s else .ok (s.take n) (s.drop n)

/-- Takes the `n` topmost values, in the order in which they were pushed. -/
def takeTop (n : Nat) : Op (List Value) := do return (← popMany n).reverse

/-! ## Popping by kind -/

/-- Takes a number for operation `op`. -/
def popNum (op : String) : Op Fraction := do
  match ← pop with
  | .num n => return n
  | other => throw (.mismatch op "num" other)

/-- Takes a truth value for operation `op`. -/
def popBool (op : String) : Op Bool := do
  match ← pop with
  | .bool b => return b
  | other => throw (.mismatch op "bool" other)

/-- Takes a string for operation `op`. -/
def popStr (op : String) : Op String := do
  match ← pop with
  | .str s => return s
  | other => throw (.mismatch op "str" other)

/-- The count that a number stands for: a machine word stored as an integer. -/
def count? (n : Fraction) : Option Nat := if n.isInteger then n.toWord? else none

/-- Takes a count for operation `op`. -/
def popCount (op : String) : Op Nat := do
  let n ← popNum op
  match count? n with
  | some k => return k
  | none => throw (.unsupported op (.invalidCount n))

end Stack

end ExactScript
