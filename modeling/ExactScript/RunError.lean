import ExactScript.Value

/-!
# Errors of a running program

Each error names its cause; `RunError.message` gives the wording.
-/

namespace ExactScript

/-- Why an operation does not accept a value of the right kind. -/
inductive Obstacle where
  | notAnInteger (n : Fraction)
  | exponentNotAnInteger (n : Fraction)
  | exponentTooLarge (n : Fraction)
  | invalidCount (n : Fraction)
  | listTooLong (count : Nat)
  | zeroStep
  | boundTooLarge (n : Fraction)

inductive RunError where
  | divisionByZero
  | unsupported (op : String) (detail : Obstacle)
  | unboundSymbol (name : Option String) (id : Nat)
  | indexOutOfBounds (index : Value) (length : Nat)
  | keyNotFound (key : Key)
  | emptyCollection (op : String)
  | typeMismatch (op expected : String) (found : Kind)
  | stackUnderflow
  | notCallable (found : Kind)
  | arityMismatch (expected found : Nat)
  | callDepthExceeded (limit : Nat)
  | returnOutsideFunction
  | instructionOutOfBounds (ip : Nat)
  | notRunning
  | output (reason : String)

namespace Obstacle

def message : Obstacle → String
  | notAnInteger n => n.display ++ " is not an integer"
  | exponentNotAnInteger n => "exponent " ++ n.display ++ " is not an integer"
  | exponentTooLarge n => "exponent " ++ n.display ++ " is too large"
  | invalidCount n => n.display ++ " is not a valid count"
  | listTooLong count => "can't allocate a list of " ++ toString count ++ " elements"
  | zeroStep => "step must not be zero"
  | boundTooLarge n => n.display ++ " is too large for a slice"

end Obstacle

namespace RunError

/-- The mismatch between an expected kind and the value that was found. -/
def mismatch (op expected : String) (found : Value) : RunError :=
  typeMismatch op expected found.kind

def message : RunError → String
  | divisionByZero => "Division by zero"
  | unsupported op detail => "Unsupported operation " ++ op ++ ": " ++ detail.message
  | unboundSymbol name id =>
    "Unbound symbol " ++ name.getD "?" ++ " (" ++ Symbol.idText id ++ ")"
  | indexOutOfBounds index length =>
    "Index " ++ index.display ++ " is out of bounds for length " ++ toString length
  | keyNotFound key => "Key not found: " ++ key.display
  | emptyCollection op => op ++ " on an empty collection"
  | typeMismatch op expected found => op ++ " expected " ++ expected ++ ", found " ++ found.name
  | stackUnderflow => "The stack was empty unexpectedly"
  | notCallable found => "Tried to call a " ++ found.name
  | arityMismatch expected found =>
    "Function takes " ++ toString expected ++ " arguments, but " ++ toString found ++ " were given"
  | callDepthExceeded limit => "Maximum call depth of " ++ toString limit ++ " exceeded"
  | returnOutsideFunction => "RETURN outside of a function"
  | instructionOutOfBounds ip =>
    "Instruction pointer " ++ toString ip ++ " is outside of the program"
  | notRunning => "The VM is not running"
  | output reason => "Could not write output: " ++ reason

end RunError

end ExactScript
