import ExactScript.Text.Numeral
import ExactScript.Text.Words

/-!
# Commands of the debugger

One line, one command, by words. Words behind the first matter to `show` alone.
-/

namespace ExactScript.Debugger

/-- A part of the machine to look at. -/
inductive View where
  | stack
  | frames
  | globals
  | code
  /-- The value at a position of the stack, from the bottom. -/
  | stackAt (i : Nat)
  deriving DecidableEq

inductive Command where
  /-- One step. -/
  | next
  /-- Steps until the program ends. -/
  | resume
  | look (view : View)
  | quit
  deriving DecidableEq

inductive CommandError where
  | unknownCommand
  | missingView
  | unknownView
  | badIndex (e : Text.NumeralError)
  deriving DecidableEq

namespace CommandError

def message : CommandError → String
  | unknownCommand => "Invalid Command"
  | missingView => "show needs an argument"
  | unknownView => "Invalid word after show"
  | badIndex e => e.message

end CommandError

/-- The view that the words after `show` name. -/
def View.ofWords : List String → Except CommandError View
  | [] => .error .missingView
  | ["s"] | ["stack"] => .ok .stack
  | ["f"] | ["frames"] => .ok .frames
  | ["g"] | ["globals"] => .ok .globals
  | ["c"] | ["code"] => .ok .code
  | ["s", "at", index] | ["stack", "at", index] =>
    ((Text.readWord index).map View.stackAt).mapError .badIndex
  | _ => .error .unknownView

/-- The command of a line. A line without words names none. -/
def Command.ofLine (line : String) : Except CommandError (Option Command) :=
  match Text.words line with
  | [] => .ok none
  | "n" :: _ | "next" :: _ => .ok (some .next)
  | "c" :: _ | "continue" :: _ => .ok (some .resume)
  | "q" :: _ | "quit" :: _ => .ok (some .quit)
  | "s" :: rest | "show" :: rest => (View.ofWords rest).map fun view => some (.look view)
  | _ => .error .unknownCommand

end ExactScript.Debugger
