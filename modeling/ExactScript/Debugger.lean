import ExactScript.Debugger.Command
import ExactScript.Machine
import ExactScript.Text.Typed
import ExactScript.Transcript

/-!
# The debugger

Steps through a program by commands. Before each command the next instructions are shown. A line
without words repeats the last command; a line that is no command is answered by a complaint, and another
line is read.

## Contents
* `preview` and `View.text`, what the debugger shows;
* `Debugger.reply`, the answer to one line;
* `Debugger.session`, the answers to all of them.
-/

namespace ExactScript

/-- A machine under inspection. -/
structure Debugger where
  machine : Machine
  /-- The command that a line without words repeats. -/
  last : Option Debugger.Command := none

namespace Debugger

def joinLines (lines : List String) : String := String.join (lines.map (· ++ "\n"))

/-! ## Views -/

/-- The number of instructions that are shown ahead. -/
def lookahead : Nat := 5

/-- The instructions that come next, as far as there are any. Positions are machine words. -/
def preview (m : Machine) : String :=
  if m.status ≠ .running then ""
  else
    joinLines ("Next instructions:" ::
      (List.range lookahead).filterMap fun k => m.program.line? ((m.ip + k) % wordSize))

/-- A symbol by its name, if that is known, and its id. -/
def symbolLabel (p : Program) (id : Nat) : String := (p.nameOf? id).getD "" ++ Symbol.idText id

/-- Numbers the elements of a list down to zero. -/
def countdown {α : Type} (xs : List α) : List (Nat × α) :=
  (List.range xs.length).reverse.zip xs

/-- A line for each value, by ascending id. -/
def valueLines (p : Program) (values : IdMap Value) : List String :=
  values.entries.map fun (id, v) => symbolLabel p id ++ ": " ++ v.display

/-- A call and its locals. -/
def frameLines (p : Program) (depth : Nat) (f : Frame) : List String :=
  (toString depth ++ ": fn@" ++ toString f.function.entry ++ " returns to "
      ++ toString f.returnAddress) ::
    (valueLines p f.locals).map ("    " ++ ·)

def View.text (m : Machine) : View → String
  | .stack =>
    joinLines ((countdown m.stack).map fun (i, v) => toString i ++ ": " ++ v.display)
  | .frames =>
    joinLines ((countdown m.memory.frames).flatMap fun (i, f) => frameLines m.program i f)
  | .globals => joinLines (valueLines m.program m.memory.globals)
  | .code => m.program.listing
  | .stackAt i =>
    match m.stack.reverse[i]? with
    | some v => v.display ++ "\n"
    | none => "Invalid stack index\n"

/-! ## Replies -/

/-- What a line leads to. -/
inductive Reply where
  /-- Another line is read at once. -/
  | misread (e : CommandError)
  /-- Something is shown, and the session goes on. -/
  | shown (text : String) (d : Debugger)
  /-- The session is over. -/
  | ended (t : Transcript)

/-- The reply to steps that led to a result, or to none yet. -/
def afterSteps (last : Command) : Option (Except RunError Value) × Machine → Reply
  | (result, m) =>
    let (printed, m) := m.takeOutput
    match result with
    | none => .shown printed { machine := m, last }
    | some (.ok v) => .ended (.ofOutput (printed ++ "Program finished with " ++ v.display ++ "\n"))
    | some (.error e) =>
      .ended ((Transcript.ofFailure
        ("Runtime error at " ++ toString m.ip ++ ": " ++ e.message)).after printed "")

/-- Follows a command. Resumed, the program runs for at most `fuel` steps. -/
def follow (fuel : Nat) (d : Debugger) (c : Command) : Reply :=
  match c with
  | .next => afterSteps c (d.machine.execute 1)
  | .resume => afterSteps c (d.machine.execute fuel)
  | .look view => .shown (view.text d.machine) { d with last := some c }
  | .quit => .ended {}

/-- The reply to a typed line. -/
def reply (fuel : Nat) (d : Debugger) (line : String) : Reply :=
  match Command.ofLine (Text.settled line) with
  | .error e => .misread e
  | .ok (some c) => d.follow fuel c
  | .ok none =>
    match d.last with
    | some c => d.follow fuel c
    | none => .shown "" d

/-- The complaint about a line that is no command. -/
def complaint (e : CommandError) : String := "Error: " ++ e.message ++ "\n"

/-! ## Sessions -/

/-- The answers to some lines, the next instructions having been shown. The end of the lines quits. -/
def answers (fuel : Nat) (d : Debugger) : List String → Transcript
  | [] => {}
  | line :: rest =>
    match d.reply fuel line with
    | .misread e => (d.answers fuel rest).after "" (complaint e)
    | .shown text d => (d.answers fuel rest).after (text ++ preview d.machine) ""
    | .ended t => t

/-- A session with a machine. -/
def session (fuel : Nat) (m : Machine) (lines : List String) : Transcript :=
  (answers fuel { machine := m } lines).after (preview m) ""

end Debugger

end ExactScript
