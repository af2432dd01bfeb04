import ExactScript.CommandLine.Options
import ExactScript.Debugger
import ExactScript.Expr.Dump
import ExactScript.Script

/-!
# The command line

What an invocation does with a script: its tree or its instructions are shown, the program is saved,
stepped through or run. The options are taken in this order, and the first that applies ends the matter.
Reading and writing files is left to the caller; `plan` says what is to be done with the contents of the
script, and `Action.transcript` what that writes.
-/

namespace ExactScript.CommandLine

/-! ## Failures -/

inductive Failure where
  | unreadable (path reason : String)
  | unwritable (path reason : String)
  | script (e : ScriptError)
  | program (e : CodecError)
  /-- The run stopped at this instruction, if there is one at its place. -/
  | run (ip : Nat) (instr : Option (Instr Nat)) (e : RunError)

namespace Failure

/-- The message of a failure. Where it has a cause of its own, that is told behind it. -/
def message : Failure → String
  | unreadable path reason => "Could not read " ++ path ++ ": " ++ reason
  | unwritable path reason => "Could not write " ++ path ++ ": " ++ reason
  | script e => e.message
  | program e => ": ".intercalate (e.message :: e.fault?.toList)
  | run ip instr e =>
    "Runtime error at " ++ toString ip ++ " (" ++ (instr.map Instr.mnemonic).getD "?" ++ "): " ++ e.message

def transcript (f : Failure) : Transcript := .ofFailure f.message

end Failure

/-! ## Usage -/

/-- An invocation with some options. -/
def usageLine (options : List String) : String :=
  "Usage: " ++ " ".intercalate ("fracs" :: options ++ [scriptLabel])

/-- The complaint about arguments that cannot be understood. -/
def UsageError.text (e : UsageError) : String :=
  "\n\n".intercalate
      (["error: " ++ e.message] ++ (e.tip?.map ("  tip: " ++ ·)).toList
        ++ (e.usage?.map usageLine).toList ++ ["For more information, try '--help'."]) ++ "\n"

/-- An option in the help, by its letter and name, and on a line of its own what it is for. -/
def helpEntry (letter : Option Char) (label purpose : String) : String :=
  let short := match letter with
    | some c => "-" ++ c.toString ++ ", "
    | none => "    "
  "  " ++ short ++ label ++ "\n          " ++ purpose ++ "\n"

def Flag.entry (f : Flag) : String := helpEntry (some f.letter) f.label f.purpose

def Setting.entry (s : Setting) : String := helpEntry s.letter? s.label s.purpose

/-- All that can be asked for. -/
def helpText : String :=
  usageLine ["[OPTIONS]"] ++ "\n\nArguments:\n  " ++ scriptLabel ++ "  \n\nOptions:\n" ++
    String.join
      [Flag.entry (.switch .showSyntax), Flag.entry (.switch .showResolved),
        Flag.entry (.switch .showCode), Flag.entry (.switch .typecheck), Flag.entry (.switch .debug),
        Setting.entry .emit, Flag.entry (.switch .compiled), Setting.entry .callDepth,
        Flag.entry .help, Flag.entry .version]

def versionText : String := "fracs 0.1.0\n"

/-- The transcript of an invocation that does not get as far as the script. -/
def Stop.transcript : Stop → Transcript
  | .misuse e => { errors := e.text, exitCode := 2 }
  | .help => .ofOutput helpText
  | .version => .ofOutput versionText

/-! ## Plans -/

inductive Action where
  | print (text : String)
  | save (path : String) (bytes : List UInt8)
  | debug (m : Machine)
  | run (m : Machine)

/-- What is to be done with a program. -/
def planProgram (o : Options) (p : Program) : Action :=
  if o.has .showCode then .print p.listing
  else
    match o.emit with
    | some path => .save path p.encode
    | none =>
      let m := Machine.load { maxCallDepth := o.maxCallDepth } p
      if o.has .debug then .debug m else .run m

/-- What is to be done with a source text. -/
def planSource (o : Options) (src : String) : Except ScriptError Action := do
  let syntaxTree ← (Source.parse src).mapError .parse
  if o.has .showSyntax then
    return .print (Expr.dumpText Dump.string syntaxTree ++ "\n")
  let tree ← (resolve syntaxTree).mapError .resolve
  if o.has .showResolved then
    return .print (Expr.dumpText Symbol.dump tree ++ "\n")
  return planProgram o (← compileTree (o.has .typecheck) tree)

/-- What is to be done, given the contents of the script or the reason why it cannot be read. -/
def plan (o : Options) (contents : Except String (List UInt8)) : Except Failure Action := do
  let bytes ← contents.mapError (.unreadable o.script)
  if o.has .compiled then
    return planProgram o (← (Program.decode bytes).mapError .program)
  match String.fromUTF8? bytes.toByteArray with
  | none => throw (.unreadable o.script "stream did not contain valid UTF-8")
  | some src => (planSource o src).mapError .script

/-! ## Transcripts -/

/-- The transcript of a run that has come to a result, or was left off before. -/
def afterRun : Option (Except RunError Value) × Machine → Transcript
  | (some (.error e), m) => (Failure.run m.ip m.current? e).transcript.after m.output ""
  | (_, m) => .ofOutput m.output

/-- What an action writes. A program runs for at most `fuel` steps between two lines of `input`. -/
def Action.transcript (fuel : Nat) (input : List String) : Action → Transcript
  | .print text => .ofOutput text
  | .save .. => {}
  | .debug m => Debugger.session fuel m input
  | .run m => afterRun (m.execute fuel)

end ExactScript.CommandLine
