import ExactScript.CommandLine

/-!
# The program

Connects the command line to files, standard input and standard output.
-/

namespace ExactScript.CommandLine

/-- More steps than anyone waits for. -/
def endless : Nat := 0x4000000000000000

/-- The number of steps after which output is passed on. -/
def burst : Nat := 4096

/-- The reason for which the system refuses a file. -/
def reasonOf : IO.Error → String
  | .noFileOrDirectory .. => "No such file or directory (os error 2)"
  | .permissionDenied .. => "Permission denied (os error 13)"
  | e => toString e

/-- Writes a transcript. -/
def deliver (t : Transcript) : IO UInt32 := do
  let output ← IO.getStdout
  output.putStr t.output
  output.flush
  (← IO.getStderr).putStr t.errors
  return t.exitCode.toUInt32

/-- Runs a machine and writes its output as it comes. -/
partial def runMachine (m : Machine) : IO UInt32 := do
  match m.execute burst with
  | (none, m) =>
    let (printed, m) := m.takeOutput
    let _ ← deliver (.ofOutput printed)
    runMachine m
  | ended => deliver (afterRun ended)

/-- Answers the lines of the standard input. -/
partial def converse (d : Debugger) : IO UInt32 := do
  let line ← (← IO.getStdin).getLine
  if line.isEmpty then return 0
  match d.reply endless line with
  | .misread e =>
    (← IO.getStderr).putStr (Debugger.complaint e)
    converse d
  | .shown text d =>
    let _ ← deliver (.ofOutput (text ++ Debugger.preview d.machine))
    converse d
  | .ended t => deliver t

def contentsOf (path : String) : IO (Except String (List UInt8)) := do
  try return .ok (← IO.FS.readBinFile path).toList
  catch e => return .error (reasonOf e)

def save (path : String) (bytes : List UInt8) : IO UInt32 := do
  try
    IO.FS.writeBinFile path bytes.toByteArray
    return 0
  catch e => deliver (Failure.unwritable path (reasonOf e)).transcript

def perform : Action → IO UInt32
  | .print text => deliver (.ofOutput text)
  | .save path bytes => save path bytes
  | .debug m => do
    let _ ← deliver (.ofOutput (Debugger.preview m))
    converse { machine := m }
  | .run m => runMachine m

end ExactScript.CommandLine

open ExactScript.CommandLine in
def main (arguments : List String) : IO UInt32 := do
  match Options.ofArguments arguments with
  | .error e => deliver e.transcript
  | .ok o =>
    match plan o (← contentsOf o.script) with
    | .error f => deliver f.transcript
    | .ok action => perform action
