import ExactScript.Machine
import ExactScript.Text.Numeral

/-!
# Options

The arguments of the command line: one script, flags, and settings with a value. A flag or setting is
written by its name or its letter; letters stand together behind one dash. The value of a setting is the
rest of its argument, or the next argument. After `--` an argument is a script, whatever it looks like.
Nothing may be given twice. The flags that ask for help or for the version end the reading.

## Contents
* `Switch`, `Setting`, `Flag`, `Options`;
* `UsageError`, and `Stop` with the other reasons to read no further;
* `Options.ofArguments`.
-/

namespace ExactScript.CommandLine

inductive Switch where
  | showSyntax
  | showResolved
  | showCode
  | typecheck
  | debug
  | compiled
  deriving DecidableEq

inductive Setting where
  | emit
  | callDepth
  deriving DecidableEq

structure Options where
  script : String
  switches : List Switch := []
  /-- The file that the program is written to. -/
  emit : Option String := none
  maxCallDepth : Nat := defaultCallDepth

def Options.has (o : Options) (s : Switch) : Bool := o.switches.contains s

/-! ## Names -/

namespace Switch

def all : List Switch := [.showSyntax, .showResolved, .showCode, .typecheck, .debug, .compiled]

def name : Switch → String
  | showSyntax => "show-ast"
  | showResolved => "show-resolved"
  | showCode => "show-bytecode"
  | typecheck => "typecheck"
  | debug => "debug"
  | compiled => "compiled"

def letter : Switch → Char
  | showSyntax => 'a'
  | showResolved => 'r'
  | showCode => 'i'
  | typecheck => 't'
  | debug => 'b'
  | compiled => 'c'

end Switch

/-- What is given without a value. -/
inductive Flag where
  | switch (s : Switch)
  | help
  | version

namespace Flag

def all : List Flag := Switch.all.map switch ++ [.help, .version]

def name : Flag → String
  | switch s => s.name
  | help => "help"
  | version => "version"

def letter : Flag → Char
  | switch s => s.letter
  | help => 'h'
  | version => 'V'

/-- What the flag is for. -/
def purpose : Flag → String
  | switch .showSyntax => "print the syntax tree and exit"
  | switch .showResolved => "print the resolved tree and exit"
  | switch .showCode => "print the bytecode and exit"
  | switch .typecheck => "run the type checker before compiling"
  | switch .debug => "step through the bytecode interactively"
  | switch .compiled => "the script is a bytecode file written by --emit"
  | help => "Print help"
  | version => "Print version"

/-- The flag as it is shown. -/
def label (f : Flag) : String := "--" ++ f.name

def ofName? (name : String) : Option Flag := all.find? fun f => f.name = name

def ofLetter? (letter : Char) : Option Flag := all.find? fun f => f.letter = letter

end Flag

namespace Setting

def all : List Setting := [.emit, .callDepth]

def name : Setting → String
  | emit => "emit"
  | callDepth => "max-call-depth"

/-- The name of the value. -/
def valueName : Setting → String
  | emit => "FILE"
  | callDepth => "MAX_CALL_DEPTH"

/-- What the setting is for, or what holds without it. -/
def purpose : Setting → String
  | emit => "write the compiled bytecode to a file instead of running it"
  | callDepth => "[default: " ++ toString defaultCallDepth ++ "]"

/-- The setting as it is shown. -/
def label (s : Setting) : String := "--" ++ s.name ++ " <" ++ s.valueName ++ ">"

/-- The call depth has no letter. -/
def letter? : Setting → Option Char
  | emit => some 'o'
  | callDepth => none

def ofName? (name : String) : Option Setting := all.find? fun s => s.name = name

def ofLetter? (letter : Char) : Option Setting := all.find? fun s => s.letter? = some letter

end Setting

/-! ## Reasons to read no further -/

/-- The script as it is shown. -/
def scriptLabel : String := "<SCRIPT>"

inductive UsageError where
  | unknownLetter (letter : Char)
  /-- Some options had been given by then. -/
  | unknownName (name : String) (given : List String)
  | extraScript (path : String)
  | repeated (label : String)
  /-- Nothing, or an empty path. -/
  | missingValue (label : String)
  | badCallDepth (value : String) (e : Text.NumeralError)
  | unexpectedValue (value : String) (f : Flag) (given : List String)
  | missingScript (given : List String)

namespace UsageError

def message : UsageError → String
  | unknownLetter letter => "unexpected argument '-" ++ letter.toString ++ "' found"
  | unknownName name _ => "unexpected argument '--" ++ name ++ "' found"
  | extraScript path => "unexpected argument '" ++ path ++ "' found"
  | repeated label => "the argument '" ++ label ++ "' cannot be used multiple times"
  | missingValue label => "a value is required for '" ++ label ++ "' but none was supplied"
  | badCallDepth value e =>
    "invalid value '" ++ value ++ "' for '" ++ Setting.callDepth.label ++ "': " ++ e.message
  | unexpectedValue value f _ =>
    "unexpected value '" ++ value ++ "' for '" ++ f.label ++ "' found; no more were expected"
  | missingScript _ => "the following required arguments were not provided:\n  " ++ scriptLabel

/-- An argument that looks like an option could have been meant for a script. -/
def tip? : UsageError → Option String
  | unknownLetter letter => some (asScript ("-" ++ letter.toString))
  | unknownName name _ => some (asScript ("--" ++ name))
  | _ => none
where
  asScript (text : String) : String := "to pass '" ++ text ++ "' as a value, use '-- " ++ text ++ "'"

/-- The options of an invocation that would be understood, where one is shown. -/
def usage? : UsageError → Option (List String)
  | unknownName _ (label :: given) => some (label :: given)
  | unknownLetter _ | unknownName _ [] | extraScript _ | repeated _ => some ["[OPTIONS]"]
  | unexpectedValue _ f given => some (given ++ [f.label])
  | missingScript given => some given
  | missingValue _ | badCallDepth .. => none

end UsageError

/-- Why the arguments are not read to their end. -/
inductive Stop where
  | misuse (e : UsageError)
  | help
  | version

/-! ## Reading -/

/-- What takes a value. -/
inductive Slot where
  | script
  | setting (s : Setting)

def Slot.label : Slot → String
  | script => scriptLabel
  | setting s => s.label

/-- The options as far as they have been read. -/
structure Draft where
  script : Option String := none
  switches : List Switch := []
  emit : Option String := none
  maxCallDepth : Option Nat := none
  /-- The options that were given, as they are shown. -/
  given : List String := []
  /-- What takes the last value, or if there is none yet, the next argument. -/
  pending : Option (Slot × Option String) := none
  /-- Options are over. -/
  verbatim : Bool := false

namespace Draft

/-- An option that is given for the first time. -/
def mention (d : Draft) (label : String) : Except Stop Draft :=
  if d.given.contains label then .error (.misuse (.repeated label))
  else .ok { d with given := d.given ++ [label] }

/-- A path. An empty text is none. -/
def pathOf (slot : Slot) (value : String) : Except Stop String :=
  if value.isEmpty then .error (.misuse (.missingValue slot.label)) else .ok value

/-- Gives a slot its value. -/
def assign (d : Draft) (slot : Slot) (value : String) : Except Stop Draft := do
  match slot with
  | .script => return { d with script := some (← pathOf slot value) }
  | .setting .emit =>
    let d ← d.mention Setting.emit.label
    return { d with emit := some (← pathOf slot value) }
  | .setting .callDepth =>
    let d ← d.mention Setting.callDepth.label
    match Text.readWord value with
    | .error e => throw (.misuse (.badCallDepth value e))
    | .ok n => return { d with maxCallDepth := some n }

/-- Settles what is pending. -/
def settle (d : Draft) : Except Stop Draft :=
  match d.pending with
  | none => .ok d
  | some (slot, none) => .error (.misuse (.missingValue slot.label))
  | some (slot, some value) => { d with pending := none }.assign slot value

/-- Follows a flag. -/
def raise (d : Draft) (f : Flag) : Except Stop Draft := do
  let d ← d.settle
  match f with
  | .help => throw .help
  | .version => throw .version
  | .switch s =>
    let d ← d.mention f.label
    return { d with switches := s :: d.switches }

/-- A setting with the value that stands in the same argument, or without. -/
def set (d : Draft) (s : Setting) (value : Option String) : Except Stop Draft := do
  let d ← d.settle
  match value with
  | some value => d.assign (.setting s) value
  | none => return { d with pending := some (.setting s, none) }

/-- A path for the script. There is room for one. -/
def addScript (d : Draft) (path : String) : Except Stop Draft := do
  let d' ← match d.pending, d.script with
    | some (.script, _), _ | _, some _ => throw (.misuse (.extraScript path))
    | _, none => d.settle
  return { d' with pending := some (.script, some path) }

/-- Reads what follows two dashes: a name, and perhaps a value behind an equals sign. -/
def readName (d : Draft) (body : List Char) : Except Stop Draft :=
  let name := String.ofList (body.takeWhile (· ≠ '='))
  let value? := match body.dropWhile (· ≠ '=') with
    | [] => none
    | _ :: value => some (String.ofList value)
  match Flag.ofName? name, Setting.ofName? name, value? with
  | some f, _, none => d.raise f
  | some f, _, some value => .error (.misuse (.unexpectedValue value f d.given))
  | none, some s, value? => d.set s value?
  | none, none, _ => .error (.misuse (.unknownName name d.given))

/-- Reads what follows one dash: letters, of which a setting's takes the rest for its value. -/
def readLetters (d : Draft) : List Char → Except Stop Draft
  | [] => .ok d
  | c :: rest =>
    match Flag.ofLetter? c, Setting.ofLetter? c with
    | some f, _ => do (← d.raise f).readLetters rest
    | none, some s =>
      match rest with
      | [] => d.set s none
      | '=' :: value => d.set s (some (String.ofList value))
      | value => d.set s (some (String.ofList value))
    | none, none => .error (.misuse (.unknownLetter c))

/-- Reads an argument that is no option. -/
def readPlain (d : Draft) (argument : String) : Except Stop Draft :=
  match d.pending with
  | some (slot, none) => .ok { d with pending := some (slot, some argument) }
  | _ => d.addScript argument

/-- Reads one argument. A dash alone is a path like any other. -/
def read (d : Draft) (argument : String) : Except Stop Draft :=
  if d.verbatim then d.addScript argument
  else
    match argument.toList with
    | ['-', '-'] => .ok { d with verbatim := true }
    | '-' :: '-' :: body => d.readName body
    | '-' :: c :: rest => d.readLetters (c :: rest)
    | _ => d.readPlain argument

def finish (d : Draft) : Except Stop Options := do
  let d ← d.settle
  match d.script with
  | none => throw (.misuse (.missingScript d.given))
  | some script =>
    return { script, switches := d.switches, emit := d.emit
             maxCallDepth := d.maxCallDepth.getD defaultCallDepth }

end Draft

/-- The options that some arguments stand for. -/
def Options.ofArguments (arguments : List String) : Except Stop Options := do
  let d ← arguments.foldlM Draft.read {}
  d.finish

end ExactScript.CommandLine
