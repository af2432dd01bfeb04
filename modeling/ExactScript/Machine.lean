import ExactScript.Machine.Stack
import ExactScript.Machine.Memory
import ExactScript.Program
import ExactScript.Value.Arithmetic
import ExactScript.Value.Collection

/-!
# The stack machine

Runs a program one instruction at a time. A failing instruction leaves the instruction pointer and the
memory as they were; operands that it had taken off the stack stay off. A machine that has halted or
failed does nothing until it is restarted.

## Contents
* `Machine`, `Status`, `Sink`;
* `load`, `restart`;
* `exec`, the effect of one instruction, and `step`, which keeps the status;
* `execute`, steps up to a bound.
-/

namespace ExactScript

inductive Status where
  | running
  | halted
  | failed
  deriving DecidableEq

/-- Where printed lines go. -/
inductive Sink where
  | accepting
  /-- Every write fails for this reason. -/
  | broken (reason : String)

/-- What a successful step leads to. -/
inductive StepResult where
  | more
  /-- The program has ended with this value. -/
  | done (v : Value)

/-- The number of nested calls that a machine allows unless it is told otherwise. -/
def defaultCallDepth : Nat := 10000

structure Machine where
  program : Program := {}
  ip : Nat := 0
  stack : Stack := []
  memory : Memory := {}
  status : Status := .halted
  /-- The number of nested calls after which execution fails. -/
  maxCallDepth : Nat := defaultCallDepth
  sink : Sink := .accepting
  /-- What was printed so far. -/
  output : String := ""

namespace Machine

instance : Inhabited Machine := ⟨{}⟩

/-! ## Starting -/

/-- Back to the first instruction, with nothing stored. -/
def restart (m : Machine) : Machine :=
  { m with ip := 0, stack := [], memory := .empty, status := .running }

def load (m : Machine) (p : Program) : Machine := restart { m with program := p }

/-- The instruction that is executed next. -/
def current? (m : Machine) : Option (Instr Nat) := m.program.code[m.ip]?

/-- What was printed since the output was last taken. -/
def takeOutput (m : Machine) : String × Machine := (m.output, { m with output := "" })

/-! ## Effects -/

/-- Part of an instruction: it may fail, and keeps what it has done by then. -/
abbrev Action (α : Type) := EStateM RunError Machine α

variable {α : Type}

def onStack (op : Stack.Op α) : Action α := fun m =>
  match op m.stack with
  | .ok a s => .ok a { m with stack := s }
  | .error e s => .error e { m with stack := s }

/-- Goes on at `target`. -/
def goTo (target : Nat) : Action StepResult := fun m => .ok .more { m with ip := target }

/-- Goes on with the next instruction. -/
def advance : Action StepResult := fun m => .ok .more { m with ip := m.ip + 1 }

/-- Pushes a result and goes on. -/
def yield (r : Except RunError Value) : Action StepResult := do
  onStack do Stack.push (← Stack.lift r)
  advance

def readSymbol (id : Nat) : Action Value := fun m =>
  match m.memory.load id with
  | some v => .ok v m
  | none => .error (.unboundSymbol (m.program.nameOf? id) id) m

def writeSymbol (id : Nat) (v : Value) : Action Unit := fun m =>
  .ok () { m with memory := m.memory.store id v }

/-- Writes a line to the output. -/
def writeLine (line : String) : Action Unit := fun m =>
  match m.sink with
  | .accepting => .ok () { m with output := m.output ++ line ++ "\n" }
  | .broken reason => .error (.output reason) m

/-- Starts a call of `f`, which returns to the instruction after the current one. -/
def enter (f : FunctionRef) (argc : Nat) : Action StepResult := fun m =>
  if f.arity ≠ argc then .error (.arityMismatch f.arity argc) m
  else if m.maxCallDepth ≤ m.memory.depth then .error (.callDepthExceeded m.maxCallDepth) m
  else if m.stack.length < argc then .error .stackUnderflow m
  else
    .ok .more
      { m with ip := f.entry, memory := m.memory.pushFrame { returnAddress := m.ip + 1, function := f } }

/-- Ends the current call. -/
def leave : Action StepResult := fun m =>
  match m.memory.popFrame? with
  | some (frame, memory) => .ok .more { m with ip := frame.returnAddress, memory := memory }
  | none => .error .returnOutsideFunction m

/-- Ends the program with the topmost value, or a unit when there is none. -/
def finish : Action StepResult := fun m =>
  match m.stack with
  | [] => .ok (.done .unit) m
  | v :: rest => .ok (.done v) { m with stack := rest }

/-! ## Instructions -/

/-- The effect of one instruction. -/
def exec : Instr Nat → Action StepResult
  | .push l => yield (.ok (.ofLiteral l))
  | .pushUnit => yield (.ok .unit)
  | .pop => do
    let _ ← onStack Stack.pop
    advance
  | .dup => do
    let v ← onStack Stack.peek
    yield (.ok v)
  | .binary op => do
    let r ← onStack Stack.pop
    let l ← onStack Stack.pop
    yield (op.apply l r)
  | .unary op => do
    let v ← onStack Stack.pop
    yield (op.apply v)
  | .jump target => goTo target
  | .jumpIf sense target => do
    let b ← onStack (Stack.popBool (Instr.jumpIf sense target).mnemonic)
    if b = sense then goTo target else advance
  | .load id => do
    let v ← readSymbol id
    yield (.ok v)
  | .store id => do
    let v ← onStack Stack.pop
    writeSymbol id v
    advance
  | .strCat n => do
    let parts ← onStack (Stack.popMany n)
    yield (Value.concat parts)
  | .strSlice => do
    let step ← onStack Stack.pop
    let stop ← onStack Stack.pop
    let start ← onStack Stack.pop
    let s ← onStack (Stack.popStr "STR_SLICE")
    yield (Value.slice s start stop step)
  | .print n => do
    let vs ← onStack (Stack.popMany n)
    let line := " ".intercalate (vs.map Value.display)
    writeLine line
    yield (.ok (.str line))
  | .buildList => do
    let n ← onStack (Stack.popCount "BUILD_LIST")
    let elems ← onStack (Stack.takeTop n)
    yield (.ok (.list elems))
  | .buildMap => do
    let n ← onStack (Stack.popCount "BUILD_MAP")
    let flat ← onStack (Stack.takeTop (2 * n % wordSize))
    yield (Value.ofFlat flat)
  | .listFill => do
    let n ← onStack (Stack.popCount "LIST_FILL")
    let v ← onStack Stack.pop
    yield (v.replicate n)
  | .query op => do
    let v ← onStack Stack.pop
    yield (op.apply v)
  | .update op => do
    let arg ← onStack Stack.pop
    let coll ← onStack Stack.pop
    yield (op.apply coll arg)
  | .find => do
    let key ← onStack Stack.pop
    let coll ← onStack Stack.pop
    yield (coll.find key)
  | .put => do
    let v ← onStack Stack.pop
    let key ← onStack Stack.pop
    let coll ← onStack Stack.pop
    yield (coll.put key v)
  | .makeFunction entry arity => yield (.ok (.function ⟨entry, arity⟩))
  | .call n => do
    match ← onStack Stack.pop with
    | .function f => enter f n
    | other => throw (.notCallable other.kind)
  | .ret => leave
  | .halt => finish

/-! ## Running -/

/-- One step. -/
def step (m : Machine) : Except RunError StepResult × Machine :=
  if m.status ≠ .running then (.error .notRunning, m)
  else
    match m.current? with
    | none => (.error (.instructionOutOfBounds m.ip), { m with status := .failed })
    | some i =>
      match exec i m with
      | .ok .more m => (.ok .more, m)
      | .ok (.done v) m => (.ok (.done v), { m with status := .halted })
      | .error e m => (.error e, { m with status := .failed })

/-- Steps until the program ends or fails. No result means that `fuel` steps were not enough. -/
def execute (fuel : Nat) (m : Machine) : Option (Except RunError Value) × Machine :=
  match fuel with
  | 0 => (none, m)
  | fuel + 1 =>
    match m.step with
    | (.ok .more, m) => execute fuel m
    | (.ok (.done v), m) => (some (.ok v), m)
    | (.error e, m) => (some (.error e), m)

end Machine

end ExactScript
