import ExactScript.Program.Assembly

/-!
# The program of a tree

Every expression becomes code that leaves exactly one value on the stack. A block drops the value of
every statement but the last; loops, and conditionals without an alternative, leave a unit.

| Construct | Code |
|---|---|
| `x = e` | `e`, `DUP`, `STORE x` |
| `a and b` | `a`, `DUP`, `JUMP_IF_FALSE end`, `POP`, `b`, `end:` |
| `if` | test, `JUMP_IF_FALSE else`, yes, `JUMP end`, `else:` no, `end:` |
| `while` | `begin:` test, `JUMP_IF_FALSE end`, body, `POP`, `JUMP begin`, `end:` `PUSH_UNIT` |
| `print`, `++` | operands from the last to the first, then the instruction |
| function | `JUMP skip`, `entry:` parameters, own name, body, result, `RETURN`, `skip:` |
| call | arguments, `LOAD` callee, `CALL` |
-/

namespace ExactScript

/-- Code that is added to an assembly, or the reason why it cannot be. -/
abbrev Emitter := Assembly → Except CompileError Assembly

namespace Assembly

/-! ## Pieces of code -/

def pushCount (n : Nat) (a : Assembly) : Assembly := a.emit (.push (.num (.ofNat n)))

/-- Keeps the collection on top of the stack also in the variable that it came from. -/
def restoreInto (target : Expr Symbol) (a : Assembly) : Assembly :=
  match target with
  | .var x => (a.emit .dup).store x
  | _ => a

def storeAll (a : Assembly) (xs : List Symbol) : Assembly := xs.foldl store a

/-- A test and a body that is run as long as the test holds. -/
def emitLoop (test body : Emitter) : Emitter := fun a => do
  let (start, a) := a.newLabel
  let (stop, a) := a.newLabel
  let a ← test (← a.place start)
  let a ← body (a.emit (.jumpIf false stop))
  return (← (a.emit (.jump start)).place stop).emit .pushUnit

end Assembly

namespace LogicalOp

/-- The value of the left operand that decides. -/
def decisive : LogicalOp → Bool
  | and => false
  | or => true

end LogicalOp

/-! ## Expressions -/

namespace Expr

mutual

/-- Appends the code of an expression. -/
def emit : Expr Symbol → Emitter
  | literal l, a => .ok (a.emit (.push l))
  | var x, a => .ok (a.load x)
  | declare x value, a => return ((← value.emit a).emit .dup).store x
  | assign x value, a => return ((← value.emit a).emit .dup).store x
  | letIn x value body, a => do body.emit ((← value.emit a).store x)
  | unary op operand, a => return (← operand.emit a).emit (.unary op)
  | binary op left right, a => return (← right.emit (← left.emit a)).emit (.binary op)
  | logical op left right, a => do
    let (stop, a) := (← left.emit a).newLabel
    let a := ((a.emit .dup).emit (.jumpIf op.decisive stop)).emit .pop
    (← right.emit a).place stop
  | block body, a => emitBlock body a
  | cond test yes no, a => do
    let (other, a) := (← test.emit a).newLabel
    let (stop, a) := a.newLabel
    let a ← emitBlock yes (a.emit (.jumpIf false other))
    (← emitAlternative no (← (a.emit (.jump stop)).place other)).place stop
  | loop test body, a =>
    Assembly.emitLoop test.emit (fun a => return (← emitBlock body a).emit .pop) a
  | count x init test advance body, a => do
    let a := (← init.emit a).store x
    Assembly.emitLoop test.emit
      (fun a => do
        let a := (← emitBlock body a).emit .pop
        return (← advance.emit a).emit .pop)
      a
  | print args, a => return (← emitReversed args a).emit (.print args.length)
  | list elems, a => return ((← emitAll elems a).pushCount elems.length).emit .buildList
  | fill value size, a => return (← size.emit (← value.emit a)).emit .listFill
  | map entries, a => return ((← emitEntries entries a).pushCount entries.length).emit .buildMap
  | query op target, a => return (← target.emit a).emit (.query op)
  | update op target arg, a => do
    let a ← arg.emit (← target.emit a)
    return (a.emit (.update op)).restoreInto target
  | index target key, a => return (← key.emit (← target.emit a)).emit .find
  | put target key value, a => emitPut target key.emit value.emit a
  | concat parts, a => return (← emitReversed parts a).emit (.strCat parts.length)
  | slice target start stop step, a => do
    let a ← stop.emit (← start.emit (← target.emit a))
    return (← emitStep step a).emit .strSlice
  | function name params body ret, a => do
    let (skip, a) := a.newLabel
    let (entry, a) := a.newLabel
    let a ← (a.emit (.jump skip)).place entry
    let a := a.storeAll params.reverse
    let a := (a.emit (.makeFunction entry params.length)).store name
    let a ← ret.emit (← emitStatements body a)
    let a ← (a.emit .ret).place skip
    return ((a.emit (.makeFunction entry params.length)).emit .dup).store name
  | call callee args, a => return ((← emitAll args a).load callee).emit (.call args.length)

/-- The values of all statements but the last are dropped; an empty block leaves a unit. -/
def emitBlock : List (Expr Symbol) → Emitter
  | [], a => .ok (a.emit .pushUnit)
  | [e], a => e.emit a
  | e :: f :: es, a => do emitBlock (f :: es) ((← e.emit a).emit .pop)

/-- A missing alternative leaves a unit. -/
def emitAlternative : Option (List (Expr Symbol)) → Emitter
  | none, a => .ok (a.emit .pushUnit)
  | some body, a => emitBlock body a

/-- A slice takes every character unless it says otherwise. -/
def emitStep : Option (Expr Symbol) → Emitter
  | none, a => .ok (a.pushCount 1)
  | some step, a => step.emit a

/-- The values of all statements are dropped. -/
def emitStatements : List (Expr Symbol) → Emitter
  | [], a => .ok a
  | e :: es, a => do emitStatements es ((← e.emit a).emit .pop)

/-- The values are left on the stack in order. -/
def emitAll : List (Expr Symbol) → Emitter
  | [], a => .ok a
  | e :: es, a => do emitAll es (← e.emit a)

/-- The values are left on the stack with the first on top. -/
def emitReversed : List (Expr Symbol) → Emitter
  | [], a => .ok a
  | e :: es, a => do e.emit (← emitReversed es a)

def emitEntries : List (Expr Symbol × Expr Symbol) → Emitter
  | [], a => .ok a
  | (k, v) :: es, a => do emitEntries es (← v.emit (← k.emit a))

/-- Sets the element of `target` at a key. When `target` is itself an element, the changed element is
put back into its parent, all the way up to a variable. -/
def emitPut : Expr Symbol → (key value : Emitter) → Emitter
  | var x, key, value, a => do
    let a ← value (← key (a.load x))
    return (a.emit .put).restoreInto (.var x)
  | index parent parentKey, key, value, a =>
    emitPut parent parentKey.emit
      (fun a => do
        let a ← parentKey.emit (← parent.emit a)
        let a ← value (← key (a.emit .find))
        return a.emit .put)
      a
  | other, _, _, _ =>
    .error (.unsupportedConstruct ("assigning to an element of a " ++ other.kind))

end

end Expr

/-- The program that runs the statements of a tree and ends with the value of the last one. -/
def Program.ofTree (tree : List (Expr Symbol)) : Except CompileError Program := do
  (← Expr.emitBlock tree .empty).finish

end ExactScript
