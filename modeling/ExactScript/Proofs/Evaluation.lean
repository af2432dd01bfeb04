import ExactScript.Proofs.Effects
import ExactScript.Proofs.Piece

/-!
# Evaluation of trees

What a tree means, without instructions, jumps or an operand stack: an evaluator that follows the
structure of the tree. It shares the memory and the operations on values with the machine, and knows of
the code only the positions that show in values: where each function is entered and where calls return.

The evaluator is structural in the tree, but for the places where control goes back: the next round of a
loop and the body of a called function are evaluated *again*, with less fuel.

## Contents
* `World`, `Outcome`, `Eval`, the effects of an evaluation;
* `Setting`, and the effects that depend on it;
* `Expr.evalWith`, the evaluator, given what to do where control goes back;
* `Expr.eval`, `evalProgram`, the evaluator with fuel.
-/

namespace ExactScript

/-- What an evaluation can read and change. -/
structure World where
  memory : Memory
  /-- What was printed so far. -/
  output : String

inductive Outcome (α : Type) where
  | value (a : α) (w : World)
  | failure (e : RunError) (w : World)
  /-- There was not enough fuel. -/
  | unfinished

/-- An evaluation with a result of type `α`. -/
def Eval (α : Type) : Type := World → Outcome α

namespace Eval

instance : Monad Eval where
  pure a := fun w => .value a w
  bind ev k := fun w =>
    match ev w with
    | .value a w => k a w
    | .failure e w => .failure e w
    | .unfinished => .unfinished

/-! ## Effects -/

variable {α : Type}

def fail (e : RunError) : Eval α := fun w => .failure e w

/-- Gives up for lack of fuel. -/
def unfinished : Eval α := fun _ => .unfinished

def lift : Except RunError α → Eval α
  | .ok a => pure a
  | .error e => fail e

def load (x : Symbol) : Eval Value := fun w =>
  match w.memory.load x.id with
  | some v => .value v w
  | none => .failure (.unboundSymbol (some x.name) x.id) w

def store (x : Symbol) (v : Value) : Eval Unit := fun w =>
  .value () { w with memory := w.memory.store x.id v }

/-- Stores one value after the other. -/
def storeAll : List Symbol → List Value → Eval Unit
  | x :: xs, v :: vs => do
    store x v
    storeAll xs vs
  | _, _ => pure ()

/-- The truth value on which a branch is taken. -/
def truth (sense : Bool) : Value → Eval Bool
  | .bool b => pure b
  | v => fail (.mismatch (Instr.jumpIf sense ()).mnemonic "bool" v)

/-- Ends the current call. -/
def leave : Eval Unit := fun w =>
  match w.memory.popFrame? with
  | some (_, memory) => .value () { w with memory := memory }
  | none => .failure .returnOutsideFunction w

/-- Keeps a changed collection in the variable it came from. -/
def restore : Expr Symbol → Value → Eval Unit
  | .var x, v => store x v
  | _, _ => pure ()

/-- One round of a loop, and what comes after it. -/
def round {β : Type} (test : Eval Value) (body : Eval β) (next : Eval Value) : Eval Value := do
  let v ← test
  if ← truth false v then
    let _ ← body
    next
  else return .unit

end Eval

/-! ## Settings -/

/-- What an evaluation depends on. -/
structure Setting where
  /-- Every function of the program. -/
  functions : List FunctionSite
  /-- The number of nested calls after which evaluation fails. -/
  maxCallDepth : Nat
  sink : Sink

namespace Setting

variable (s : Setting)

/-- The function that a reference stands for. -/
def site? (f : FunctionRef) : Option FunctionSite := s.functions.find? fun site => site.entry == f.entry

def write (line : String) : Eval Unit := fun w =>
  match s.sink with
  | .accepting => .value () { w with output := w.output ++ line ++ "\n" }
  | .broken reason => .failure (.output reason) w

/-- Prints values on a line, which is the result. -/
def print (vs : List Value) : Eval Value := do
  let line := " ".intercalate (vs.map Value.display)
  s.write line
  return .str line

/-- Starts a call that returns to the position `back`. -/
def enter (f : FunctionRef) (argc back : Nat) : Eval Unit := fun w =>
  if f.arity ≠ argc then .failure (.arityMismatch f.arity argc) w
  else if s.maxCallDepth ≤ w.memory.depth then .failure (.callDepthExceeded s.maxCallDepth) w
  else .value () { w with memory := w.memory.pushFrame { returnAddress := back, function := f } }

/-- Calls a value. The call stores the arguments, the last one first, and the function itself under its
own name; then it evaluates the body, which starts after these stores. -/
def call (again : Nat → Expr Symbol → Eval Value) (callee : Value) (args : List Value) (back : Nat) :
    Eval Value :=
  match callee with
  | .function f => do
    s.enter f args.length back
    match s.site? f with
    | none => .unfinished
    | some site =>
      Eval.storeAll site.params.reverse args.reverse
      Eval.store site.name (.function f)
      let v ← again (site.entry + site.params.length + 2) (.block site.body)
      Eval.leave
      return v
  | other => Eval.fail (.notCallable other.kind)

end Setting

/-! ## Trees -/

namespace Expr

section Evaluator

variable (s : Setting) (again : Nat → Expr Symbol → Eval Value)

mutual

/-- The value of a tree whose code starts at position `i`. Where control goes back, `again` takes over. -/
def evalWith (i : Nat) : Expr Symbol → Eval Value
  | literal l => pure (.ofLiteral l)
  | var x => Eval.load x
  | declare x value => do
    let v ← evalWith i value
    Eval.store x v
    return v
  | assign x value => do
    let v ← evalWith i value
    Eval.store x v
    return v
  | letIn x value body => do
    let v ← evalWith i value
    Eval.store x v
    evalWith (i + value.piece.width + 1) body
  | unary op operand => do
    let v ← evalWith i operand
    Eval.lift (op.apply v)
  | binary op left right => do
    let l ← evalWith i left
    let r ← evalWith (i + left.piece.width) right
    Eval.lift (op.apply l r)
  | logical op left right => do
    let v ← evalWith i left
    if (← Eval.truth op.decisive v) = op.decisive then return v
    else evalWith (i + left.piece.width + 3) right
  | block body => evalBlock i body
  | cond test yes no => do
    let v ← evalWith i test
    if ← Eval.truth false v then evalBlock (i + test.piece.width + 1) yes
    else evalAlternative (i + test.piece.width + 1 + (pieceOfBlock yes).width + 1) no
  | loop test body =>
    Eval.round (evalWith i test) (evalBlock (i + test.piece.width + 1) body) (again i (loop test body))
  | count x init test advance body => do
    let v ← evalWith i init
    Eval.store x v
    -- from here on a loop, with `advance` as the last statement of its body
    let start := i + init.piece.width + 1
    let round := start + test.piece.width + 1
    Eval.round (evalWith start test)
      (do
        let _ ← evalBlock round body
        evalWith (round + (pieceOfBlock body).width + 1) advance)
      (again start (loop test [block body, advance]))
  | print args => do
    let vs ← evalReversed i args
    s.print vs
  | list elems => do
    let vs ← evalAll i elems
    return .list vs
  | fill value size => do
    let v ← evalWith i value
    let n ← evalWith (i + value.piece.width) size
    Eval.lift (v.filled n)
  | map entries => do
    let flat ← evalEntries i entries
    Eval.lift (Value.ofFlat flat)
  | query op target => do
    let v ← evalWith i target
    Eval.lift (op.apply v)
  | update op target arg => do
    let coll ← evalWith i target
    let v ← evalWith (i + target.piece.width) arg
    let r ← Eval.lift (op.apply coll v)
    Eval.restore target r
    return r
  | index target key => do
    let coll ← evalWith i target
    let k ← evalWith (i + target.piece.width) key
    Eval.lift (coll.find k)
  | put target key value =>
    evalPut i target key.piece.width (fun j => evalWith j key) (fun j => evalWith j value)
  | concat parts => do
    let vs ← evalReversed i parts
    Eval.lift (Value.concat vs)
  | slice target start stop step => do
    let v ← evalWith i target
    let v₁ ← evalWith (i + target.piece.width) start
    let v₂ ← evalWith (i + target.piece.width + start.piece.width) stop
    let v₃ ← evalStep (i + target.piece.width + start.piece.width + stop.piece.width) step
    Eval.lift (v.sliced v₁ v₂ v₃)
  | function name params _ _ => do
    let f := .function ⟨i + 1, params.length⟩
    Eval.store name f
    return f
  | call callee args => do
    let vs ← evalAll i args
    let f ← Eval.load callee
    s.call again f vs (i + (pieceOfAll args).width + 2)

/-- The value of the last statement. -/
def evalBlock (i : Nat) : List (Expr Symbol) → Eval Value
  | [] => return .unit
  | [e] => evalWith i e
  | e :: f :: es => do
    let _ ← evalWith i e
    evalBlock (i + e.piece.width + 1) (f :: es)

def evalAlternative (i : Nat) : Option (List (Expr Symbol)) → Eval Value
  | none => return .unit
  | some body => evalBlock i body

/-- The step of a slice, which is one unless it is given. -/
def evalStep (i : Nat) : Option (Expr Symbol) → Eval Value
  | none => return .num (.ofNat 1)
  | some step => evalWith i step

/-- The values from left to right. -/
def evalAll (i : Nat) : List (Expr Symbol) → Eval (List Value)
  | [] => return []
  | e :: es => do
    let v ← evalWith i e
    let vs ← evalAll (i + e.piece.width) es
    return v :: vs

/-- The values, evaluated from right to left. -/
def evalReversed (i : Nat) : List (Expr Symbol) → Eval (List Value)
  | [] => return []
  | e :: es => do
    let vs ← evalReversed i es
    let v ← evalWith (i + (pieceOfReversed es).width) e
    return v :: vs

/-- The keys and values, alternating. -/
def evalEntries (i : Nat) : List (Expr Symbol × Expr Symbol) → Eval (List Value)
  | [] => return []
  | (k, v) :: es => do
    let key ← evalWith i k
    let value ← evalWith (i + k.piece.width) v
    let flat ← evalEntries (i + k.piece.width + v.piece.width) es
    return key :: value :: flat

/-- Sets the element of a target, given the evaluation of the key and of the value. The target is read
before the key. A target that is an element itself is read a second time for the value that it gets. -/
def evalPut (i : Nat) : Expr Symbol → (keyWidth : Nat) → (key value : Nat → Eval Value) → Eval Value
  | var x, keyWidth, key, value => do
    let coll ← Eval.load x
    let k ← key (i + 1)
    let v ← value (i + 1 + keyWidth)
    let r ← Eval.lift (coll.put k v)
    Eval.store x r
    return r
  | index parent parentKey, keyWidth, key, value =>
    evalPut i parent parentKey.piece.width (fun j => evalWith j parentKey) fun j => do
      let outer ← evalWith j parent
      let outerKey ← evalWith (j + parent.piece.width) parentKey
      let coll ← Eval.lift (outer.find outerKey)
      let start := j + parent.piece.width + parentKey.piece.width + 1
      let k ← key start
      let v ← value (start + keyWidth)
      Eval.lift (coll.put k v)
  | _, _, _, _ => .unfinished

end

end Evaluator

/-- The value of a tree whose code starts at position `i`. -/
def eval (s : Setting) : (fuel : Nat) → (i : Nat) → Expr Symbol → Eval Value
  | 0 => evalWith s fun _ _ => .unfinished
  | fuel + 1 => evalWith s (eval s fuel)

end Expr

/-- The value of a program in an empty memory, under a limit on nested calls. -/
def evalProgram (tree : List (Expr Symbol)) (maxCallDepth : Nat) (sink : Sink) (output : String)
    (fuel : Nat) : Outcome Value :=
  Expr.eval { functions := (Expr.pieceOfProgram tree).sites 0, maxCallDepth, sink } fuel 0 (.block tree)
    { memory := .empty, output }

end ExactScript
