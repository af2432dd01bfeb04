import ExactScript.Value

/-!
# Instructions

The instructions of the stack machine, over a type `τ` of jump targets: labels while code is being put
together, positions afterwards. An instruction takes its right operand from the top of the stack.
-/

namespace ExactScript

inductive Instr (τ : Type) where
  | push (l : Literal)
  | pushUnit
  | pop
  | dup
  | binary (op : BinaryOp)
  | unary (op : UnaryOp)
  | jump (target : τ)
  /-- Takes a truth value and jumps when it is `sense`. -/
  | jumpIf (sense : Bool) (target : τ)
  | load (id : Nat)
  | store (id : Nat)
  /-- Joins `n` strings, the topmost first. -/
  | strCat (n : Nat)
  | strSlice
  /-- Writes `n` values in a line, the topmost first, and leaves the line. -/
  | print (n : Nat)
  | buildList
  | buildMap
  | listFill
  | query (op : QueryOp)
  | update (op : UpdateOp)
  | find
  | put
  | makeFunction (entry : τ) (arity : Nat)
  | call (n : Nat)
  | ret
  | halt
  deriving DecidableEq

/-! ## Names -/

namespace Instr

variable {τ υ : Type}

def mnemonic : Instr τ → String
  | push _ => "PUSH"
  | pushUnit => "PUSH_UNIT"
  | pop => "POP"
  | dup => "DUP"
  | binary op => op.mnemonic
  | unary op => op.mnemonic
  | jump _ => "JUMP"
  | jumpIf false _ => "JUMP_IF_FALSE"
  | jumpIf true _ => "JUMP_IF_TRUE"
  | load _ => "LOAD"
  | store _ => "STORE"
  | strCat _ => "STR_CAT"
  | strSlice => "STR_SLICE"
  | print _ => "PRINT"
  | buildList => "BUILD_LIST"
  | buildMap => "BUILD_MAP"
  | listFill => "LIST_FILL"
  | query op => op.mnemonic
  | update op => op.mnemonic
  | find => "FIND"
  | put => "PUT"
  | makeFunction .. => "MAKE_FUNCTION"
  | call _ => "CALL"
  | ret => "RETURN"
  | halt => "HALT"

/-- The instructions that have no operand. -/
def bare : List (Instr τ) :=
  [pushUnit, pop, dup] ++ BinaryOp.all.map binary ++ [unary .neg, unary .not, strSlice, buildList,
    buildMap, listFill] ++ QueryOp.all.map query ++ UpdateOp.all.map update ++ [find, put, ret, halt]

/-! ## Targets -/

/-- Replaces the jump target, and nothing else. -/
def mapTarget {ε : Type} (f : τ → Except ε υ) : Instr τ → Except ε (Instr υ)
  | jump t => return jump (← f t)
  | jumpIf sense t => return jumpIf sense (← f t)
  | makeFunction entry arity => return makeFunction (← f entry) arity
  | push l => .ok (push l)
  | pushUnit => .ok pushUnit
  | pop => .ok pop
  | dup => .ok dup
  | binary op => .ok (binary op)
  | unary op => .ok (unary op)
  | load id => .ok (load id)
  | store id => .ok (store id)
  | strCat n => .ok (strCat n)
  | strSlice => .ok strSlice
  | print n => .ok (print n)
  | buildList => .ok buildList
  | buildMap => .ok buildMap
  | listFill => .ok listFill
  | query op => .ok (query op)
  | update op => .ok (update op)
  | find => .ok find
  | put => .ok put
  | call n => .ok (call n)
  | ret => .ok ret
  | halt => .ok halt

/-! ## Text -/

/-- The operand of a constant. -/
def literalText : Literal → String
  | .num n => n.text
  | .bool b => toString b
  | .str s => Text.quoted s

/-- The instruction as a listing shows it, given the text of a target. -/
def text (target : τ → String) (i : Instr τ) : String :=
  match i with
  | push l => i.mnemonic ++ " " ++ literalText l
  | jump t => i.mnemonic ++ " " ++ target t
  | jumpIf _ t => i.mnemonic ++ " " ++ target t
  | load id => i.mnemonic ++ " " ++ Symbol.idText id
  | store id => i.mnemonic ++ " " ++ Symbol.idText id
  | strCat n => i.mnemonic ++ " " ++ toString n
  | print n => i.mnemonic ++ " " ++ toString n
  | call n => i.mnemonic ++ " " ++ toString n
  | makeFunction entry arity => i.mnemonic ++ " " ++ target entry ++ " " ++ toString arity
  | _ => i.mnemonic

end Instr

end ExactScript
