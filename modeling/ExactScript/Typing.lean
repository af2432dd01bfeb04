import ExactScript.Expr
import ExactScript.IdMap

/-!
# Types

A check before a program is compiled. Types are kept per symbol id, in an index that grows and changes
in the order in which the program is read. What is not known is `any`, which goes with everything, so
the check rejects only programs that are certain to go wrong where they are reached.

## Contents
* `Ty`, compatibility and join;
* `TypeError`;
* `BinaryOp.resultType`, `QueryOp.resultType`, the rules of the operators;
* `Expr.typing`, and `typeIndex` for a whole program.
-/

namespace ExactScript

inductive Ty where
  | num | bool | str | unit | list | map
  | function (arity : Nat) (ret : Ty)
  /-- Not known. -/
  | any
  deriving DecidableEq

namespace Ty

def text : Ty → String
  | num => "num"
  | bool => "bool"
  | str => "str"
  | unit => "unit"
  | list => "list"
  | map => "map"
  | function arity ret => "fn/" ++ toString arity ++ " -> " ++ ret.text
  | any => "any"

/-- `any` goes with everything, a function with the functions of its arity, every other type with
itself. -/
def compatible : Ty → Ty → Bool
  | any, _ => true
  | _, any => true
  | function m _, function n _ => m == n
  | s, t => s == t

/-- The more specific of two compatible types. -/
def join : Ty → Ty → Ty
  | any, t => t
  | s, _ => s

end Ty

inductive TypeError where
  | mismatch (op : String) (left right : Ty)
  | operand (op : String) (found : Ty)
  | condition (found : Ty)
  | branches (yes no : Ty)
  | reassignment (name : String) (declared assigned : Ty)
  | arity (name : String) (expected found : Nat)
  | notCallable (name : String) (found : Ty)
  deriving DecidableEq

namespace TypeError

def message : TypeError → String
  | mismatch op left right =>
    op ++ " can't be applied to " ++ left.text ++ " and " ++ right.text
  | operand op found => op ++ " can't be applied to " ++ found.text
  | condition found => "Conditions must be bool, found " ++ found.text
  | branches yes no =>
    "The branches of an if have different types: " ++ yes.text ++ " and " ++ no.text
  | reassignment name declared assigned =>
    name ++ " was declared as " ++ declared.text ++ ", but is assigned a " ++ assigned.text
  | arity name expected found =>
    name ++ " takes " ++ toString expected ++ " arguments, but " ++ toString found ++ " were given"
  | notCallable name found => name ++ " is a " ++ found.text ++ ", which can't be called"

end TypeError

/-! ## Operators -/

/-- One of the accepted types goes with the type of an operand. -/
def accepts (accepted : List Ty) (found : Ty) : Bool := accepted.any fun t => t.compatible found

/-- Requires an operand of one of the accepted types. -/
def requireOperand (op : String) (accepted : List Ty) (found : Ty) : Except TypeError Unit :=
  if accepts accepted found then .ok () else .error (.operand op found)

def requireCondition (found : Ty) : Except TypeError Unit :=
  if found.compatible .bool then .ok () else .error (.condition found)

namespace BinaryOp

/-- The type of `+`: strings are concatenated, numbers added. -/
def sumType : Ty → Ty → Option Ty
  | .any, .any => some .any
  | l, r =>
    if (l = .str ∧ r.compatible .str) ∨ (r = .str ∧ l.compatible .str) then some .str
    else if l.compatible .num ∧ r.compatible .num then some .num
    else none

/-- The type of an operator applied to operands of the given types. -/
def resultType? (op : BinaryOp) (l r : Ty) : Option Ty :=
  match op with
  | eq | ne => some .bool
  | lt | gt | le | ge => if accepts [.num, .str] l ∧ l.compatible r then some .bool else none
  | add => sumType l r
  | sub | mul | div | floorDiv | rem | pow =>
    if l.compatible .num ∧ r.compatible .num then some .num else none

def resultType (op : BinaryOp) (l r : Ty) : Except TypeError Ty :=
  match op.resultType? l r with
  | some t => .ok t
  | none => .error (.mismatch op.symbol l r)

end BinaryOp

namespace UnaryOp

/-- The type of the operand, which is also the type of the result. -/
def type : UnaryOp → Ty
  | neg => .num
  | not => .bool

end UnaryOp

namespace QueryOp

/-- The types of collections that a query accepts. -/
def accepted : QueryOp → List Ty
  | head | tail => [.list]
  | isEmpty | length => [.list, .map, .str]
  | keys | values | items => [.map]

def resultType : QueryOp → Ty
  | head => .any
  | tail | keys | values | items => .list
  | isEmpty => .bool
  | length => .num

end QueryOp

/-! ## Expressions -/

/-- What is known about symbols, by id. -/
abbrev TypeIndex := IdMap Ty

namespace TypeIndex

/-- The type of a symbol, `any` when nothing is known. -/
def typeOf (g : TypeIndex) (id : Nat) : Ty := (IdMap.get? g id).getD .any

end TypeIndex

def Literal.type : Literal → Ty
  | .num _ => .num
  | .bool _ => .bool
  | .str _ => .str

namespace Expr

/-- The typing of a part of a tree: the index after it, and the type of its value. -/
abbrev Typed := Except TypeError (TypeIndex × Ty)

mutual

def typing : Expr Symbol → TypeIndex → Typed
  | literal l, g => .ok (g, l.type)
  | var x, g => .ok (g, g.typeOf x.id)
  | declare x value, g => do
    let (g, t) ← value.typing g
    return (g.insert x.id t, t)
  | assign x value, g => do
    let (g, assigned) ← value.typing g
    let declared := g.typeOf x.id
    if declared.compatible assigned then return (g.insert x.id (declared.join assigned), assigned)
    else .error (.reassignment x.name declared assigned)
  | letIn x value body, g => do
    let (g, t) ← value.typing g
    body.typing (g.insert x.id t)
  | unary op operand, g => do
    let (g, t) ← operand.typing g
    requireOperand op.symbol [op.type] t
    return (g, op.type)
  | binary op left right, g => do
    let (g, l) ← left.typing g
    let (g, r) ← right.typing g
    return (g, ← op.resultType l r)
  | logical op left right, g => do
    let (g, l) ← left.typing g
    requireOperand op.symbol [.bool] l
    let (g, r) ← right.typing g
    requireOperand op.symbol [.bool] r
    return (g, .bool)
  | block body, g => typingBlock .unit body g
  | cond test yes no, g => do
    let (g, t) ← test.typing g
    requireCondition t
    let (g, y) ← typingBlock .unit yes g
    typingAlternative y no g
  | loop test body, g => do
    let (g, t) ← test.typing g
    requireCondition t
    let (g, _) ← typingBlock .unit body g
    return (g, .unit)
  | count x init test advance body, g => do
    let (g, t) ← init.typing g
    let (g, c) ← test.typing (g.insert x.id t)
    requireCondition c
    let (g, _) ← typingBlock .unit body g
    let (g, _) ← advance.typing g
    return (g, .unit)
  | print args, g => return (← typingAll args g, .str)
  | list elems, g => return (← typingAll elems g, .list)
  | fill value size, g => do
    let (g, _) ← value.typing g
    let (g, n) ← size.typing g
    requireOperand "list fill" [.num] n
    return (g, .list)
  | map entries, g => return (← typingEntries entries g, .map)
  | query op target, g => do
    let (g, t) ← target.typing g
    requireOperand op.name op.accepted t
    return (g, op.resultType)
  | update op target arg, g => do
    let (g, t) ← target.typing g
    let (g, _) ← arg.typing g
    match op with
    | .cons | .append => do
      requireOperand op.name [.list] t
      return (g, .list)
    | .delete => do
      requireOperand op.name [.list, .map] t
      return (g, t)
  | index target key, g => do
    let (g, t) ← target.typing g
    let (g, _) ← key.typing g
    requireOperand "index" [.list, .map, .str] t
    return (g, if t = .str then .str else .any)
  | put target key value, g => do
    let (g, t) ← target.typing g
    let (g, _) ← key.typing g
    let (g, _) ← value.typing g
    requireOperand "put" [.list, .map] t
    return (g, t)
  | concat parts, g => return (← typingParts parts g, .str)
  | slice target start stop step, g => do
    let (g, t) ← target.typing g
    requireOperand "slice" [.str] t
    let (g, b) ← start.typing g
    requireOperand "slice" [.num] b
    let (g, b) ← stop.typing g
    requireOperand "slice" [.num] b
    return (← typingStep step g, .str)
  | function name params body ret, g => do
    -- the body sees the arity of its function, but not yet the type of its result
    let inner := g.insert name.id (.function params.length .any)
    let inner := params.foldl (fun g p => g.insert p.id .any) inner
    let (inner, _) ← typingBlock .unit body inner
    let (_, r) ← ret.typing inner
    let t := Ty.function params.length r
    return (g.insert name.id t, t)
  | call callee args, g => do
    let g ← typingAll args g
    match g.typeOf callee.id with
    | .function arity ret =>
      if arity = args.length then return (g, ret)
      else .error (.arity callee.name arity args.length)
    | .any => return (g, .any)
    | found => .error (.notCallable callee.name found)

/-- The type of a block is the type of its last statement; `last` is the type of the one before. -/
def typingBlock (last : Ty) : List (Expr Symbol) → TypeIndex → Typed
  | [], g => .ok (g, last)
  | e :: es, g => do
    let (g, t) ← e.typing g
    typingBlock t es g

/-- The alternative of a branch of type `yes`. Without one nothing is known about the value. -/
def typingAlternative (yes : Ty) : Option (List (Expr Symbol)) → TypeIndex → Typed
  | none, g => .ok (g, .any)
  | some body, g => do
    let (g, no) ← typingBlock .unit body g
    if yes.compatible no then return (g, yes.join no) else .error (.branches yes no)

def typingStep : Option (Expr Symbol) → TypeIndex → Except TypeError TypeIndex
  | none, g => .ok g
  | some step, g => do
    let (g, b) ← step.typing g
    requireOperand "slice" [.num] b
    return g

def typingAll : List (Expr Symbol) → TypeIndex → Except TypeError TypeIndex
  | [], g => .ok g
  | e :: es, g => do
    let (g, _) ← e.typing g
    typingAll es g

/-- The parts of a concatenation have to be strings. -/
def typingParts : List (Expr Symbol) → TypeIndex → Except TypeError TypeIndex
  | [], g => .ok g
  | e :: es, g => do
    let (g, t) ← e.typing g
    requireOperand "++" [.str] t
    typingParts es g

def typingEntries : List (Expr Symbol × Expr Symbol) → TypeIndex → Except TypeError TypeIndex
  | [], g => .ok g
  | (k, v) :: es, g => do
    let (g, _) ← k.typing g
    let (g, _) ← v.typing g
    typingEntries es g

end

end Expr

/-- The types of the symbols of a program, if it passes the check. -/
def typeIndex (tree : List (Expr Symbol)) : Except TypeError TypeIndex := do
  let (g, _) ← Expr.typingBlock .unit tree .empty
  return g

end ExactScript
