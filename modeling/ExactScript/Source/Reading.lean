import ExactScript.Expr
import ExactScript.Source.Grammar

/-!
# Reading syntax trees

What the trees of the grammar mean: expressions over names. Text that fits the grammar can still be at
fault, by an unknown method, a method with the wrong number of arguments, or an unknown escape in a
string. Trees are read from left to right and inside out, and the first fault counts.

## Contents
* `Fault`, with the place that is at fault;
* `unescape`, `applyMethod`;
* `readExpr` and `readFile`.
-/

namespace ExactScript.Source

open Peg

/-! ## Faults -/

inductive Problem where
  | unexpectedArguments (method : String)
  | unknownMethod (method : String)
  | oneArgumentExpected (method : String)
  | unknownEscape (c : Char)
  /-- Not a tree of the grammar. -/
  | malformed

namespace Problem

def message : Problem → String
  | unexpectedArguments method => "." ++ method ++ " takes no arguments"
  | unknownMethod method => "unknown method ." ++ method
  | oneArgumentExpected method => "." ++ method ++ " takes exactly one argument"
  | unknownEscape c => "unknown escape sequence \\" ++ String.ofList [c]
  | malformed => "incomplete syntax node"

end Problem

structure Fault where
  problem : Problem
  span : Span

abbrev Reading (α : Type) := Except Fault α

/-- An expression of source text. -/
abbrev Surface := Expr String

/-! ## Tokens -/

/-- The characters that a string literal stands for. -/
def unescape : List Char → Except Problem (List Char)
  | [] => .ok []
  | '\\' :: 'n' :: rest => return '\n' :: (← unescape rest)
  | '\\' :: 't' :: rest => return '\t' :: (← unescape rest)
  | '\\' :: '"' :: rest => return '"' :: (← unescape rest)
  | '\\' :: '\\' :: rest => return '\\' :: (← unescape rest)
  | ['\\'] => .error (.unknownEscape ' ')
  | c :: rest =>
    if c = '\\' then .error (.unknownEscape (rest.headD ' ')) else return c :: (← unescape rest)

/-- The number that a literal stands for. -/
def readNumber (t : List Char) : Fraction :=
  .ofDecimal (t.takeWhile (· != '.')) ((t.dropWhile (· != '.')).drop 1)

/-- The operators with a text of their own; `**` is another way to write `^`. -/
def readBinaryOp (t : List Char) : BinaryOp :=
  let s := String.ofList t
  ((BinaryOp.all.find? fun op => op.symbol == s)).getD .pow

def readUnaryOp (t : List Char) : UnaryOp := if t = ['-'] then .neg else .not

/-- The text of a name. -/
def readName : ParseTree Rule → String
  | .leaf _ _ t => String.ofList t
  | .node _ _ _ => ""

/-! ## Methods -/

def queryNamed? : String → Option QueryOp
  | "head" => some .head
  | "tail" => some .tail
  | "empty" => some .isEmpty
  | "keys" => some .keys
  | "values" => some .values
  | "items" => some .items
  | "length" => some .length
  | _ => none

def updateNamed? : String → Option UpdateOp
  | "cons" => some .cons
  | "append" => some .append
  | "delete" => some .delete
  | _ => none

/-- A method applied to `target`. The parentheses of a query can be left out. -/
def applyMethod (target : Surface) (name : String) (args : Option (List Surface)) :
    Except Problem Surface :=
  match queryNamed? name with
  | some op =>
    match args with
    | none | some [] => .ok (.query op target)
    | some _ => .error (.unexpectedArguments name)
  | none =>
    match updateNamed? name with
    | none => .error (.unknownMethod name)
    | some op =>
      match args with
      | some [arg] => .ok (.update op target arg)
      | _ => .error (.oneArgumentExpected name)

/-! ## Trees -/

/-- Puts a problem at a place. -/
def located {α : Type} (span : Span) : Except Problem α → Reading α
  | .ok a => .ok a
  | .error p => .error ⟨p, span⟩

/-- The node that combines two operands of the operator written as `op`. -/
def combine (op : ParseTree Rule) (l r : Surface) : Surface :=
  match op with
  | .leaf .orOp _ _ => .logical .or l r
  | .leaf .andOp _ _ => .logical .and l r
  | .leaf _ _ t => .binary (readBinaryOp t) l r
  | .node _ _ _ => .binary .pow l r

/-- `x[k₁]…[kₙ] = value`, an element of an element being indexed first. -/
def putAt (target : Surface) (value : Surface) : List Surface → Surface
  | [] => target
  | [key] => .put target key value
  | key :: keys => putAt (.index target key) value keys

mutual

/-- The expression of a tree. -/
def readExpr : ParseTree Rule → Reading Surface
  | .leaf .number _ t => .ok (.literal (.num (readNumber t)))
  | .leaf .boolean _ t => .ok (.literal (.bool (t == "true".toList)))
  | .leaf .ident _ t => .ok (.var (String.ofList t))
  | .leaf _ span _ => .error ⟨.malformed, span⟩
  | .node .string _ [.leaf _ body t] => return .literal (.str (String.ofList (← located body (unescape t))))
  | .node .list _ elems => return .list (← readExprs elems)
  | .node .listFill _ [value, size] => return .fill (← readExpr value) (← readExpr size)
  | .node .map _ entries => return .map (← readEntries entries)
  | .node .printCall _ [.node _ _ args] => return .print (← readExprs args)
  | .node .call _ [name, .node _ _ args] => return .call (readName name) (← readExprs args)
  | .node .ifExpr _ parts => readCond parts
  | .node .letExpr _ [name, value, body] =>
    return .letIn (readName name) (← readExpr value) (← readExpr body)
  | .node .concat _ [part] => readExpr part
  | .node .concat _ parts => return .concat (← readExprs parts)
  | .node .unary _ parts => readUnary parts
  | .node .power _ [base, _, exponent] => return .binary .pow (← readExpr base) (← readExpr exponent)
  | .node .postfix_ _ (first :: suffixes) => do readSuffixes (← readExpr first) suffixes
  | .node .statement _ [s] => readExpr s
  | .node .forUpdate _ [s] => readExpr s
  | .node .declaration _ [name, value] => return .declare (readName name) (← readExpr value)
  | .node .assignment _ [name, value] => return .assign (readName name) (← readExpr value)
  | .node .put _ (name :: parts) => readPut (readName name) [] parts
  | .node .block _ [.node _ _ body] => return .block (← readExprs body)
  | .node .whileLoop _ [test, .node .block _ [.node _ _ body]] =>
    return .loop (← readExpr test) (← readExprs body)
  | .node .forLoop _ [name, init, test, advance, .node .block _ [.node _ _ body]] => do
    let init ← readExpr init
    let test ← readExpr test
    let advance ← readExpr advance
    return .count (readName name) init test advance (← readExprs body)
  | .node .functionDef _ [name, .node _ _ params, .node _ _ body] => do
    let (body, ret) ← readFunctionBody body
    return .function (readName name) (params.map readName) body ret
  | .node .expression _ [e] => readExpr e
  | .node .primary _ [e] => readExpr e
  | .node .orExpr _ (first :: rest) => do readChain (← readExpr first) rest
  | .node .andExpr _ (first :: rest) => do readChain (← readExpr first) rest
  | .node .equality _ (first :: rest) => do readChain (← readExpr first) rest
  | .node .comparison _ (first :: rest) => do readChain (← readExpr first) rest
  | .node .sum _ (first :: rest) => do readChain (← readExpr first) rest
  | .node .product _ (first :: rest) => do readChain (← readExpr first) rest
  | .node .power _ [base] => readExpr base
  | .node _ span _ => .error ⟨.malformed, span⟩

def readExprs : List (ParseTree Rule) → Reading (List Surface)
  | [] => .ok []
  | t :: ts => do
    let e ← readExpr t
    return e :: (← readExprs ts)

/-- Operators and operands in turn, grouped to the left. -/
def readChain (left : Surface) : List (ParseTree Rule) → Reading Surface
  | op :: operand :: rest => do
    let right ← readExpr operand
    readChain (combine op left right) rest
  | _ => .ok left

/-- Operators before their operand. -/
def readUnary : List (ParseTree Rule) → Reading Surface
  | [] => .error ⟨.malformed, ⟨0, 0⟩⟩
  | .leaf _ _ t :: rest => return .unary (readUnaryOp t) (← readUnary rest)
  | operand :: _ => readExpr operand

/-- The suffixes of an operand, each applied to what stands before it. -/
def readSuffixes (target : Surface) : List (ParseTree Rule) → Reading Surface
  | [] => .ok target
  | .node _ _ [.node .method span [name]] :: rest => do
    readSuffixes (← located span (applyMethod target (readName name) none)) rest
  | .node _ _ [.node .method span [name, .node _ _ args]] :: rest => do
    let args ← readExprs args
    readSuffixes (← located span (applyMethod target (readName name) (some args))) rest
  | .node _ _ [.node .slice _ [start, stop]] :: rest => do
    readSuffixes (.slice target (← readExpr start) (← readExpr stop) none) rest
  | .node _ _ [.node .slice _ [start, stop, step]] :: rest => do
    readSuffixes (.slice target (← readExpr start) (← readExpr stop) (some (← readExpr step))) rest
  | .node _ _ [.node .index _ [key]] :: rest => do
    readSuffixes (.index target (← readExpr key)) rest
  | t :: _ => .error ⟨.malformed, match t with | .leaf _ span _ => span | .node _ span _ => span⟩

def readEntries : List (ParseTree Rule) → Reading (List (Surface × Surface))
  | [] => .ok []
  | .node _ _ [k, v] :: rest => do
    let k ← readExpr k
    let v ← readExpr v
    return (k, v) :: (← readEntries rest)
  | .node _ span _ :: _ => .error ⟨.malformed, span⟩
  | .leaf _ span _ :: _ => .error ⟨.malformed, span⟩

/-- A test, a block and perhaps an alternative, which is a block or another conditional. -/
def readCond : List (ParseTree Rule) → Reading Surface
  | [test, .node _ _ [.node _ _ yes]] => return .cond (← readExpr test) (← readExprs yes) none
  | [test, .node _ _ [.node _ _ yes], .node .block _ [.node _ _ no]] => do
    let test ← readExpr test
    let yes ← readExprs yes
    return .cond test yes (some (← readExprs no))
  | [test, .node _ _ [.node _ _ yes], other] => do
    let test ← readExpr test
    let yes ← readExprs yes
    return .cond test yes (some [← readExpr other])
  | _ => .error ⟨.malformed, ⟨0, 0⟩⟩

/-- The keys of an element and the value that it is set to. -/
def readPut (name : String) (keys : List Surface) : List (ParseTree Rule) → Reading Surface
  | [value] => return putAt (.var name) (← readExpr value) keys
  | .node _ _ [key] :: rest => do readPut name (keys ++ [← readExpr key]) rest
  | _ => .error ⟨.malformed, ⟨0, 0⟩⟩

/-- The statements of a function and its result, which is a unit when there is none. -/
def readFunctionBody : List (ParseTree Rule) → Reading (List Surface × Surface)
  | [] => .ok ([], .block [])
  | .node .returnStatement _ [e] :: rest => do
    let e ← readExpr e
    let (body, _) ← readFunctionBody rest
    return (body, e)
  | t :: rest => do
    let s ← readExpr t
    let (body, ret) ← readFunctionBody rest
    return (s :: body, ret)

end

/-- The statements of a whole program. -/
def readFile : ParseTree Rule → Reading (List Surface)
  | .node _ _ (.node _ _ body :: _) => readExprs body
  | .node _ span _ => .error ⟨.malformed, span⟩
  | .leaf _ span _ => .error ⟨.malformed, span⟩

end ExactScript.Source
