import ExactScript.Dump
import ExactScript.Expr
import ExactScript.Text.Quoted

/-!
# Dumps of trees

The structure of a syntax tree or a resolved tree, for a look at what a source text was taken for.
-/

namespace ExactScript

/-! ## Leaves -/

namespace Dump

def string (s : String) : Dump := atom (Text.quoted s)

def option : Option Dump → Dump
  | none => atom "None"
  | some d => tuple "Some" [d]

end Dump

def Fraction.dump (x : Fraction) : Dump :=
  .record "Ratio" [("numer", .atom (toString x.num)), ("denom", .atom (toString x.den))]

def Literal.dump : Literal → Dump
  | .num n => .tuple "Num" [n.dump]
  | .bool b => .tuple "Bool" [.atom (toString b)]
  | .str s => .tuple "Str" [.string s]

def Symbol.dump (s : Symbol) : Dump :=
  .record "Symbol" [("name", .string s.name), ("id", .tuple "SymbolId" [.atom (toString s.id)])]

def UnaryOp.dump : UnaryOp → Dump
  | .neg => .atom "Neg"
  | .not => .atom "Not"

def BinaryOp.dump : BinaryOp → Dump
  | .add => .atom "Add"
  | .sub => .atom "Sub"
  | .mul => .atom "Mul"
  | .div => .atom "Div"
  | .floorDiv => .atom "FloorDiv"
  | .rem => .atom "Rem"
  | .pow => .atom "Pow"
  | .eq => .atom "Eq"
  | .ne => .atom "Ne"
  | .lt => .atom "Lt"
  | .gt => .atom "Gt"
  | .le => .atom "Le"
  | .ge => .atom "Ge"

def LogicalOp.dump : LogicalOp → Dump
  | .and => .atom "And"
  | .or => .atom "Or"

def QueryOp.dump : QueryOp → Dump
  | .head => .atom "Head"
  | .tail => .atom "Tail"
  | .isEmpty => .atom "IsEmpty"
  | .keys => .atom "Keys"
  | .values => .atom "Values"
  | .items => .atom "Items"
  | .length => .atom "Length"

def UpdateOp.dump : UpdateOp → Dump
  | .cons => .atom "Cons"
  | .append => .atom "Append"
  | .delete => .atom "Delete"

/-! ## Expressions -/

namespace Expr

variable {β : Type} (binding : β → Dump)

/-- A block, given the dumps of its statements. -/
def blockDump (statements : List Dump) : Dump := .tuple "Block" [.list statements]

mutual

/-- The dump of a tree, given the dumps of its bindings. -/
def dump : Expr β → Dump
  | literal l => .tuple "Literal" [l.dump]
  | var x => .tuple "Var" [binding x]
  | declare x value => .record "Declare" [("name", binding x), ("value", value.dump)]
  | assign x value => .record "Assign" [("target", binding x), ("value", value.dump)]
  | letIn x value body =>
    .record "Let" [("name", binding x), ("value", value.dump), ("body", body.dump)]
  | unary op operand => .record "Unary" [("op", op.dump), ("operand", operand.dump)]
  | binary op left right =>
    .record "Binary" [("op", op.dump), ("left", left.dump), ("right", right.dump)]
  | logical op left right =>
    .record "Logical" [("op", op.dump), ("left", left.dump), ("right", right.dump)]
  | block body => .tuple "Block" [blockDump (dumpAll body)]
  | cond test yes no =>
    .record "If" [("cond", test.dump), ("then", blockDump (dumpAll yes)), ("otherwise", dumpAlternative no)]
  | loop test body => .record "While" [("cond", test.dump), ("body", blockDump (dumpAll body))]
  | count x init test advance body =>
    .record "For" [("iterator", binding x), ("init", init.dump), ("cond", test.dump),
      ("update", advance.dump), ("body", blockDump (dumpAll body))]
  | print args => .tuple "Print" [.list (dumpAll args)]
  | list elems => .tuple "List" [.list (dumpAll elems)]
  | fill value size => .record "ListFill" [("value", value.dump), ("count", size.dump)]
  | map entries => .tuple "Map" [.list (dumpEntries entries)]
  | query op target => .record "Query" [("op", op.dump), ("target", target.dump)]
  | update op target arg =>
    .record "Update" [("op", op.dump), ("target", target.dump), ("arg", arg.dump)]
  | index target key => .record "Index" [("target", target.dump), ("key", key.dump)]
  | put target key value =>
    .record "Put" [("target", target.dump), ("key", key.dump), ("value", value.dump)]
  | concat parts => .tuple "Concat" [.list (dumpAll parts)]
  | slice target start stop step =>
    .record "Slice" [("target", target.dump), ("start", start.dump), ("stop", stop.dump),
      ("step", dumpStep step)]
  | function name params body ret =>
    .record "Function" [("name", binding name), ("params", .list (params.map binding)),
      ("body", blockDump (dumpAll body)), ("ret", ret.dump)]
  | call callee args => .record "Call" [("callee", binding callee), ("args", .list (dumpAll args))]

def dumpAll : List (Expr β) → List Dump
  | [] => []
  | e :: es => e.dump :: dumpAll es

def dumpAlternative : Option (List (Expr β)) → Dump
  | none => .option none
  | some body => .option (some (blockDump (dumpAll body)))

def dumpStep : Option (Expr β) → Dump
  | none => .option none
  | some step => .option (some step.dump)

def dumpEntries : List (Expr β × Expr β) → List Dump
  | [] => []
  | (k, v) :: es => .tuple "" [k.dump, v.dump] :: dumpEntries es

end

/-- The text of a block. -/
def dumpText (statements : List (Expr β)) : String := (blockDump (dumpAll binding statements)).render

end Expr

end ExactScript
