/-!
# Operators

The operators of the language, with the symbols that stand for them in source text and in messages, and
the mnemonics of the instructions that apply them.
-/

namespace ExactScript

inductive UnaryOp where
  | neg
  | not
  deriving DecidableEq

inductive BinaryOp where
  | add | sub | mul | div | floorDiv | rem | pow
  | eq | ne | lt | gt | le | ge
  deriving DecidableEq

/-- Operators that evaluate their right operand only when the left one does not decide. -/
inductive LogicalOp where
  | and
  | or
  deriving DecidableEq

/-- Questions about a collection that leave it as it is. -/
inductive QueryOp where
  | head | tail | isEmpty | keys | values | items | length
  deriving DecidableEq

/-- Operations whose result is a changed collection. -/
inductive UpdateOp where
  | cons | append | delete
  deriving DecidableEq

namespace UnaryOp

def symbol : UnaryOp → String
  | neg => "-"
  | not => "!"

def mnemonic : UnaryOp → String
  | neg => "NEG"
  | not => "NOT"

end UnaryOp

namespace BinaryOp

def all : List BinaryOp :=
  [add, sub, mul, div, floorDiv, rem, pow, eq, ne, lt, gt, le, ge]

def symbol : BinaryOp → String
  | add => "+"
  | sub => "-"
  | mul => "*"
  | div => "/"
  | floorDiv => "//"
  | rem => "%"
  | pow => "^"
  | eq => "=="
  | ne => "!="
  | lt => "<"
  | gt => ">"
  | le => "<="
  | ge => ">="

def mnemonic : BinaryOp → String
  | add => "ADD"
  | sub => "SUB"
  | mul => "MUL"
  | div => "DIV"
  | floorDiv => "FLOOR_DIV"
  | rem => "REM"
  | pow => "POW"
  | eq => "EQ"
  | ne => "NE"
  | lt => "LT"
  | gt => "GT"
  | le => "LE"
  | ge => "GE"

/-- Whether the answer is a truth value. -/
def isComparison : BinaryOp → Bool
  | eq | ne | lt | gt | le | ge => true
  | _ => false

end BinaryOp

namespace LogicalOp

def symbol : LogicalOp → String
  | and => "and"
  | or => "or"

end LogicalOp

namespace QueryOp

def all : List QueryOp := [head, tail, isEmpty, keys, values, items, length]

def name : QueryOp → String
  | head => "head"
  | tail => "tail"
  | isEmpty => "is_empty"
  | keys => "keys"
  | values => "values"
  | items => "items"
  | length => "length"

def mnemonic : QueryOp → String
  | head => "HEAD"
  | tail => "TAIL"
  | isEmpty => "IS_EMPTY"
  | keys => "KEYS"
  | values => "VALUES"
  | items => "ITEMS"
  | length => "LENGTH"

end QueryOp

namespace UpdateOp

def all : List UpdateOp := [cons, append, delete]

def name : UpdateOp → String
  | cons => "cons"
  | append => "append"
  | delete => "delete"

def mnemonic : UpdateOp → String
  | cons => "CONS"
  | append => "APPEND"
  | delete => "DELETE"

end UpdateOp

end ExactScript
