import ExactScript.Fraction
import ExactScript.Operator

/-!
# Expressions

The trees of the language, over a type `β` of bindings. Source text gives trees over names; resolution
gives trees over symbols, where every occurrence of a name carries the id of its declaration. Statements
are expressions too: every node has a value.
-/

namespace ExactScript

/-- A constant in a tree or an instruction. -/
inductive Literal where
  | num (n : Fraction)
  | bool (b : Bool)
  | str (s : String)
  deriving DecidableEq

/-- A name together with the id of the declaration it refers to. -/
structure Symbol where
  name : String
  id : Nat
  deriving DecidableEq

namespace Symbol

/-- The form `#id` that messages and listings give to an id. -/
def idText (id : Nat) : String := "#" ++ toString id

/-- The name followed by the id. -/
def text (s : Symbol) : String := s.name ++ idText s.id

end Symbol

/-- An expression or statement. A list of them is a block. -/
inductive Expr (β : Type) where
  | literal (l : Literal)
  | var (x : β)
  /-- Binds a new name in the current scope. -/
  | declare (x : β) (value : Expr β)
  | assign (x : β) (value : Expr β)
  /-- Binds a name in `body` only. -/
  | letIn (x : β) (value body : Expr β)
  | unary (op : UnaryOp) (operand : Expr β)
  | binary (op : BinaryOp) (left right : Expr β)
  | logical (op : LogicalOp) (left right : Expr β)
  | block (body : List (Expr β))
  | cond (test : Expr β) (yes : List (Expr β)) (no : Option (List (Expr β)))
  | loop (test : Expr β) (body : List (Expr β))
  /-- `for (x = init; test; advance) body`. -/
  | count (x : β) (init test advance : Expr β) (body : List (Expr β))
  | print (args : List (Expr β))
  | list (elems : List (Expr β))
  /-- A list of `size` copies. -/
  | fill (value size : Expr β)
  | map (entries : List (Expr β × Expr β))
  | query (op : QueryOp) (target : Expr β)
  | update (op : UpdateOp) (target arg : Expr β)
  | index (target key : Expr β)
  /-- `target[key] = value`. -/
  | put (target key value : Expr β)
  | concat (parts : List (Expr β))
  | slice (target start stop : Expr β) (step : Option (Expr β))
  /-- `ret` is the value of a call, after the statements of `body`. -/
  | function (name : β) (params : List β) (body : List (Expr β)) (ret : Expr β)
  | call (callee : β) (args : List (Expr β))

namespace Expr

variable {β : Type}

/-- The kind of node, as messages name it. -/
def kind : Expr β → String
  | literal _ => "literal"
  | var _ => "variable"
  | declare .. => "declaration"
  | assign .. => "assignment"
  | letIn .. => "let"
  | unary .. => "unary operation"
  | binary .. => "binary operation"
  | logical .. => "logical operation"
  | block _ => "block"
  | cond .. => "if"
  | loop .. => "while"
  | count .. => "for"
  | print _ => "print"
  | list _ => "list literal"
  | fill .. => "list fill"
  | map _ => "map literal"
  | query .. => "query"
  | update .. => "update"
  | index .. => "index"
  | put .. => "put"
  | concat _ => "concatenation"
  | slice .. => "slice"
  | function .. => "function definition"
  | call .. => "call"

end Expr

end ExactScript
