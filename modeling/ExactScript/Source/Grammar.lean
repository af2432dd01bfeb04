import ExactScript.Source.Peg

/-!
# The grammar of source text

A program is a list of statements; semicolons between them may be left out. Binary operators bind, from
loose to tight: `or`, `and`, equality, comparison, `++`, sum, product; then the unary operators and powers.
Blanks, line ends and comments from `#` to the end of the line may stand between any two tokens.
-/

namespace ExactScript.Source

open Peg

/-! ## Characters and words -/

def isBlank (c : Char) : Bool := c == ' ' || c == '\t' || c == '\r' || c == '\n'

def isIdentStart (c : Char) : Bool := c.isAlpha || c == '_'

def isIdentChar (c : Char) : Bool := c.isAlphanum || c == '_'

/-- Reads over blanks and comments. `comment` tells whether a comment has begun; the line end that ends
it is a blank itself. -/
def skipFrom (comment : Bool) : List Char → Nat → Cursor
  | [], pos => ⟨[], pos⟩
  | c :: rest, pos =>
    if comment then skipFrom (c != '\n') rest (pos + 1)
    else if isBlank c then skipFrom false rest (pos + 1)
    else if c == '#' then skipFrom true rest (pos + 1)
    else ⟨c :: rest, pos⟩

def skipLayout (c : Cursor) : Cursor := skipFrom false c.rest c.pos

/-- The words that begin or join constructs. -/
inductive Keyword where
  | var | def_ | return_ | if_ | else_ | while_ | for_ | let_ | in_ | print
  deriving DecidableEq

namespace Keyword

def all : List Keyword := [var, def_, return_, if_, else_, while_, for_, let_, in_, print]

def word : Keyword → String
  | var => "var"
  | def_ => "def"
  | return_ => "return"
  | if_ => "if"
  | else_ => "else"
  | while_ => "while"
  | for_ => "for"
  | let_ => "let"
  | in_ => "in"
  | print => "print"

end Keyword

/-- The words that cannot be names. -/
def reservedWords : List String :=
  Keyword.all.map Keyword.word ++ ["true", "false", "and", "or", "not"]

/-! ## Rules -/

inductive Rule where
  | endOfInput
  | file | statements | block | statement
  | declaration | assignment | put
  | functionDef | params | functionBody | returnStatement
  | whileLoop | forLoop | forUpdate
  | expression | orExpr | andExpr | equality | comparison | concat | sum | product
  | unary | power | postfix_
  | orOp | andOp | eqOp | cmpOp | sumOp | productOp | unaryOp | powOp
  | suffix | method | slice | index
  | primary | number | string | stringBody | boolean
  | list | listFill | map | mapEntry
  | args | printCall | call | ifExpr | letExpr | ident
  | keyword (k : Keyword)
  deriving DecidableEq

namespace Rule

/-- Every rule, in the order in which reports list them. -/
def all : List Rule :=
  [endOfInput, file, statements, block, statement, declaration, assignment, put, functionDef, params,
    functionBody, returnStatement, whileLoop, forLoop, forUpdate, expression, orExpr, andExpr, equality,
    comparison, concat, sum, product, unary, power, postfix_, orOp, andOp, eqOp, cmpOp, sumOp, productOp,
    unaryOp, powOp, suffix, method, slice, index, primary, number, string, stringBody, boolean, list,
    listFill, map, mapEntry, args, printCall, call, ifExpr, letExpr, ident] ++ Keyword.all.map keyword

/-- The name of a rule in reports. -/
def name : Rule → String
  | endOfInput => "EOI"
  | file => "file"
  | statements => "statements"
  | block => "block"
  | statement => "statement"
  | declaration => "declaration"
  | assignment => "assignment"
  | put => "put"
  | functionDef => "function_def"
  | params => "params"
  | functionBody => "fn_body"
  | returnStatement => "return_stmt"
  | whileLoop => "while_loop"
  | forLoop => "for_loop"
  | forUpdate => "for_update"
  | expression => "expression"
  | orExpr => "or_expr"
  | andExpr => "and_expr"
  | equality => "equality"
  | comparison => "comparison"
  | concat => "concat"
  | sum => "sum"
  | product => "product"
  | unary => "unary"
  | power => "power"
  | postfix_ => "postfix"
  | orOp => "or_op"
  | andOp => "and_op"
  | eqOp => "eq_op"
  | cmpOp => "cmp_op"
  | sumOp => "sum_op"
  | productOp => "product_op"
  | unaryOp => "unary_op"
  | powOp => "pow_op"
  | suffix => "suffix"
  | method => "method"
  | slice => "slice"
  | index => "index"
  | primary => "primary"
  | number => "number"
  | string => "string"
  | stringBody => "str_inner"
  | boolean => "boolean"
  | list => "list"
  | listFill => "list_fill"
  | map => "map"
  | mapEntry => "map_entry"
  | args => "args"
  | printCall => "print_call"
  | call => "call"
  | ifExpr => "if_expr"
  | letExpr => "let_expr"
  | ident => "ident"
  | keyword k => k.word ++ "_kw"

/-- Tokens are atomic, and nothing is skipped between the quotes of a string. -/
def mode : Rule → Mode
  | orOp | andOp | eqOp | cmpOp | sumOp | productOp | unaryOp | powOp => .atomic
  | number | stringBody | boolean | ident | keyword _ => .atomic
  | string => .compact
  | _ => .spaced

/-! ## Patterns -/

open Pattern

/-- No character that could continue a word. -/
def wordEnd : Pattern Rule := notAhead (char isIdentChar)

/-- A word that is not the beginning of a longer one. -/
def wholeWord (w : String) : Pattern Rule := seq (text w) wordEnd

/-- A keyword that begins or joins a construct. -/
def lead (k : Keyword) : Pattern Rule := seq (ahead (rule (keyword k))) (text k.word)

/-- Operands with operators between them. -/
def chain (operator operand : Rule) : Pattern Rule := separated (rule operator) (rule operand)

/-- Elements between commas, or nothing. -/
def commaList (element : Rule) : Pattern Rule := optional (separated (text ",") (rule element))

def semicolons : Pattern Rule := many (text ";")

def body : Rule → Pattern Rule
  | endOfInput => notAhead (char fun _ => true)
  | file => .all [empty, rule statements, rule endOfInput]
  | statements => .all [semicolons, many (.all [rule statement, semicolons])]
  | block => .all [text "\x7b", rule statements, text "\x7d"]
  | statement =>
    .oneOf [rule functionDef, rule whileLoop, rule forLoop, rule block, rule declaration, rule put,
      rule assignment, rule expression]
  | declaration => .all [lead .var, rule ident, text "=", rule expression]
  | assignment => .all [rule ident, text "=", rule expression]
  | put => .all [rule ident, some (rule index), text "=", rule expression]
  | functionDef =>
    .all [lead .def_, rule ident, text "(", rule params, text ")", rule functionBody]
  | params => commaList ident
  | functionBody =>
    .all [text "\x7b", semicolons,
      many (.all [notAhead (rule (keyword .return_)), rule statement, semicolons]),
      optional (rule returnStatement), semicolons, text "\x7d"]
  | returnStatement => .all [lead .return_, rule expression]
  | whileLoop => .all [lead .while_, text "(", rule expression, text ")", rule block]
  | forLoop =>
    .all [lead .for_, text "(", rule ident, text "=", rule expression, text ";", rule expression,
      text ";", rule forUpdate, text ")", rule block]
  | forUpdate => .oneOf [rule assignment, rule expression]
  | expression => rule orExpr
  | orExpr => chain orOp andExpr
  | andExpr => chain andOp equality
  | equality => chain eqOp comparison
  | comparison => chain cmpOp concat
  | concat => separated (text "++") (rule sum)
  | sum => chain sumOp product
  | product => chain productOp unary
  | unary => .all [many (rule unaryOp), rule power]
  | power => .all [rule postfix_, optional (.all [rule powOp, rule unary])]
  | postfix_ => .all [rule primary, many (rule suffix)]
  | orOp => .oneOf [wholeWord "or", text "||"]
  | andOp => .oneOf [wholeWord "and", text "&&"]
  | eqOp => .oneOf [text "==", text "!="]
  | cmpOp => .oneOf [text "<=", text ">=", text "<", text ">"]
  | sumOp => .oneOf [seq (text "+") (notAhead (text "+")), text "-"]
  | productOp => .oneOf [text "//", seq (text "*") (notAhead (text "*")), text "/", text "%"]
  | unaryOp => .oneOf [text "-", seq (text "!") (notAhead (text "=")), wholeWord "not"]
  | powOp => .oneOf [text "**", text "^"]
  | suffix => .oneOf [rule method, rule slice, rule index]
  | method => .all [text ".", rule ident, optional (.all [text "(", rule args, text ")"])]
  | slice =>
    .all [text "[", rule expression, text ":", rule expression,
      optional (.all [text ":", rule expression]), text "]"]
  | index => .all [text "[", rule expression, text "]"]
  | primary =>
    .oneOf [rule number, rule string, rule boolean, rule listFill, rule list, rule map, rule printCall,
      rule ifExpr, rule letExpr, rule call, rule ident, .all [text "(", rule expression, text ")"]]
  | number =>
    .all [some (char Char.isDigit), optional (.all [text ".", some (char Char.isDigit)])]
  | string => .all [text "\"", rule stringBody, text "\""]
  | stringBody =>
    many (.oneOf [.all [notAhead (.oneOf [text "\"", text "\\"]), char fun _ => true],
      .all [text "\\", char fun _ => true]])
  | boolean => seq (.oneOf [text "true", text "false"]) wordEnd
  | list => .all [text "[", commaList expression, optional (text ","), text "]"]
  | listFill => .all [text "[", rule expression, text ";", rule expression, text "]"]
  | map => .all [text "\x7b", commaList mapEntry, optional (text ","), text "\x7d"]
  | mapEntry => .all [rule expression, text ":", rule expression]
  | args => commaList expression
  | printCall => .all [lead .print, text "(", rule args, text ")"]
  | call => .all [rule ident, text "(", rule args, text ")"]
  | ifExpr =>
    .all [lead .if_, text "(", rule expression, text ")", rule block,
      optional (.all [lead .else_, .oneOf [rule ifExpr, rule block]])]
  | letExpr =>
    .all [lead .let_, rule ident, text "=", rule expression, lead .in_, rule expression]
  | ident =>
    .all [notAhead (seq (.oneOf (reservedWords.map text)) wordEnd), char isIdentStart,
      many (char isIdentChar)]
  | keyword k => wholeWord k.word

end Rule

/-- The grammar of programs. -/
def grammar : Grammar Rule where
  body := Rule.body
  mode := Rule.mode
  skip := skipLayout

end ExactScript.Source
