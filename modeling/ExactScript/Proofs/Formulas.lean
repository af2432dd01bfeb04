import ExactScript.Source.Reading

/-!
# Writing formulas

A *formula* is an expression of operators over natural numbers and names. It is written as a row of tokens
with one blank between any two. The table of levels, from loose to tight, decides where parentheses stand:
an operand is written in parentheses when it binds looser than its place demands, and nowhere else.

Some operators can be written in two ways, as a word or with signs. The style of a text says which one it
uses for each of them.

## Contents
* `isName`, `Name`;
* `Level`, `Infix` and the levels that an operator demands of its operands;
* `Style`, `Token`, and `line`, the characters of a row of tokens;
* `Formula` with its `tree`, its `tokens` and its `text`;
* `EndsBelow`, `BeginsAtom` and `BeginsOperand`, where an operand can end and begin.
-/

namespace ExactScript.Source

open Peg

/-! ## Names -/

/-- A word that can be the name of a variable. -/
def isName (x : String) : Bool :=
  match x.toList with
  | [] => false
  | c :: cs => isIdentStart c && cs.all isIdentChar && !reservedWords.contains x

abbrev Name := { x : String // isName x = true }

/-! ## Levels -/

/-- How tight an expression binds, from loose to tight. -/
inductive Level where
  | or | and | equality | comparison | concat | sum | product | unary | power | atom
  deriving DecidableEq

namespace Level

def rank : Level → Nat
  | or => 0
  | and => 1
  | equality => 2
  | comparison => 3
  | concat => 4
  | sum => 5
  | product => 6
  | unary => 7
  | power => 8
  | atom => 9

/-- The next tighter level. -/
def next : Level → Level
  | or => and
  | and => equality
  | equality => comparison
  | comparison => concat
  | concat => sum
  | sum => product
  | product => unary
  | unary => power
  | power => atom
  | atom => atom

end Level

/-- An operator between two operands. -/
inductive Infix where
  | binary (op : BinaryOp)
  | logical (op : LogicalOp)
  /-- The joint of a concatenation. -/
  | join
  deriving DecidableEq

namespace Infix

def level : Infix → Level
  | logical .or => .or
  | logical .and => .and
  | binary .eq | binary .ne => .equality
  | binary .lt | binary .gt | binary .le | binary .ge => .comparison
  | join => .concat
  | binary .add | binary .sub => .sum
  | binary .mul | binary .div | binary .floorDiv | binary .rem => .product
  | binary .pow => .power

/-- What the left operand has to be. Powers do not group to the left, and the parts of a concatenation are
no concatenations. -/
def left : Infix → Level
  | binary .pow => .atom
  | join => .sum
  | op => op.level

/-- What the right operand has to be. The exponent of a power is unary, which lets powers group to the
right. -/
def right : Infix → Level
  | binary .pow => .unary
  | op => op.level.next

end Infix

/-! ## Tokens -/

/-- The ways to write an operator between two operands. -/
def Infix.signs : Infix → List String
  | logical .or => ["or", "||"]
  | logical .and => ["and", "&&"]
  | binary .pow => ["^", "**"]
  | binary op => [op.symbol]
  | join => ["++"]

/-- The ways to write an operator before its operand. -/
def unarySigns : UnaryOp → List String
  | .neg => ["-"]
  | .not => ["!", "not"]

/-- A way to write each operator. -/
structure Style where
  sign : Infix → String
  unarySign : UnaryOp → String
  sign_mem : ∀ op, sign op ∈ op.signs
  unarySign_mem : ∀ op, unarySign op ∈ unarySigns op

/-- The style that writes every operator in the first way. -/
def Style.usual : Style where
  sign op := op.signs.headD ""
  unarySign op := (unarySigns op).headD ""
  sign_mem op := by
    cases op with
    | binary op => cases op <;> decide
    | logical op => cases op <;> decide
    | join => decide
  unarySign_mem op := by cases op <;> decide

inductive Token where
  | number (n : Nat)
  | name (x : Name)
  | unary (op : UnaryOp)
  | operator (op : Infix)
  | opening
  | closing

/-- The characters of a token. -/
def Token.text (style : Style) : Token → String
  | number n => toString n
  | name x => x.val
  | unary op => style.unarySign op
  | operator op => style.sign op
  | opening => "("
  | closing => ")"

/-- The characters from the end of a token up to the end of the given row. -/
def tail (style : Style) : List Token → List Char
  | [] => []
  | k :: ks => ' ' :: ((k.text style).toList ++ tail style ks)

/-- The characters of a row of tokens. -/
def line (style : Style) : List Token → List Char
  | [] => []
  | k :: ks => (k.text style).toList ++ tail style ks

theorem intercalate_texts (style : Style) (ks : List Token) :
    " ".toList.intercalate (ks.map (String.toList ∘ Token.text style)) = line style ks := by
  have hblank : " ".toList = [' '] := by decide
  rw [hblank]
  induction ks with
  | nil => rfl
  | cons k ks ih =>
    cases ks with
    | nil => rw [List.map_cons, List.map_nil, List.intercalate_singleton, line, tail, List.append_nil]; rfl
    | cons k' ks =>
      rw [List.map_cons, List.map_cons, List.intercalate_cons_cons, ← List.map_cons, ih, List.append_assoc]
      rfl

/-! ## Formulas -/

inductive Formula where
  | number (n : Nat)
  | name (x : Name)
  | unary (op : UnaryOp) (operand : Formula)
  | binary (op : BinaryOp) (left right : Formula)
  | logical (op : LogicalOp) (left right : Formula)
  /-- A concatenation has at least two parts. -/
  | concat (first second : Formula) (more : List Formula)

namespace Formula

/-- **Induction over formulas.** The parts of a concatenation are covered by membership. -/
@[elab_as_elim]
theorem induct {P : Formula → Prop} (number : ∀ n, P (number n)) (name : ∀ x, P (name x))
    (unary : ∀ op operand, P operand → P (unary op operand))
    (binary : ∀ op left right, P left → P right → P (binary op left right))
    (logical : ∀ op left right, P left → P right → P (logical op left right))
    (concat : ∀ first second more, P first → P second → (∀ f ∈ more, P f) →
      P (concat first second more)) :
    ∀ f, P f :=
  @Formula.rec P (fun fs => ∀ f ∈ fs, P f) number name unary binary logical concat
    (fun _ hf => nomatch hf) (fun _ _ hd tl => List.forall_mem_cons.mpr ⟨hd, tl⟩)

mutual

/-- The expression that a formula is. -/
def tree : Formula → Surface
  | number n => .literal (.num (.ofNat n))
  | name x => .var x.val
  | unary op operand => .unary op operand.tree
  | binary op left right => .binary op left.tree right.tree
  | logical op left right => .logical op left.tree right.tree
  | concat first second more => .concat (first.tree :: second.tree :: trees more)

def trees : List Formula → List Surface
  | [] => []
  | f :: fs => f.tree :: trees fs

end

def level : Formula → Level
  | number _ | name _ => .atom
  | unary .. => .unary
  | binary op _ _ => (Infix.binary op).level
  | logical op _ _ => (Infix.logical op).level
  | concat .. => .concat

/-- Puts the tokens of an expression of a level where another level is demanded. -/
def enclose (demanded level : Level) (ks : List Token) : List Token :=
  if demanded.rank ≤ level.rank then ks else .opening :: (ks ++ [.closing])

mutual

/-- The tokens of a formula, with parentheses only where they are demanded. -/
def tokens : Formula → List Token
  | number n => [.number n]
  | name x => [.name x]
  | unary op operand => .unary op :: enclose .unary operand.level operand.tokens
  | binary op left right =>
    enclose (Infix.binary op).left left.level left.tokens ++
      .operator (.binary op) :: enclose (Infix.binary op).right right.level right.tokens
  | logical op left right =>
    enclose (Infix.logical op).left left.level left.tokens ++
      .operator (.logical op) :: enclose (Infix.logical op).right right.level right.tokens
  | concat first second more =>
    enclose Infix.join.left first.level first.tokens ++
      .operator .join :: (enclose Infix.join.right second.level second.tokens ++ joinedTokens more)

/-- The tokens of the parts that follow in a concatenation, each after its joint. -/
def joinedTokens : List Formula → List Token
  | [] => []
  | f :: fs => .operator .join :: (enclose Infix.join.right f.level f.tokens ++ joinedTokens fs)

end

/-- The tokens of a formula where a level is demanded. -/
def placed (demanded : Level) (f : Formula) : List Token := enclose demanded f.level f.tokens

/-- The text of a formula: its tokens with a blank between any two. -/
def text (style : Style) (f : Formula) : String := " ".intercalate (f.tokens.map (Token.text style))

/-- The characters of the text are those of the row of tokens. -/
theorem toList_text (style : Style) (f : Formula) : (f.text style).toList = line style f.tokens := by
  rw [text, String.toList_intercalate, List.map_map]
  exact intercalate_texts style f.tokens

end Formula

/-! ## Where operands begin and end -/

/-- No operator of the given level, or of a tighter one, stands at the beginning of the row. -/
def EndsBelow (level : Level) : List Token → Prop
  | [] => True
  | .closing :: _ => True
  | .operator op :: _ => op.level.rank < level.rank
  | _ => False

theorem EndsBelow.cases {level : Level} {ks : List Token} (h : EndsBelow level ks) :
    ks = [] ∨ (∃ rest, ks = .closing :: rest) ∨
      ∃ op rest, ks = .operator op :: rest ∧ op.level.rank < level.rank := by
  cases ks with
  | nil => exact .inl rfl
  | cons k rest =>
    cases k with
    | closing => exact .inr (.inl ⟨rest, rfl⟩)
    | operator op => exact .inr (.inr ⟨op, rest, rfl, h⟩)
    | number | name | unary | opening => exact h.elim

/-- The row begins with a number, a parenthesis or a name. Behind a name the operand is at its end. -/
def BeginsAtom : List Token → Prop
  | .number _ :: _ => True
  | .name _ :: ks => EndsBelow .atom ks
  | .opening :: _ => True
  | _ => False

theorem BeginsAtom.cases {ks : List Token} (h : BeginsAtom ks) :
    (∃ n rest, ks = .number n :: rest) ∨ (∃ x rest, ks = .name x :: rest ∧ EndsBelow .atom rest) ∨
      ∃ rest, ks = .opening :: rest := by
  cases ks with
  | nil => exact h.elim
  | cons k rest =>
    cases k with
    | number n => exact .inl ⟨n, rest, rfl⟩
    | name x => exact .inr (.inl ⟨x, rest, rfl, h⟩)
    | opening => exact .inr (.inr ⟨rest, rfl⟩)
    | unary | operator | closing => exact h.elim

/-- The row begins as a formula does. -/
def BeginsOperand : List Token → Prop
  | .unary _ :: _ => True
  | ks => BeginsAtom ks

theorem BeginsOperand.cases {ks : List Token} (h : BeginsOperand ks) :
    (∃ op rest, ks = .unary op :: rest) ∨ BeginsAtom ks := by
  cases ks with
  | nil => exact h.elim
  | cons k rest =>
    cases k with
    | unary op => exact .inl ⟨op, rest, rfl⟩
    | number | name | operator | opening | closing => exact .inr h

example : Formula.text .usual (.binary .sub (.number 1) (.binary .sub (.number 2) (.number 3))) =
    "1 - ( 2 - 3 )" := by decide

end ExactScript.Source
