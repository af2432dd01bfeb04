import ExactScript.Expr
import ExactScript.Text.Quoted

/-!
# Values

What a running program computes with. Maps keep their entries in the order of first insertion; their
keys are the numbers, truth values and strings.

## Contents
* `Key`, `FunctionRef`, `Value` and `Kind`;
* `Key.same`, `Value.same`: equality as programs see it;
* `Entries`: the entries of a map, looked up by equal keys;
* `Value.shown`, `Value.display`: the text of a value.
-/

namespace ExactScript

/-- A compiled function: where its code starts, and how many arguments it takes. -/
structure FunctionRef where
  entry : Nat
  arity : Nat
  deriving DecidableEq

/-- The values that can be keys of a map. -/
inductive Key where
  | num (n : Fraction)
  | bool (b : Bool)
  | str (s : String)
  deriving DecidableEq

inductive Value where
  /-- The value of what has no value of its own, such as a loop. -/
  | unit
  | num (n : Fraction)
  | bool (b : Bool)
  | str (s : String)
  | list (elems : List Value)
  | map (entries : List (Key × Value))
  | function (f : FunctionRef)

/-- The kinds of values that messages tell apart. -/
inductive Kind where
  | unit | num | bool | str | list | map | function
  deriving DecidableEq

/-- The entries of a map in insertion order. -/
abbrev Entries (α : Type) := List (Key × α)

namespace Kind

def name : Kind → String
  | unit => "unit"
  | num => "num"
  | bool => "bool"
  | str => "str"
  | list => "list"
  | map => "map"
  | function => "function"

end Kind

/-! ## Keys and entries -/

namespace Key

/-- Equality of keys: numbers by value, whatever their stored forms. -/
def same : Key → Key → Bool
  | num x, num y => x.same y
  | bool x, bool y => x == y
  | str x, str y => x == y
  | _, _ => false

def display : Key → String
  | num n => n.display
  | bool b => toString b
  | str s => Text.quoted s

end Key

namespace Entries

variable {α : Type}

def get? (es : Entries α) (k : Key) : Option α :=
  match es with
  | [] => none
  | (j, v) :: es => if j.same k then some v else get? es k

/-- A key that is present keeps its place and its stored form and takes the new value; a new key goes
to the end. -/
def insert (es : Entries α) (k : Key) (v : α) : Entries α :=
  match es with
  | [] => [(k, v)]
  | (j, w) :: es => if j.same k then (j, v) :: es else (j, w) :: insert es k v

/-- The entries without key `k`, if it was present. -/
def erase? (es : Entries α) (k : Key) : Option (Entries α) :=
  match es with
  | [] => none
  | (j, w) :: es => if j.same k then some es else (erase? es k).map ((j, w) :: ·)

end Entries

namespace Value

/-! ## Kinds and conversions -/

def kind : Value → Kind
  | unit => .unit
  | num _ => .num
  | bool _ => .bool
  | str _ => .str
  | list _ => .list
  | map _ => .map
  | function _ => .function

def ofLiteral : Literal → Value
  | .num n => num n
  | .bool b => bool b
  | .str s => str s

def ofKey : Key → Value
  | .num n => num n
  | .bool b => bool b
  | .str s => str s

/-- The key that a value stands for, if it is of a kind that has keys. -/
def toKey? : Value → Option Key
  | num n => some (.num n)
  | bool b => some (.bool b)
  | str s => some (.str s)
  | _ => none

def ofNat (n : Nat) : Value := num (.ofNat n)

/-! ## Equality -/

mutual

/-- Equality as programs see it: numbers by value, lists element by element, maps by what they hold
under equal keys, in any order. -/
def same : Value → Value → Bool
  | unit, unit => true
  | num x, num y => x.same y
  | bool x, bool y => x == y
  | str x, str y => x == y
  | list xs, list ys => sameElems xs ys
  | map es, map fs => es.length == fs.length && sameEntries es fs
  | function f, function g => f == g
  | _, _ => false

def sameElems : List Value → List Value → Bool
  | [], [] => true
  | x :: xs, y :: ys => x.same y && sameElems xs ys
  | _, _ => false

/-- Every entry of the first list is found in the second with an equal value. -/
def sameEntries : List (Key × Value) → List (Key × Value) → Bool
  | [], _ => true
  | (k, v) :: es, fs =>
    (match Entries.get? fs k with
      | some w => v.same w
      | none => false) && sameEntries es fs

end

/-! ## Text -/

mutual

/-- The text of a value inside a collection: strings are quoted. -/
def shown : Value → String
  | unit => "()"
  | num n => n.display
  | bool b => toString b
  | str s => Text.quoted s
  | list elems => "[" ++ ", ".intercalate (shownElems elems) ++ "]"
  | map entries => "\x7b" ++ ", ".intercalate (shownEntries entries) ++ "\x7d"
  | function f => "<fn@" ++ toString f.entry ++ "/" ++ toString f.arity ++ ">"

def shownElems : List Value → List String
  | [] => []
  | v :: vs => v.shown :: shownElems vs

def shownEntries : List (Key × Value) → List String
  | [] => []
  | (k, v) :: es => (k.display ++ ": " ++ v.shown) :: shownEntries es

end

/-- The text of a value on its own: a string stands for itself. -/
def display : Value → String
  | str s => s
  | v => v.shown

end Value

end ExactScript
