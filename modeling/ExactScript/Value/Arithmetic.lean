import ExactScript.RunError

/-!
# Operators on values

What the unary and binary operators compute, and what they refuse. Numbers are exact; strings are
concatenated by `+` and ordered by their code points; any two values can be compared for equality.
-/

namespace ExactScript

/-! ## Operands -/

namespace BinaryOp

/-- Two numbers. The left operand is blamed first. -/
def numbers (op : BinaryOp) (l r : Value) : Except RunError (Fraction × Fraction) :=
  match l, r with
  | .num x, .num y => .ok (x, y)
  | .num _, other => .error (.mismatch op.symbol "num" other)
  | other, _ => .error (.mismatch op.symbol "num" other)

/-- Two numbers stored as integers. -/
def integers (op : BinaryOp) (l r : Value) : Except RunError (Int × Int) := do
  let (x, y) ← op.numbers l r
  if !x.isInteger then .error (.unsupported op.symbol (.notAnInteger x))
  else if !y.isInteger then .error (.unsupported op.symbol (.notAnInteger y))
  else .ok (x.num, y.num)

/-- The order of two numbers or two strings. -/
def ordering (op : BinaryOp) (l r : Value) : Except RunError Ordering :=
  match l, r with
  | .num x, .num y => .ok (x.order y)
  | .str s, .str t => .ok (compare s t)
  | .num _, other => .error (.mismatch op.symbol "num" other)
  | .str _, other => .error (.mismatch op.symbol "str" other)
  | other, _ => .error (.mismatch op.symbol "num or str" other)

end BinaryOp

/-- `base` to the power `exponent`, which has to be stored as an integer and to have the magnitude of a
machine word. -/
def Fraction.power (base exponent : Fraction) : Except RunError Fraction :=
  let op := BinaryOp.pow.symbol
  if !exponent.isInteger then .error (.unsupported op (.exponentNotAnInteger exponent))
  else if wordSize ≤ exponent.num.natAbs then .error (.unsupported op (.exponentTooLarge exponent))
  else
    let power := base.pow exponent.num.natAbs
    if exponent.num < 0 then
      match power.recip? with
      | some inverse => .ok inverse
      | none => .error .divisionByZero
    else .ok power

/-! ## Application -/

namespace BinaryOp

/-- The operator applied to operands in source order. -/
def apply (op : BinaryOp) (l r : Value) : Except RunError Value :=
  match op with
  | eq => .ok (.bool (l.same r))
  | ne => .ok (.bool (!l.same r))
  | lt => return .bool ((← op.ordering l r) == .lt)
  | gt => return .bool ((← op.ordering l r) == .gt)
  | le => return .bool ((← op.ordering l r) != .gt)
  | ge => return .bool ((← op.ordering l r) != .lt)
  | add =>
    match l, r with
    | .str s, .str t => .ok (.str (s ++ t))
    | l, r => do
      let (x, y) ← op.numbers l r
      return .num (x.add y)
  | sub => do
    let (x, y) ← op.numbers l r
    return .num (x.sub y)
  | mul => do
    let (x, y) ← op.numbers l r
    return .num (x.mul y)
  | div => do
    let (x, y) ← op.numbers l r
    match x.div? y with
    | some q => return .num q
    | none => .error .divisionByZero
  | floorDiv => do
    let (x, y) ← op.integers l r
    if y = 0 then .error .divisionByZero else return .num (.ofInt (Int.fdiv x y))
  | rem => do
    let (x, y) ← op.integers l r
    if y = 0 then .error .divisionByZero else return .num (.ofInt (Int.fmod x y))
  | pow => do
    let (x, y) ← op.numbers l r
    return .num (← x.power y)

end BinaryOp

namespace UnaryOp

def apply (op : UnaryOp) (v : Value) : Except RunError Value :=
  match op, v with
  | neg, .num n => .ok (.num n.neg)
  | neg, other => .error (.mismatch op.mnemonic "num" other)
  | not, .bool b => .ok (.bool (!b))
  | not, other => .error (.mismatch op.mnemonic "bool" other)

end UnaryOp

end ExactScript
