/-!
# Exact fractions

A fraction keeps the numerator and the denominator it was written with. Arithmetic always answers in
lowest terms; negation and reciprocals keep the stored form. Two fractions are the *same number* when
their cross products agree, whatever their stored forms.

## Contents
* `Fraction`, `Fraction.ofInt`, `Fraction.reduced`;
* `add`, `sub`, `mul`, `div?`, `neg`, `pow`, `recip?`;
* `same` and `order`, the comparison of values;
* `toWord?`, `toInt64?`, the integers that fit a machine word;
* `text` and `display`.
-/

namespace ExactScript

/-- Two to the 64th, the number of values of a machine word. Counts and indices are smaller than it. -/
def wordSize : Nat := 0x10000000000000000

/-- A stored numerator and denominator, not necessarily in lowest terms. -/
structure Fraction where
  num : Int
  den : Int
  den_ne_zero : den ≠ 0 := by decide
  deriving DecidableEq

namespace Fraction

/-! ## Construction -/

/-- The integer `n` over one. -/
def ofInt (n : Int) : Fraction := ⟨n, 1, by decide⟩

/-- The integer `n` over one. -/
def ofNat (n : Nat) : Fraction := ofInt n

instance : Inhabited Fraction := ⟨ofInt 0⟩

theorem natAbs_div_gcd_ne_zero (n : Int) {d : Int} (hd : d ≠ 0) :
    ((d.natAbs / Int.gcd n d : Nat) : Int) ≠ 0 := by
  have hpos : 0 < d.natAbs := Int.natAbs_pos.mpr hd
  have hle : Int.gcd n d ≤ d.natAbs := Nat.gcd_le_right _ hpos
  have hg : 0 < Int.gcd n d := Nat.gcd_pos_of_pos_right _ hpos
  have : 0 < d.natAbs / Int.gcd n d := Nat.div_pos hle hg
  omega

/-- The value `n / d` in lowest terms: no common divisor, positive denominator. -/
def reduced (n d : Int) (hd : d ≠ 0) : Fraction where
  num := d.sign * n / (Int.gcd n d : Int)
  den := (d.natAbs / Int.gcd n d : Nat)
  den_ne_zero := natAbs_div_gcd_ne_zero n hd

/-- The number written with `digits` before the point and `decimals` after it. -/
def ofDecimal (digits decimals : List Char) : Fraction :=
  let value := (digits ++ decimals).foldl (fun n c => 10 * n + (c.toNat - '0'.toNat)) 0
  reduced (value : Nat) (Nat.pow 10 decimals.length)
    (by exact_mod_cast Nat.pos_iff_ne_zero.mp (Nat.pow_pos (by decide)))

/-! ## Shape -/

/-- Stored as an integer: over one. The number `4/2` as stored is not. -/
def isInteger (x : Fraction) : Bool := x.den == 1

/-- Zero, in any stored form. -/
def isZero (x : Fraction) : Bool := x.num == 0

/-- Lowest terms with a positive denominator. -/
def IsReduced (x : Fraction) : Prop := 0 < x.den ∧ Int.gcd x.num x.den = 1

/-- The numerator, when it is a machine word. -/
def toWord? (x : Fraction) : Option Nat :=
  if 0 ≤ x.num ∧ x.num < wordSize then some x.num.toNat else none

/-- The numerator, when it fits a signed machine word. -/
def toInt64? (x : Fraction) : Option Int :=
  if -0x8000000000000000 ≤ x.num ∧ x.num < 0x8000000000000000 then some x.num else none

/-! ## Arithmetic -/

def add (x y : Fraction) : Fraction :=
  reduced (x.num * y.den + y.num * x.den) (x.den * y.den)
    (Int.mul_ne_zero x.den_ne_zero y.den_ne_zero)

def sub (x y : Fraction) : Fraction :=
  reduced (x.num * y.den - y.num * x.den) (x.den * y.den)
    (Int.mul_ne_zero x.den_ne_zero y.den_ne_zero)

def mul (x y : Fraction) : Fraction :=
  reduced (x.num * y.num) (x.den * y.den) (Int.mul_ne_zero x.den_ne_zero y.den_ne_zero)

/-- The quotient, unless `y` is zero. -/
def div? (x y : Fraction) : Option Fraction :=
  if h : y.num = 0 then none
  else some (reduced (x.num * y.den) (x.den * y.num) (Int.mul_ne_zero x.den_ne_zero h))

/-- Keeps the stored form. -/
def neg (x : Fraction) : Fraction := ⟨-x.num, x.den, x.den_ne_zero⟩

/-- Numerator and denominator change places, the sign goes with the new numerator. -/
def recip? (x : Fraction) : Option Fraction :=
  if h : x.num = 0 then none
  else if 0 < x.num then some ⟨x.den, x.num, h⟩
  else some ⟨-x.den, -x.num, Int.neg_ne_zero.mpr h⟩

/-- Powers by squaring. The first power keeps the stored form, higher ones are in lowest terms. -/
def pow (x : Fraction) (n : Nat) : Fraction :=
  if n = 0 then ofInt 1
  else if n = 1 then x
  else
    let root := pow x (n / 2)
    if n % 2 = 0 then root.mul root else (root.mul root).mul x
termination_by n
decreasing_by omega

/-! ## Comparison -/

/-- The same number: the cross products agree. -/
def same (x y : Fraction) : Bool := x.num * y.den == y.num * x.den

/-- The order of the values. Equal numerators leave the decision to the denominators, which is the
order of the values as long as the denominators have the same sign. -/
def order (x y : Fraction) : Ordering :=
  if x.num = y.num then
    if 0 < x.num then compare y.den x.den
    else if x.num < 0 then compare x.den y.den
    else .eq
  else
    let sign := (x.den * y.den).sign
    compare (sign * (x.num * y.den)) (sign * (y.num * x.den))

/-! ## Text -/

/-- The stored form: the numerator alone when the denominator is one. -/
def text (x : Fraction) : String :=
  if x.den = 1 then toString x.num else toString x.num ++ "/" ++ toString x.den

/-- The form shown to users: as stored, but a zero has no denominator. -/
def display (x : Fraction) : String :=
  if x.num = 0 then "0" else x.text

end Fraction

end ExactScript
