import ExactScript.Fraction

/-!
# Numerals for machine words

Decimal digits with an optional plus sign in front. The first character at which reading fails decides on
the error: it is no digit, or the number has grown too large.
-/

namespace ExactScript.Text

/-- Why a text is not a machine word. -/
inductive NumeralError where
  | empty
  | invalidDigit
  | tooLarge
  deriving DecidableEq

def NumeralError.message : NumeralError → String
  | empty => "cannot parse integer from empty string"
  | invalidDigit => "invalid digit found in string"
  | tooLarge => "number too large to fit in target type"

/-- Reads digits behind those that make up `n`. -/
def readDigits (n : Nat) : List Char → Except NumeralError Nat
  | [] => .ok n
  | c :: rest =>
    if c.isDigit then
      let next := 10 * n + (c.toNat - '0'.toNat)
      if next < wordSize then readDigits next rest else .error .tooLarge
    else .error .invalidDigit

/-- The machine word that a numeral stands for. A sign alone is no numeral. -/
def readWord (s : String) : Except NumeralError Nat :=
  match s.toList with
  | [] => .error .empty
  | ['+'] => .error .invalidDigit
  | '+' :: digits => readDigits 0 digits
  | digits => readDigits 0 digits

/-- Every word that is read is a machine word. -/
theorem readDigits_lt {n k : Nat} {cs : List Char} (hn : n < wordSize)
    (h : readDigits n cs = .ok k) : k < wordSize := by
  induction cs generalizing n with
  | nil => simp only [readDigits, Except.ok.injEq] at h; omega
  | cons c rest ih =>
    simp only [readDigits] at h
    split at h
    · split at h
      · exact ih ‹_› h
      · cases h
    · cases h

end ExactScript.Text
