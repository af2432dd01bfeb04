import ExactScript.Program

/-!
# Programs as bytes

The file format of programs. Every part says where it ends, so what follows a program is left over:

* a natural number is a *varint*: seven bits a byte, low bits first, the top bit set on all bytes but the
  last;
* a list is its length and its elements, a string its length in bytes and its UTF-8 bytes;
* an integer is a sign byte and its magnitude as a list of digits to base 2³², low digit first;
* an instruction is its number in the instruction set and its operands;
* a program is its instructions, the three parts of its version, and the names of its symbols by
  ascending id.

Fractions are written as they are stored. A program of another version is refused, after all of it has
been read.

## Contents
* `Program.encode`, `Program.decode`;
* `CodecError`.
-/

namespace ExactScript

/-- What is wrong with bytes that are no program. -/
inductive CodecError where
  | endOfBuffer
  | badVarint
  | badBool
  | badUtf8
  /-- Read well, but there is no such thing. -/
  | badValue
  | versionMismatch (found : Version)
  deriving DecidableEq

namespace CodecError

/-- The fault of the encoding. A program of another version is encoded well. -/
def fault? : CodecError → Option String
  | endOfBuffer => some "Hit the end of buffer, expected more data"
  | badVarint =>
    some "Found a varint that didn't terminate. Is the usize too big for this platform?"
  | badBool => some "Found a bool that wasn't 0 or 1"
  | badUtf8 => some "Tried to parse invalid utf-8"
  | badValue => some "Serde Deserialization Error"
  | versionMismatch _ => none

def message : CodecError → String
  | versionMismatch found =>
    "Bytecode was compiled by version " ++ found.text ++ ", this is version " ++ Version.current.text
  | e => "Could not encode or decode bytecode: " ++ e.fault?.getD ""

end CodecError

namespace Codec

abbrev Bytes := List UInt8

/-! ## Writing -/

def varint (n : Nat) : Bytes :=
  if n < 128 then [n.toUInt8] else (n % 128 + 128).toUInt8 :: varint (n / 128)
termination_by n
decreasing_by omega

/-- Two to the 32nd, the base of the digits of an integer. -/
def digitBase : Nat := 0x100000000

/-- The digits of a number, low digit first, without leading zeros. -/
def digits (n : Nat) : List Nat :=
  if n = 0 then [] else n % digitBase :: digits (n / digitBase)
termination_by n
decreasing_by exact Nat.div_lt_self (by omega) (by decide)

def sequence {α : Type} (element : α → Bytes) (xs : List α) : Bytes :=
  varint xs.length ++ xs.flatMap element

def integer (i : Int) : Bytes :=
  (if i < 0 then 0xff else if i = 0 then 0 else 1) :: sequence varint (digits i.natAbs)

def fraction (x : Fraction) : Bytes := integer x.num ++ integer x.den

def string (s : String) : Bytes :=
  let bytes := s.toUTF8.toList
  varint bytes.length ++ bytes

def literal : Literal → Bytes
  | .num n => varint 0 ++ fraction n
  | .bool b => varint 1 ++ [if b then 1 else 0]
  | .str s => varint 2 ++ string s

/-- The number of an operator's instruction. -/
def binaryTag : BinaryOp → Nat
  | .add => 4
  | .sub => 5
  | .mul => 6
  | .div => 7
  | .floorDiv => 8
  | .rem => 9
  | .pow => 10
  | .eq => 11
  | .ne => 12
  | .lt => 13
  | .gt => 14
  | .le => 15
  | .ge => 16

def unaryTag : UnaryOp → Nat
  | .neg => 17
  | .not => 18

def queryTag : QueryOp → Nat
  | .head => 30
  | .tail => 31
  | .isEmpty => 32
  | .keys => 35
  | .values => 36
  | .items => 37
  | .length => 39

def updateTag : UpdateOp → Nat
  | .cons => 33
  | .append => 34
  | .delete => 38

def instr : Instr Nat → Bytes
  | .push l => varint 0 ++ literal l
  | .pushUnit => varint 1
  | .pop => varint 2
  | .dup => varint 3
  | .binary op => varint (binaryTag op)
  | .unary op => varint (unaryTag op)
  | .jump t => varint 19 ++ varint t
  | .jumpIf false t => varint 20 ++ varint t
  | .jumpIf true t => varint 21 ++ varint t
  | .load id => varint 22 ++ varint id
  | .store id => varint 23 ++ varint id
  | .strCat n => varint 24 ++ varint n
  | .strSlice => varint 25
  | .print n => varint 26 ++ varint n
  | .buildList => varint 27
  | .buildMap => varint 28
  | .listFill => varint 29
  | .query op => varint (queryTag op)
  | .update op => varint (updateTag op)
  | .find => varint 40
  | .put => varint 41
  | .makeFunction entry arity => varint 42 ++ varint entry ++ varint arity
  | .call n => varint 43 ++ varint n
  | .ret => varint 44
  | .halt => varint 45

def versionParts (v : Version) : Bytes := varint v.major ++ varint v.minor ++ varint v.patch

def nameEntry (e : Nat × String) : Bytes := varint e.1 ++ string e.2

/-! ## Reading -/

/-- Reads a value off the front of some bytes. -/
abbrev Reader (α : Type) := StateT Bytes (Except CodecError) α

variable {α : Type}

def byte : Reader UInt8
  | [] => .error .endOfBuffer
  | b :: rest => .ok (b, rest)

/-- A varint of at most `bytes` bytes, the last of which, if all are needed, is at most `maxLast`. -/
def readVarint (bytes maxLast : Nat) : Reader Nat :=
  match bytes with
  | 0 => fun _ => .error .badVarint
  | bytes + 1 => do
    let b := (← byte).toNat
    if b < 128 then
      if bytes = 0 ∧ maxLast < b then throw .badVarint else return b
    else
      return b - 128 + 128 * (← readVarint bytes maxLast)

/-- A number below 2¹⁶. -/
def word16 : Reader Nat := readVarint 3 3

/-- A number below 2³². -/
def word32 : Reader Nat := readVarint 5 15

/-- A number below 2⁶⁴. -/
def word64 : Reader Nat := readVarint 10 1

def readMany (element : Reader α) : Nat → Reader (List α)
  | 0 => return []
  | n + 1 => do
    let x ← element
    return x :: (← readMany element n)

def readSequence (element : Reader α) : Reader (List α) := do readMany element (← word64)

/-- The number with the given digits, low digit first. -/
def ofDigits : List Nat → Nat
  | [] => 0
  | d :: ds => d + digitBase * ofDigits ds

/-- An integer; the sign byte of zero makes it zero whatever the digits. -/
def readInteger : Reader Int := do
  let sign ← byte
  let sign : Int ←
    if sign = 0xff then pure (-1)
    else if sign = 0 then pure 0
    else if sign = 1 then pure 1
    else throw .badValue
  return sign * ofDigits (← readSequence word32)

def readFraction : Reader Fraction := do
  let num ← readInteger
  let den ← readInteger
  if h : den = 0 then throw .badValue else return ⟨num, den, h⟩

/-- Exactly the next `n` bytes. -/
def take (n : Nat) : Reader Bytes := fun bytes =>
  if bytes.length < n then .error .endOfBuffer else .ok (bytes.take n, bytes.drop n)

def readString : Reader String := do
  let bytes ← take (← word64)
  match String.fromUTF8? bytes.toByteArray with
  | some s => return s
  | none => throw .badUtf8

def readBool : Reader Bool := do
  match (← byte).toNat with
  | 0 => return false
  | 1 => return true
  | _ => throw .badBool

def readLiteral : Reader Literal := do
  match ← word32 with
  | 0 => return .num (← readFraction)
  | 1 => return .bool (← readBool)
  | 2 => return .str (← readString)
  | _ => throw .badValue

def readInstr : Reader (Instr Nat) := do
  match ← word32 with
  | 0 => return .push (← readLiteral)
  | 1 => return .pushUnit
  | 2 => return .pop
  | 3 => return .dup
  | 4 => return .binary .add
  | 5 => return .binary .sub
  | 6 => return .binary .mul
  | 7 => return .binary .div
  | 8 => return .binary .floorDiv
  | 9 => return .binary .rem
  | 10 => return .binary .pow
  | 11 => return .binary .eq
  | 12 => return .binary .ne
  | 13 => return .binary .lt
  | 14 => return .binary .gt
  | 15 => return .binary .le
  | 16 => return .binary .ge
  | 17 => return .unary .neg
  | 18 => return .unary .not
  | 19 => return .jump (← word64)
  | 20 => return .jumpIf false (← word64)
  | 21 => return .jumpIf true (← word64)
  | 22 => return .load (← word64)
  | 23 => return .store (← word64)
  | 24 => return .strCat (← word64)
  | 25 => return .strSlice
  | 26 => return .print (← word64)
  | 27 => return .buildList
  | 28 => return .buildMap
  | 29 => return .listFill
  | 30 => return .query .head
  | 31 => return .query .tail
  | 32 => return .query .isEmpty
  | 33 => return .update .cons
  | 34 => return .update .append
  | 35 => return .query .keys
  | 36 => return .query .values
  | 37 => return .query .items
  | 38 => return .update .delete
  | 39 => return .query .length
  | 40 => return .find
  | 41 => return .put
  | 42 => do
    let entry ← word64
    return .makeFunction entry (← word64)
  | 43 => return .call (← word64)
  | 44 => return .ret
  | 45 => return .halt
  | _ => throw .badValue

def readVersion : Reader Version := do
  let major ← word16
  let minor ← word16
  return ⟨major, minor, ← word16⟩

def readName : Reader (Nat × String) := do
  let id ← word64
  return (id, ← readString)

/-- A program of any version. Of several names for an id the last one stays. -/
def readProgram : Reader Program := do
  let code ← readSequence readInstr
  let version ← readVersion
  let names ← readSequence readName
  return { code := code.toArray, version, names := IdMap.empty.insertAll names }

end Codec

namespace Program

open Codec

/-- The bytes of a program. -/
def encode (p : Program) : Bytes :=
  sequence instr p.code.toList ++ versionParts p.version ++ sequence nameEntry p.names.entries

/-- The program of some bytes. What follows it is ignored. -/
def decode (bytes : Bytes) : Except CodecError Program := do
  let (p, _) ← readProgram bytes
  if p.version = .current then return p else .error (.versionMismatch p.version)

end Program

end ExactScript
