import ExactScript.RunError

/-!
# Lists, maps and strings

The operations on collections. Collections are values: an operation answers with a new collection and
leaves its operand as it was.

## Contents
* building: `ofFlat`, `replicate`, `concat`;
* `QueryOp.apply`, `UpdateOp.apply`;
* `find` and `put`, by index or key;
* `slice`, the characters at an arithmetic progression of positions.
-/

namespace ExactScript

namespace Value

/-! ## Building -/

/-- The key that a value stands for, or the complaint of operation `op`. -/
def key (op : String) (v : Value) : Except RunError Key :=
  match v.toKey? with
  | some k => .ok k
  | none => .error (.mismatch op "num, bool or str" v)

/-- The entries of alternating keys and values; a value without a partner is dropped. -/
def entriesOfFlat (es : Entries Value) : List Value → Except RunError (Entries Value)
  | k :: v :: rest => do entriesOfFlat (Entries.insert es (← k.key "BUILD_MAP") v) rest
  | _ => .ok es

/-- The map of alternating keys and values. -/
def ofFlat (flat : List Value) : Except RunError Value :=
  return .map (← entriesOfFlat [] flat)

/-- Lists of this length or more cannot be stored. -/
def maxListLength : Nat := 1000000000000000000

/-- The list of `count` copies of a value. -/
def replicate (v : Value) (count : Nat) : Except RunError Value :=
  if count < maxListLength then .ok (.list (List.replicate count v))
  else .error (.unsupported "LIST_FILL" (.listTooLong count))

/-- The characters of string values in order. -/
def charsOfAll : List Value → Except RunError (List Char)
  | [] => .ok []
  | .str s :: vs => return s.toList ++ (← charsOfAll vs)
  | other :: _ => .error (.mismatch "STR_CAT" "str" other)

/-- The strings in order, joined to one. -/
def concat (parts : List Value) : Except RunError Value :=
  return .str (String.ofList (← charsOfAll parts))

/-! ## Positions -/

/-- The position in a sequence of the given length that a value names. -/
def position (op : String) (v : Value) (length : Nat) : Except RunError Nat :=
  match v with
  | .num n =>
    if n.isInteger then
      match n.toWord? with
      | some i => if i < length then .ok i else .error (.indexOutOfBounds v length)
      | none => .error (.indexOutOfBounds v length)
    else .error (.mismatch op "integer" v)
  | other => .error (.mismatch op "integer" other)

/-- The number of elements, entries or characters. -/
def length (op : String) : Value → Except RunError Nat
  | .list elems => .ok elems.length
  | .map entries => .ok entries.length
  | .str s => .ok s.length
  | other => .error (.mismatch op "list, map or str" other)

/-- The element of a list, the value under a key of a map, or the character of a string. -/
def find (coll key : Value) : Except RunError Value :=
  match coll with
  | .map entries => do
    let k ← key.key "FIND"
    match Entries.get? entries k with
    | some v => return v
    | none => .error (.keyNotFound k)
  | .list elems => do
    let i ← key.position "FIND" elems.length
    return elems.getD i .unit
  | .str s => do
    let i ← key.position "FIND" s.length
    return .str (String.ofList ((s.toList.drop i).take 1))
  | other => .error (.mismatch "FIND" "list, map or str" other)

/-- Sets an element that the list has, or sets or adds the value under a key of a map. -/
def put (coll key value : Value) : Except RunError Value :=
  match coll with
  | .map entries => return .map (Entries.insert entries (← key.key "PUT") value)
  | .list elems => return .list (elems.set (← key.position "PUT" elems.length) value)
  | other => .error (.mismatch "PUT" "list or map" other)

/-- Removes a key from a map, or a position from a list. -/
def delete (coll key : Value) : Except RunError Value :=
  match coll with
  | .map entries => do
    let k ← key.key "DELETE"
    match Entries.erase? entries k with
    | some rest => return .map rest
    | none => .error (.keyNotFound k)
  | .list elems => return .list (elems.eraseIdx (← key.position "DELETE" elems.length))
  | other => .error (.mismatch "DELETE" "list or map" other)

/-! ## Slices -/

/-- A bound or step of a slice. -/
def sliceBound (v : Value) : Except RunError Int :=
  match v with
  | .num n =>
    if n.isInteger then
      match n.toInt64? with
      | some i => .ok i
      | none => .error (.unsupported "STR_SLICE" (.boundTooLarge n))
    else .error (.mismatch "STR_SLICE" "integer" v)
  | other => .error (.mismatch "STR_SLICE" "integer" other)

/-- A bound counted from the end when it is negative, and kept within reach of the given length. -/
def clampBound (length : Nat) (step bound : Int) : Int :=
  let i := if bound < 0 then bound + length else bound
  if 0 < step then max 0 (min i length) else max (-1) (min i (length - 1))

/-- How many positions `start, start + step, …` come before `stop` in the direction of the step. -/
def sliceCount (start stop step : Int) : Nat :=
  if 0 < step then ((stop - start + step - 1) / step).toNat
  else ((start - stop - step - 1) / -step).toNat

/-- The characters at the positions of a slice. -/
def sliceChars (chars : Array Char) (start stop step : Int) : List Char :=
  let first := clampBound chars.size step start
  let last := clampBound chars.size step stop
  (List.range (sliceCount first last step)).filterMap fun (k : Nat) =>
    chars[(first + step * k).toNat]?

/-- The part of a string from `start` up to but not including `stop`, taking every `step`-th
character, backwards when the step is negative. -/
def slice (s : String) (start stop step : Value) : Except RunError Value := do
  let first ← start.sliceBound
  let last ← stop.sliceBound
  let stride ← step.sliceBound
  if stride = 0 then .error (.unsupported "STR_SLICE" .zeroStep)
  else return .str (String.ofList (sliceChars s.toList.toArray first last stride))

end Value

/-! ## Queries and updates -/

namespace QueryOp

def apply (op : QueryOp) (v : Value) : Except RunError Value :=
  match op with
  | head =>
    match v with
    | .list (x :: _) => .ok x
    | .list [] => .error (.emptyCollection op.mnemonic)
    | other => .error (.mismatch op.mnemonic "list" other)
  | tail =>
    match v with
    | .list (_ :: xs) => .ok (.list xs)
    | .list [] => .error (.emptyCollection op.mnemonic)
    | other => .error (.mismatch op.mnemonic "list" other)
  | isEmpty => return .bool ((← v.length op.mnemonic) == 0)
  | length => return .ofNat (← v.length op.mnemonic)
  | keys =>
    match v with
    | .map entries => .ok (.list (entries.map fun e => .ofKey e.1))
    | other => .error (.mismatch op.mnemonic "map" other)
  | values =>
    match v with
    | .map entries => .ok (.list (entries.map fun e => e.2))
    | other => .error (.mismatch op.mnemonic "map" other)
  | items =>
    match v with
    | .map entries => .ok (.list (entries.map fun e => .list [.ofKey e.1, e.2]))
    | other => .error (.mismatch op.mnemonic "map" other)

end QueryOp

namespace UpdateOp

def apply (op : UpdateOp) (coll arg : Value) : Except RunError Value :=
  match op with
  | cons =>
    match coll with
    | .list elems => .ok (.list (arg :: elems))
    | other => .error (.mismatch op.mnemonic "list" other)
  | append =>
    match coll with
    | .list elems => .ok (.list (elems ++ [arg]))
    | other => .error (.mismatch op.mnemonic "list" other)
  | delete => coll.delete arg

end UpdateOp

end ExactScript
