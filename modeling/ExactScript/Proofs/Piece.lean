import ExactScript.Proofs.Trees
import ExactScript.Program.OfExpr

/-!
# Relocatable code

The compiler puts code together through labels. Here is the same code with positions in their place: a
*piece* has a fixed number of instructions and can be put at any position, on which its jumps depend.
Pieces are joined by `++`; conditionals, loops and functions are joined from smaller pieces and single
jumps over what lies between. A piece also knows which functions are defined in it, and where each of
them is entered.

## Contents
* `FunctionSite`, `Piece`, `Piece.ofList`, `Piece.jumping`, `++`;
* `Piece.logical`, `Piece.cond`, `Piece.loop`, `Piece.function`;
* `Expr.piece`, the code of a tree;
* `CodeAt`, the presence of a piece in a program.
-/

namespace ExactScript

/-- A function, and the position at which a call of it starts. -/
structure FunctionSite where
  entry : Nat
  name : Symbol
  params : List Symbol
  /-- The statements, the last of which gives the result. -/
  body : List (Expr Symbol)

/-- The value that is made of the function. -/
def FunctionSite.ref (s : FunctionSite) : FunctionRef := ⟨s.entry, s.params.length⟩

/-- Code that can be put at any position. -/
structure Piece where
  /-- The number of instructions. -/
  width : Nat
  /-- The instructions, given the position of the first. -/
  code : Nat → List (Instr Nat)
  /-- The functions that are defined in it. -/
  sites : Nat → List FunctionSite
  length_code : ∀ i, (code i).length = width

namespace Piece

attribute [simp] length_code

/-- Instructions that do not depend on their position. -/
def ofList (is : List (Instr Nat)) : Piece := ⟨is.length, fun _ => is, fun _ => [], fun _ => rfl⟩

/-- One instruction that refers to positions relative to its own. -/
def jumping (f : Nat → Instr Nat) : Piece := ⟨1, fun i => [f i], fun _ => [], fun _ => rfl⟩

def append (p q : Piece) : Piece where
  width := p.width + q.width
  code i := p.code i ++ q.code (i + p.width)
  sites i := p.sites i ++ q.sites (i + p.width)
  length_code i := by simp

instance : Append Piece := ⟨append⟩

@[simp] theorem width_ofList (is : List (Instr Nat)) : (ofList is).width = is.length := rfl
@[simp] theorem code_ofList (is : List (Instr Nat)) (i : Nat) : (ofList is).code i = is := rfl
@[simp] theorem width_jumping (f : Nat → Instr Nat) : (jumping f).width = 1 := rfl
@[simp] theorem code_jumping (f : Nat → Instr Nat) (i : Nat) : (jumping f).code i = [f i] := rfl
@[simp] theorem width_append (p q : Piece) : (p ++ q).width = p.width + q.width := rfl
@[simp] theorem code_append (p q : Piece) (i : Nat) :
    (p ++ q).code i = p.code i ++ q.code (i + p.width) := rfl

@[simp] theorem sites_ofList (is : List (Instr Nat)) (i : Nat) : (ofList is).sites i = [] := rfl
@[simp] theorem sites_jumping (f : Nat → Instr Nat) (i : Nat) : (jumping f).sites i = [] := rfl
@[simp] theorem sites_append (p q : Piece) (i : Nat) :
    (p ++ q).sites i = p.sites i ++ q.sites (i + p.width) := rfl

theorem ext {p q : Piece} (hw : p.width = q.width) (hc : ∀ i, p.code i = q.code i)
    (hs : ∀ i, p.sites i = q.sites i) : p = q := by
  obtain ⟨w, c, s, h⟩ := p
  obtain ⟨v, d, t, h'⟩ := q
  obtain rfl : w = v := hw
  obtain rfl : c = d := funext hc
  obtain rfl : s = t := funext hs
  rfl

theorem append_assoc (p q r : Piece) : p ++ q ++ r = p ++ (q ++ r) :=
  ext (Nat.add_assoc ..) (fun i => by simp [Nat.add_assoc]) fun i => by simp [Nat.add_assoc]

@[simp] theorem append_nil (p : Piece) : p ++ ofList [] = p := ext (by simp) (by simp) (by simp)

@[simp] theorem nil_append (p : Piece) : ofList [] ++ p = p := ext (by simp) (by simp) (by simp)

theorem ofList_append (is js : List (Instr Nat)) : ofList is ++ ofList js = ofList (is ++ js) :=
  ext (by simp) (by simp) (by simp)

/-! ## Joints -/

/-- The right operand is skipped when the left one is `decisive`. -/
def logical (decisive : Bool) (left right : Piece) : Piece :=
  left ++ (ofList [.dup] ++ (jumping (fun i => .jumpIf decisive (i + 2 + right.width)) ++
    (ofList [.pop] ++ right)))

/-- One of two alternatives. -/
def cond (test yes no : Piece) : Piece :=
  test ++ (jumping (fun i => .jumpIf false (i + yes.width + 2)) ++ (yes ++
    (jumping (fun i => .jump (i + 1 + no.width)) ++ no)))

/-- `body` as long as `test` holds. -/
def loop (test body : Piece) : Piece :=
  test ++ (jumping (fun i => .jumpIf false (i + body.width + 2)) ++ (body ++
    (jumping (fun i => .jump (i - (test.width + 1 + body.width))) ++ ofList [.pushUnit])))

/-- What a call runs: it stores the arguments and the function itself, and ends with a return. -/
def routine (name : Symbol) (params : List Symbol) (body : Piece) : Piece :=
  ofList (params.reverse.map fun x => .store x.id) ++
    (jumping (fun i => .makeFunction (i - params.length) params.length) ++
      (ofList [.store name.id] ++ (body ++ ofList [.ret])))

/-- The instructions of the definition of a function, with its routine out of line. -/
def definition (name : Symbol) (params : List Symbol) (body : Piece) : Piece :=
  jumping (fun i => .jump (i + 1 + (routine name params body).width)) ++
    (routine name params body ++
      (jumping (fun i => .makeFunction (i - (routine name params body).width) params.length) ++
        ofList [.dup, .store name.id]))

/-- The definition of a function whose statements are `source`. -/
def function (name : Symbol) (params : List Symbol) (source : List (Expr Symbol)) (body : Piece) :
    Piece :=
  { definition name params body with
    sites := fun i => ⟨i + 1, name, params, source⟩ :: (definition name params body).sites i }

section Widths

variable (p q r : Piece) (name : Symbol) (params : List Symbol) (source : List (Expr Symbol))

theorem width_logical (decisive : Bool) : (logical decisive p q).width = p.width + 3 + q.width := by
  simp only [logical, width_append, width_ofList, width_jumping, List.length_cons, List.length_nil]
  omega

theorem width_cond : (cond p q r).width = p.width + 1 + q.width + 1 + r.width := by
  simp only [cond, width_append, width_jumping]
  omega

theorem width_loop : (loop p q).width = p.width + 1 + q.width + 2 := by
  simp only [loop, width_append, width_ofList, width_jumping, List.length_cons, List.length_nil]
  omega

theorem width_routine : (routine name params p).width = params.length + 2 + p.width + 1 := by
  simp only [routine, width_append, width_ofList, width_jumping, List.length_map, List.length_reverse,
    List.length_cons, List.length_nil]
  omega

theorem width_function :
    (function name params source p).width = 1 + (routine name params p).width + 3 := by
  simp only [function, definition, width_append, width_ofList, width_jumping, List.length_cons,
    List.length_nil]
  omega

end Widths

end Piece

/-! ## The code of trees -/

/-- The instructions that keep a changed collection in the variable it came from. -/
def restoreCode : Expr Symbol → List (Instr Nat)
  | .var x => [.dup, .store x.id]
  | _ => []

/-- The instruction that leaves a number. -/
def countCode (n : Nat) : Instr Nat := .push (.num (.ofNat n))

namespace Expr

open Piece (ofList)

mutual

/-- The code of an expression. -/
def piece : Expr Symbol → Piece
  | literal l => ofList [.push l]
  | var x => ofList [.load x.id]
  | declare x value => value.piece ++ ofList [.dup, .store x.id]
  | assign x value => value.piece ++ ofList [.dup, .store x.id]
  | letIn x value body => value.piece ++ (ofList [.store x.id] ++ body.piece)
  | unary op operand => operand.piece ++ ofList [.unary op]
  | binary op left right => left.piece ++ (right.piece ++ ofList [.binary op])
  | logical op left right => .logical op.decisive left.piece right.piece
  | block body => pieceOfBlock body
  | cond test yes no => .cond test.piece (pieceOfBlock yes) (pieceOfAlternative no)
  | loop test body => .loop test.piece (pieceOfBlock body ++ ofList [.pop])
  | count x init test advance body =>
    init.piece ++ (ofList [.store x.id] ++
      .loop test.piece (pieceOfBlock body ++ (ofList [.pop] ++ (advance.piece ++ ofList [.pop]))))
  | print args => pieceOfReversed args ++ ofList [.print args.length]
  | list elems => pieceOfAll elems ++ ofList [countCode elems.length, .buildList]
  | fill value size => value.piece ++ (size.piece ++ ofList [.listFill])
  | map entries => pieceOfEntries entries ++ ofList [countCode entries.length, .buildMap]
  | query op target => target.piece ++ ofList [.query op]
  | update op target arg => target.piece ++ (arg.piece ++ ofList (.update op :: restoreCode target))
  | index target key => target.piece ++ (key.piece ++ ofList [.find])
  | put target key value => pieceOfPut target key.piece value.piece
  | concat parts => pieceOfReversed parts ++ ofList [.strCat parts.length]
  | slice target start stop step =>
    target.piece ++ (start.piece ++ (stop.piece ++ (pieceOfStep step ++ ofList [.strSlice])))
  | function name params body ret =>
    .function name params (body ++ [ret]) (pieceOfStatements body ++ ret.piece)
  | call callee args => pieceOfAll args ++ ofList [.load callee.id, .call args.length]

def pieceOfBlock : List (Expr Symbol) → Piece
  | [] => ofList [.pushUnit]
  | [e] => e.piece
  | e :: f :: es => e.piece ++ (ofList [.pop] ++ pieceOfBlock (f :: es))

def pieceOfAlternative : Option (List (Expr Symbol)) → Piece
  | none => ofList [.pushUnit]
  | some body => pieceOfBlock body

def pieceOfStep : Option (Expr Symbol) → Piece
  | none => ofList [countCode 1]
  | some step => step.piece

def pieceOfStatements : List (Expr Symbol) → Piece
  | [] => ofList []
  | e :: es => e.piece ++ (ofList [.pop] ++ pieceOfStatements es)

def pieceOfAll : List (Expr Symbol) → Piece
  | [] => ofList []
  | e :: es => e.piece ++ pieceOfAll es

def pieceOfReversed : List (Expr Symbol) → Piece
  | [] => ofList []
  | e :: es => pieceOfReversed es ++ e.piece

def pieceOfEntries : List (Expr Symbol × Expr Symbol) → Piece
  | [] => ofList []
  | (k, v) :: es => k.piece ++ (v.piece ++ pieceOfEntries es)

/-- The code that sets the element of a target, given the code of the key and of the value. -/
def pieceOfPut : Expr Symbol → (key value : Piece) → Piece
  | var x, key, value =>
    ofList [.load x.id] ++ (key ++ (value ++ ofList [.put, .dup, .store x.id]))
  | index parent parentKey, key, value =>
    pieceOfPut parent parentKey.piece
      (parent.piece ++ (parentKey.piece ++ (ofList [.find] ++ (key ++ (value ++ ofList [.put])))))
  | _, _, _ => ofList []

end

/-- The code of a whole program. -/
def pieceOfProgram (tree : List (Expr Symbol)) : Piece := pieceOfBlock tree ++ ofList [.halt]

end Expr

/-! ## Presence in a program -/

/-- The instructions `c` stand in `code` from position `i` on. -/
def CodeAt (code : Array (Instr Nat)) (i : Nat) (c : List (Instr Nat)) : Prop := c <+: code.toList.drop i

section CodeAt

variable {code : Array (Instr Nat)} {i : Nat} {c d : List (Instr Nat)} {x : Instr Nat}

theorem codeAt_of_drop (h : code.toList.drop i = c) : CodeAt code i c := ⟨[], by rw [List.append_nil, h]⟩

theorem codeAt_append : CodeAt code i (c ++ d) ↔ CodeAt code i c ∧ CodeAt code (i + c.length) d := by
  unfold CodeAt
  rw [← List.drop_drop]
  constructor
  · intro h
    have hc : c <+: code.toList.drop i := (List.prefix_append c d).trans h
    obtain ⟨r, hr⟩ := hc
    refine ⟨⟨r, hr⟩, ?_⟩
    rw [← hr] at h ⊢
    rw [List.drop_left]
    exact (List.prefix_append_right_inj c).mp h
  · rintro ⟨⟨r, hr⟩, h⟩
    rw [← hr, List.drop_left] at h
    rw [← hr]
    exact (List.prefix_append_right_inj c).mpr h

theorem codeAt_cons : CodeAt code i (x :: c) ↔ code[i]? = some x ∧ CodeAt code (i + 1) c := by
  have h : x :: c = [x] ++ c := rfl
  rw [h, codeAt_append]
  refine and_congr_left fun _ => ?_
  unfold CodeAt
  rw [← Array.getElem?_toList, ← List.head?_drop, List.singleton_prefix_iff_head?_eq_some]

end CodeAt

end ExactScript
