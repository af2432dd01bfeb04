import ExactScript.Proofs.Linking

/-!
# Where the code of a subtree stands

The code of a tree contains the code of each of its subtrees, as a part in a row. So what is known of the code
of an expression, wherever it stands, holds of the expression at some position of every program that is
compiled from a tree with this expression in it.

## Contents
* `Piece.PartOf`, code in a fixed place of other code;
* `Expr.partOf_of_child`, one case for each kind of node, and `Expr.partOf_of_mem`, all subtrees;
* `Program.exists_codeAt`, the position in a program.
-/

namespace ExactScript

open ExactScript.Expr (pieceOfBlock pieceOfStatements pieceOfAll pieceOfReversed pieceOfEntries)

namespace Piece

/-- Wherever `q` stands, `r` stands in it, at a fixed distance from the start. -/
def PartOf (r q : Piece) : Prop :=
  ∃ k, ∀ code i, CodeAt code i (q.code i) → CodeAt code (i + k) (r.code (i + k))

namespace PartOf

variable {p q r s : Piece}

theorem refl (q : Piece) : q.PartOf q := ⟨0, fun _ _ h => h⟩

theorem trans (h : r.PartOf q) (h' : q.PartOf p) : r.PartOf p := by
  obtain ⟨k, hk⟩ := h
  obtain ⟨l, hl⟩ := h'
  refine ⟨l + k, fun code i hp => ?_⟩
  rw [← Nat.add_assoc]
  exact hk code (i + l) (hl code i hp)

theorem left (h : r.PartOf p) : r.PartOf (p ++ q) := by
  obtain ⟨k, hk⟩ := h
  exact ⟨k, fun code i hpq => hk code i (codeAt_append.mp hpq).1⟩

theorem right (h : r.PartOf q) : r.PartOf (p ++ q) := by
  obtain ⟨k, hk⟩ := h
  refine ⟨p.width + k, fun code i hpq => ?_⟩
  have hq := (codeAt_append.mp hpq).2
  rw [length_code] at hq
  rw [← Nat.add_assoc]
  exact hk code (i + p.width) hq

theorem function {name : Symbol} {params : List Symbol} {source : List (Expr Symbol)} (h : r.PartOf p) :
    r.PartOf (.function name params source p) :=
  have hdefinition : r.PartOf (.definition name params p) := .right (.left (.right (.right (.right (.left h)))))
  hdefinition

section Lists

variable {es : List (Expr Symbol)} {e : Expr Symbol}

theorem all (he : e ∈ es) : e.piece.PartOf (pieceOfAll es) := by
  induction he with
  | head => exact .left (.refl _)
  | tail _ _ ih => exact .right ih

theorem reversed (he : e ∈ es) : e.piece.PartOf (pieceOfReversed es) := by
  induction he with
  | head => exact .right (.refl _)
  | tail _ _ ih => exact .left ih

theorem statements (he : e ∈ es) : e.piece.PartOf (pieceOfStatements es) := by
  induction he with
  | head => exact .left (.refl _)
  | tail _ _ ih => exact .right (.right ih)

theorem block (he : e ∈ es) : e.piece.PartOf (pieceOfBlock es) := by
  induction he with
  | head es =>
    cases es with
    | nil => exact .refl _
    | cons => exact .left (.refl _)
  | @tail _ es hmem ih =>
    cases es with
    | nil => cases hmem
    | cons => exact .right (.right ih)

theorem entries {es : List (Expr Symbol × Expr Symbol)} {kv : Expr Symbol × Expr Symbol} (h : kv ∈ es) :
    kv.1.piece.PartOf (pieceOfEntries es) ∧ kv.2.piece.PartOf (pieceOfEntries es) := by
  induction h with
  | head => exact ⟨.left (.refl _), .right (.left (.refl _))⟩
  | tail _ _ ih => exact ⟨.right (.right ih.1), .right (.right ih.2)⟩

end Lists

end PartOf

end Piece

namespace Expr

open Piece (PartOf)

/-- The code of the key and of the value is part of the code that sets an element. -/
theorem partOf_pieceOfPut {target : Expr Symbol} (h : target.IsPlace) (key value : Piece) :
    key.PartOf (target.pieceOfPut key value) ∧ value.PartOf (target.pieceOfPut key value) := by
  induction target using induct generalizing key value with
  | var x => exact ⟨.right (.left (.refl _)), .right (.right (.left (.refl _)))⟩
  | index parent parentKey ih =>
    -- all that changes the element is the value of a put at the key of the parent
    have hinner := (ih h parentKey.piece (parent.piece ++ (parentKey.piece ++ (.ofList [.find] ++
      (key ++ (value ++ .ofList [.put])))))).2
    exact ⟨.trans (.right (.right (.right (.left (.refl _))))) hinner,
      .trans (.right (.right (.right (.right (.left (.refl _)))))) hinner⟩
  | _ => exact h.elim

/-- So is the code of the target. -/
theorem partOf_pieceOfPut_target {target : Expr Symbol} (h : target.IsPlace) (key value : Piece) :
    target.piece.PartOf (target.pieceOfPut key value) := by
  cases target with
  | var x => exact .left (.refl _)
  | index parent parentKey =>
    have hparent : parent.IsPlace := h
    have hinner := (partOf_pieceOfPut hparent parentKey.piece
      (parent.piece ++ (parentKey.piece ++ (.ofList [.find] ++ (key ++ (value ++ .ofList [.put])))))).2
    refine .trans ?_ hinner
    have hsplit : parent.piece ++ (parentKey.piece ++ (Piece.ofList [.find] ++
        (key ++ (value ++ .ofList [.put])))) =
        (index parent parentKey).piece ++ (key ++ (value ++ .ofList [.put])) := by
      simp only [piece, Piece.append_assoc]
    rw [hsplit]
    exact .left (.refl _)
  | _ => exact h.elim

/-- **The trees right below.** -/
theorem partOf_of_child {e c : Expr Symbol} (he : e.SetsPlace) (hc : c ∈ e.children) :
    c.piece.PartOf e.piece := by
  cases e with
  | literal l => cases hc
  | var x => cases hc
  | declare x value => exact List.mem_singleton.mp hc ▸ .left (.refl _)
  | assign x value => exact List.mem_singleton.mp hc ▸ .left (.refl _)
  | unary op operand => exact List.mem_singleton.mp hc ▸ .left (.refl _)
  | query op target => exact List.mem_singleton.mp hc ▸ .left (.refl _)
  | letIn x value body =>
    rcases List.mem_pair.mp hc with rfl | rfl
    · exact .left (.refl _)
    · exact .right (.right (.refl _))
  | binary op left right =>
    rcases List.mem_pair.mp hc with rfl | rfl
    · exact .left (.refl _)
    · exact .right (.left (.refl _))
  | logical op left right =>
    rcases List.mem_pair.mp hc with rfl | rfl
    · exact .left (.refl _)
    · exact .right (.right (.right (.right (.refl _))))
  | fill value size =>
    rcases List.mem_pair.mp hc with rfl | rfl
    · exact .left (.refl _)
    · exact .right (.left (.refl _))
  | update op target arg =>
    rcases List.mem_pair.mp hc with rfl | rfl
    · exact .left (.refl _)
    · exact .right (.left (.refl _))
  | index target key =>
    rcases List.mem_pair.mp hc with rfl | rfl
    · exact .left (.refl _)
    · exact .right (.left (.refl _))
  | put target key value =>
    simp only [children, List.mem_cons, List.not_mem_nil, or_false] at hc
    rcases hc with rfl | rfl | rfl
    · exact partOf_pieceOfPut_target he _ _
    · exact (partOf_pieceOfPut he _ _).1
    · exact (partOf_pieceOfPut he _ _).2
  | block body => exact .block hc
  | cond test yes no =>
    rcases List.mem_cons.mp hc with rfl | hc
    · exact .left (.refl _)
    rcases List.mem_append.mp hc with hc | hc
    · exact .right (.right (.left (.block hc)))
    · cases no with
      | none => cases hc
      | some body => exact .right (.right (.right (.right (.block hc))))
  | loop test body =>
    rcases List.mem_cons.mp hc with rfl | hc
    · exact .left (.refl _)
    · exact .right (.right (.left (.left (.block hc))))
  | count x init test advance body =>
    simp only [children, List.mem_cons] at hc
    rcases hc with rfl | rfl | rfl | hc
    · exact .left (.refl _)
    · exact .right (.right (.left (.refl _)))
    · exact .right (.right (.right (.right (.left (.right (.right (.left (.refl _))))))))
    · exact .right (.right (.right (.right (.left (.left (.block hc))))))
  | print args => exact .left (.reversed hc)
  | list elems => exact .left (.all hc)
  | map entries =>
    obtain ⟨kv, hkv, hc⟩ := List.mem_flatMap.mp hc
    obtain ⟨hkey, hvalue⟩ := PartOf.entries hkv
    rcases List.mem_pair.mp hc with rfl | rfl
    · exact .left hkey
    · exact .left hvalue
  | concat parts => exact .left (.reversed hc)
  | slice target start stop step =>
    simp only [children, List.mem_cons] at hc
    rcases hc with rfl | rfl | rfl | hc
    · exact .left (.refl _)
    · exact .right (.left (.refl _))
    · exact .right (.right (.left (.refl _)))
    · cases step with
      | none => cases hc
      | some step =>
        obtain rfl : c = step := List.mem_singleton.mp hc
        exact .right (.right (.right (.left (.refl _))))
  | function name params body ret =>
    refine .function ?_
    rcases List.mem_append.mp hc with hc | hc
    · exact .left (.statements hc)
    · exact List.mem_singleton.mp hc ▸ .right (.refl _)
  | call callee args => exact .left (.all hc)

/-- **All subtrees**, when the tree can be compiled. -/
theorem partOf_of_mem {e t : Expr Symbol} (he : e.Assignable) (ht : t ∈ e.subtrees) :
    t.piece.PartOf e.piece := by
  suffices hall : Everywhere (fun t => t.piece.PartOf e.piece) e from hall t ht
  clear ht
  induction e using induct_children with
  | h e ih =>
    obtain ⟨hplace, hchildren⟩ := assignable_iff.mp he
    refine everywhere_iff.mpr ⟨.refl _, fun c hc => ?_⟩
    have hpart := partOf_of_child hplace hc
    exact fun t ht => (ih c hc (hchildren c hc) t ht).trans hpart

end Expr

/-- **Everything in a tree is compiled**, to the code of the expression wherever this stands. -/
theorem Program.exists_codeAt {tree : List (Expr Symbol)} {p : Program} {e : Expr Symbol}
    (h : Program.ofTree tree = .ok p) (he : e ∈ tree.flatMap Expr.subtrees) :
    ∃ i, CodeAt p.code i (e.piece.code i) := by
  obtain ⟨t, ht, he⟩ := List.mem_flatMap.mp he
  have hpart : e.piece.PartOf (Expr.pieceOfProgram tree) :=
    .left (.trans (Expr.partOf_of_mem (Program.assignable_of_ofTree h t ht) he) (.block ht))
  obtain ⟨k, hk⟩ := hpart
  exact ⟨0 + k, hk p.code 0 (Program.codeAt_of_ofTree h)⟩

end ExactScript
