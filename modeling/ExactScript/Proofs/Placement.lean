import ExactScript.Proofs.Trees

/-!
# Where declarations stand

A tree may have its declarations and function definitions only as statements: never as operands, whose values
are needed at once and whose order of evaluation is none of the reader's business. That source text gives no
other trees is a fact about the grammar, shown where text is read.

## Contents
* `Expr.operands` and `Expr.statements`, the two ways to stand below a node;
* `Expr.Placed`, no declaration is an operand, and `Expr.Plain`, what may be an operand itself.
-/

namespace ExactScript

namespace Expr

variable {β : Type}

/-- The node declares a name for what follows it. -/
def IsDeclaration : Expr β → Prop
  | declare _ _ => True
  | function _ _ _ _ => True
  | _ => False

/-- The trees below a node whose values are used by the node. -/
def operands : Expr β → List (Expr β)
  | block _ => []
  | cond test _ _ => [test]
  | loop test _ => [test]
  | count _ init test advance _ => [init, test, advance]
  | function _ _ _ ret => [ret]
  | e => e.children

/-- The trees below a node that stand in a list of statements. -/
def statements : Expr β → List (Expr β)
  | block body => body
  | cond _ yes no => yes ++ no.getD []
  | loop _ body => body
  | count _ _ _ _ body => body
  | function _ _ body _ => body
  | _ => []

theorem mem_children {e c : Expr β} : c ∈ e.children ↔ c ∈ e.operands ∨ c ∈ e.statements := by
  cases e <;> simp [operands, statements, children, or_assoc, or_comm]

/-- No declaration is an operand. -/
def Placed (e : Expr β) : Prop := e.Everywhere fun t => ∀ c ∈ t.operands, ¬c.IsDeclaration

theorem placed_iff {e : Expr β} :
    e.Placed ↔ (∀ c ∈ e.operands, ¬c.IsDeclaration) ∧ ∀ c ∈ e.children, c.Placed := everywhere_iff

theorem Placed.child {e c : Expr β} (h : e.Placed) (hc : c ∈ e.children) : c.Placed := (placed_iff.mp h).2 c hc

/-- A tree that may be an operand. -/
structure Plain (e : Expr β) : Prop where
  placed : e.Placed
  not_declaration : ¬e.IsDeclaration

variable {e : Expr β}

theorem Placed.of_parts (hoperands : ∀ c ∈ e.operands, c.Plain) (hstatements : ∀ c ∈ e.statements, c.Placed) :
    e.Placed := by
  refine placed_iff.mpr ⟨fun c hc => (hoperands c hc).not_declaration, fun c hc => ?_⟩
  rcases mem_children.mp hc with h | h
  · exact (hoperands c h).placed
  · exact hstatements c h

theorem Placed.operand (h : e.Placed) {c : Expr β} (hc : c ∈ e.operands) : c.Plain :=
  ⟨h.child (mem_children.mpr (.inl hc)), (placed_iff.mp h).1 c hc⟩

theorem Placed.statement (h : e.Placed) {c : Expr β} (hc : c ∈ e.statements) : c.Placed :=
  h.child (mem_children.mpr (.inr hc))

theorem Plain.operand (h : e.Plain) {c : Expr β} (hc : c ∈ e.operands) : c.Plain := h.placed.operand hc

end Expr

end ExactScript
