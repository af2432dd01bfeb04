import ExactScript.Proofs.Assignability
import ExactScript.Proofs.Parts

/-!
# The constants of a program

A program pushes the literals of its tree, and besides them only counts: of the elements of a list, of the
entries of a map, and the step of a slice that has none. The numbers among the literals of a source text are
those that digits spell.

## Contents
* `Piece.Pushes`, a property of the constants in a piece of code;
* `Expr.Spelled`, what the numbers of source texts are;
* `Program.literal_of_push`, where the constants of a program come from, and `Program.number_of_push`.
-/

namespace ExactScript

/-- Every constant that the piece pushes satisfies `Λ`. -/
def Piece.Pushes (Λ : Literal → Prop) (q : Piece) : Prop := ∀ i l, .push l ∈ q.code i → Λ l

/-- The property passes from the parts of the code to the whole if counts have it. -/
theorem Piece.compositional_pushes {Λ : Literal → Prop} (hcount : ∀ n, Λ (.num (.ofNat n))) :
    Compositional (Pushes Λ) fun e => ∀ l, .literal l ∈ e.subtrees → Λ l where
  child {e c} he hc l hl := by
    have hall : e.Everywhere fun t => ∀ l, t = .literal l → Λ l := fun t ht l hl => he l (hl ▸ ht)
    exact (Expr.everywhere_iff.mp hall).2 c hc _ hl l rfl
  list h i l hl := by
    rcases h l hl with hliteral | ⟨n, rfl⟩
    · exact hliteral l List.mem_cons_self
    · exact hcount n
  jumping h i l hl := absurd (List.mem_singleton.mp hl).symm (h i l)
  append hp hq i l hl := (List.mem_append.mp hl).elim (hp i l) (hq _ l)
  function {name params body ret} _ hq i l hl := by
    -- around the body of the function nothing is pushed
    simp only [function, definition, routine, code_append, code_jumping, code_ofList, List.mem_append,
      List.mem_cons, List.mem_map, List.not_mem_nil, reduceCtorEq, and_false, exists_false, or_false,
      false_or] at hl
    exact hq _ l hl

/-- If the node is a number, digits spell it. -/
def Expr.Spelled {β : Type} (e : Expr β) : Prop :=
  ∀ n, e = .literal (.num n) → ∃ digits, n = Source.readNumber digits

namespace Program

variable {tree : List (Expr Symbol)} {p : Program} {l : Literal}

/-- **The constants of a program** are the literals of its tree, and counts. -/
theorem literal_of_push (h : ofTree tree = .ok p) (hl : .push l ∈ p.code) :
    (∃ e ∈ tree, .literal l ∈ e.subtrees) ∨ ∃ n, l = .num (.ofNat n) := by
  have hcode : .push l ∈ (Expr.pieceOfProgram tree).code 0 :=
    code_of_ofTree h ▸ Array.mem_toList_iff.mpr hl
  have hpushes := Piece.compositional_pushes
    (Λ := fun l => (∃ e ∈ tree, .literal l ∈ e.subtrees) ∨ ∃ n, l = .num (.ofNat n)) fun n => .inr ⟨n, rfl⟩
  exact hpushes.program (fun e he l hl => .inl ⟨e, he, hl⟩) 0 l hcode

/-- **The numbers of a program** that is made from source text are spelled in it, or count something. -/
theorem number_of_push {src : String} {source : List Source.Surface} {n : Fraction}
    (hparse : Source.parse src = .ok source) (hresolve : resolve source = .ok tree)
    (h : ofTree tree = .ok p) (hn : .push (.num n) ∈ p.code) :
    (∃ digits, n = Source.readNumber digits) ∨ ∃ k, n = .ofNat k := by
  rcases literal_of_push h hn with ⟨e, he, hliteral⟩ | ⟨k, hk⟩
  · refine .inl ?_
    have hmem := rename_mem_of_resolve hresolve he
    have hlegible : (e.rename Symbol.name).Everywhere Expr.Spelled := by
      rintro t ht m rfl
      exact Source.legible_of_parse hparse _ hmem _ ht
    -- names have no part in what a number is
    have hspelled : ∀ t : Expr Symbol, (t.rename Symbol.name).Spelled ↔ t.Spelled := by
      intro t
      cases t <;> simp [Expr.Spelled, Expr.rename]
    exact (Expr.everywhere_rename hspelled e).mp hlegible _ hliteral n rfl
  · exact .inr ⟨k, Literal.num.inj hk⟩

end Program

end ExactScript
