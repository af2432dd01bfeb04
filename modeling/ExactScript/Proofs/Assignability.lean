import ExactScript.Proofs.DeclaredBefore
import ExactScript.Proofs.Written

/-!
# What cannot be compiled

Code is refused for one reason only: an element is set of something that is not a variable or an element of
one, so that there is no place for the changed collection. All labels are created, placed once and used by
the construct that they belong to, hence none of them is ever missing in the end. Text cannot name anything
but a variable before the keys, so that every text that is read and resolved has a program.

## Contents
* `Expr.everywhere_rename`, properties that do not depend on the names;
* `Program.ofTree_error_iff`, the theorem.
-/

namespace ExactScript

namespace Expr

variable {β γ : Type} {f : β → γ}

/-- A property of nodes that the names have no part in. -/
theorem everywhere_rename {P : Expr γ → Prop} {Q : Expr β → Prop} (h : ∀ e, P (e.rename f) ↔ Q e)
    (e : Expr β) : (e.rename f).Everywhere P ↔ e.Everywhere Q := by
  induction e using induct_children with
  | h e ih =>
    rw [everywhere_iff, everywhere_iff, children_rename, List.forall_mem_map, h]
    exact and_congr_right fun _ => forall₂_congr ih

theorem isPlace_rename (e : Expr β) : (e.rename f).IsPlace ↔ e.IsPlace := by
  induction e using induct with
  | index target key ih => exact ih
  | _ => exact Iff.rfl

theorem setsPlace_rename (e : Expr β) : (e.rename f).SetsPlace ↔ e.SetsPlace := by
  cases e with
  | put target key value => exact isPlace_rename target
  | _ => exact Iff.rfl

theorem assignable_rename (e : Expr β) : (e.rename f).Assignable ↔ e.Assignable :=
  everywhere_rename setsPlace_rename e

/-- What is refused: an element is set of something that is not a place. -/
theorem not_assignable_iff {e : Expr β} : ¬e.Assignable ↔
    ∃ target key value, put target key value ∈ e.subtrees ∧ ¬target.IsPlace := by
  constructor
  · intro h
    obtain ⟨t, ht, hnot⟩ : ∃ t ∈ e.subtrees, ¬t.SetsPlace := by simpa [Assignable, Everywhere] using h
    cases t with
    | put target key value => exact ⟨target, key, value, ht, hnot⟩
    | _ => exact absurd trivial hnot
  · rintro ⟨target, key, value, ht, hnot⟩ h
    exact hnot (h _ ht)

end Expr

namespace Program

variable {tree : List (Expr Symbol)}

/-- A resolved tree is one of the source with its names replaced. -/
theorem rename_mem_of_resolve {source : List (Expr String)} {e : Expr Symbol}
    (h : resolve source = .ok tree) (he : e ∈ tree) : e.rename Symbol.name ∈ source := by
  have hrename := (faithful_of_resolve h).1
  rw [Expr.renameAll_eq_map] at hrename
  exact hrename ▸ List.mem_map_of_mem he

/-- Trees of source text set elements of places only. -/
theorem assignable_of_source {src : String} {source : List Source.Surface}
    (hparse : Source.parse src = .ok source) (hresolve : resolve source = .ok tree) :
    ∀ e ∈ tree, e.Assignable := by
  intro e he
  exact (Expr.assignable_rename e).mp
    (Source.legible_of_parse hparse _ (rename_mem_of_resolve hresolve he)).assignable

/-- **What cannot be compiled.** A tree is refused if and only if it sets an element of something that is not
a variable or an element of one, and that is what the error says. Every text that is read and resolved has
a program. -/
theorem ofTree_error_iff (tree : List (Expr Symbol)) :
    ((∃ e, ofTree tree = .error e) ↔ ∃ e ∈ tree, ∃ target key value,
      .put target key value ∈ e.subtrees ∧ ¬target.IsPlace) ∧
    (∀ e, ofTree tree = .error e → ∃ construct, e = .unsupportedConstruct construct) ∧
    ∀ src source, Source.parse src = .ok source → resolve source = .ok tree →
      ∃ p, ofTree tree = .ok p := by
  by_cases h : ∀ e ∈ tree, e.Assignable
  · obtain ⟨b, -, hp⟩ := ofTree_eq_ok h
    refine ⟨⟨?_, ?_⟩, ?_, ?_⟩
    · rintro ⟨e, he⟩
      cases hp.symm.trans he
    · rintro ⟨e, he, hput⟩
      exact absurd (h e he) (Expr.not_assignable_iff.mpr hput)
    · intro e he
      cases hp.symm.trans he
    · intro src source _ _
      exact ⟨_, hp⟩
  · obtain ⟨construct, herror⟩ := ofTree_eq_error h
    refine ⟨⟨?_, ?_⟩, ?_, ?_⟩
    · intro _
      obtain ⟨e, he, hnot⟩ : ∃ e ∈ tree, ¬e.Assignable := by simpa using h
      exact ⟨e, he, Expr.not_assignable_iff.mp hnot⟩
    · intro _
      exact ⟨_, herror⟩
    · intro e he
      cases herror.symm.trans he
      exact ⟨construct, rfl⟩
    · intro src source hparse hresolve
      exact absurd (assignable_of_source hparse hresolve) h

end Program

end ExactScript
