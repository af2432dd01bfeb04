import ExactScript.Proofs.Linking
import ExactScript.Proofs.Parts
import ExactScript.Proofs.Simulation

/-!
# Where functions stand

The functions of a program are known by their sites. Here each site is shown to be what it says: the
routine of the function stands at its entry, and the function is one that the tree defines, so that
whatever holds throughout the tree holds of it.

## Contents
* `FunctionSite.Stands`, and `Piece.Delivers`, the sites of a piece;
* `Expr.delivers_program`, the sites of a program;
* `FunctionSite.Stands.code_function` and others, the instructions of a routine.
-/

namespace ExactScript

variable {K : Expr Symbol → Prop}

/-! ## The functions of a program -/

section Functions

variable (s : Setting) (p : Program)

/-- The routine of the function stands at its entry, and its definition satisfies `K`. -/
structure FunctionSite.Stands (K : Expr Symbol → Prop) (site : FunctionSite) : Prop where
  routine : s.Present p site.entry (.routine site.name site.params (Expr.pieceOfBlock site.body))
  node : ∃ body ret, site.body = body ++ [ret] ∧ K (.function site.name site.params body ret)

/-- Where the piece is present, its functions stand. -/
def Piece.Delivers (K : Expr Symbol → Prop) (q : Piece) : Prop :=
  ∀ i, s.Present p i q → ∀ site ∈ q.sites i, site.Stands s p K

namespace Piece.Delivers

variable {s p} {q r : Piece} {name : Symbol} {params : List Symbol}

theorem ofList {is : List (Instr Nat)} : (Piece.ofList is).Delivers s p K :=
  fun _ _ _ hsite => by cases hsite

theorem jumping {f : Nat → Instr Nat} : (Piece.jumping f).Delivers s p K :=
  fun _ _ _ hsite => by cases hsite

theorem append (hq : q.Delivers s p K) (hr : r.Delivers s p K) :
    (q ++ r).Delivers s p K := by
  intro i hpresent site hsite
  obtain ⟨hpq, hpr⟩ := Setting.present_append.mp hpresent
  rcases List.mem_append.mp hsite with h | h
  · exact hq i hpq site h
  · exact hr _ hpr site h

/-- A definition delivers its own function besides those of the body. -/
theorem function {body : List (Expr Symbol)} {ret : Expr Symbol}
    (hq : (Expr.pieceOfBlock (body ++ [ret])).Delivers s p K) (hk : K (.function name params body ret)) :
    (Piece.function name params (body ++ [ret]) (Expr.pieceOfBlock (body ++ [ret]))).Delivers s p K := by
  intro i hpresent site hsite
  obtain ⟨hown, hinner⟩ := List.forall_mem_cons.mp hpresent.sites
  have hdefinition : s.Present p i (Piece.definition name params (Expr.pieceOfBlock (body ++ [ret]))) :=
    ⟨hpresent.code, hinner⟩
  rcases List.mem_cons.mp hsite with rfl | h
  · obtain ⟨-, hbelow⟩ := Setting.present_append.mp hdefinition
    exact ⟨(Setting.present_append.mp hbelow).1, body, ret, rfl, hk⟩
  · have hbody : (Piece.definition name params (Expr.pieceOfBlock (body ++ [ret]))).Delivers s p K :=
      .append .jumping (.append (.append .ofList (.append .jumping (.append .ofList
        (hq.append .ofList)))) (.append .jumping .ofList))
    exact hbody i hdefinition site h

end Piece.Delivers

namespace Expr

variable {s p}

theorem compositional_delivers (hK : ∀ {e c : Expr Symbol}, K e → c ∈ e.children → K c) :
    Piece.Compositional (Piece.Delivers s p K) K where
  child := hK
  list _ := .ofList
  jumping _ := .jumping
  append := .append
  function hk hq := .function hq hk

/-- Every function of a program stands. -/
theorem delivers_program {tree : List (Expr Symbol)} (hK : ∀ {e c : Expr Symbol}, K e → c ∈ e.children → K c)
    (h : ∀ e ∈ tree, K e) : (pieceOfProgram tree).Delivers s p K :=
  (compositional_delivers hK).program h

end Expr

namespace FunctionSite.Stands

variable {s p} {site site' : FunctionSite}

/-- The body of the function stands after the stores of a call. -/
theorem body (h : site.Stands s p K) :
    s.Present p (site.entry + site.params.length + 2) (Expr.pieceOfBlock site.body) := by
  obtain ⟨-, hrest⟩ := Setting.present_append.mp h.routine
  obtain ⟨-, hrest⟩ := Setting.present_append.mp hrest
  obtain ⟨-, hrest⟩ := Setting.present_append.mp hrest
  simpa using (Setting.present_append.mp hrest).1

/-- The routine starts with a store for each parameter. -/
theorem code_store (h : site.Stands s p K) {k : Nat} (hk : k < site.params.length) :
    ∃ x ∈ site.params, p.code[site.entry + k]? = some (.store x.id) := by
  have hstores : CodeAt p.code site.entry (site.params.reverse.map fun x => .store x.id) :=
    (Setting.present_append.mp h.routine).1.code
  have hlength : k < (site.params.reverse.map fun x => (Instr.store x.id : Instr Nat)).length := by
    simpa using hk
  have hget := hstores.getElem hlength
  rw [List.getElem_map, List.getElem_drop, Array.getElem_toList] at hget
  exact ⟨_, List.mem_reverse.mp (List.getElem_mem _), Array.getElem?_eq_some_iff.mpr ⟨_, hget.symm⟩⟩

/-- After the stores, the function itself is made. -/
theorem code_function (h : site.Stands s p K) :
    p.code[site.entry + site.params.length]? = some (.makeFunction site.entry site.params.length) := by
  obtain ⟨-, hrest⟩ := Setting.present_append.mp h.routine
  have hmake := (Setting.present_append.mp hrest).1.jumping
  simpa using hmake

/-- Then it is stored under its own name. -/
theorem code_name (h : site.Stands s p K) :
    p.code[site.entry + site.params.length + 1]? = some (.store site.name.id) := by
  obtain ⟨-, hrest⟩ := Setting.present_append.mp h.routine
  obtain ⟨-, hrest⟩ := Setting.present_append.mp hrest
  have hname := (Setting.present_append.mp hrest).1.instr
  simpa using hname

/-- **A position is the entry of functions of one arity only.** -/
theorem arity_eq (h : site.Stands s p K) (h' : site'.Stands s p K)
    (he : site.entry = site'.entry) : site.params.length = site'.params.length := by
  -- the function is made where the stores of its arguments end
  rcases Nat.lt_trichotomy site.params.length site'.params.length with hlt | heq | hlt
  · obtain ⟨x, -, hx⟩ := h'.code_store hlt
    rw [← he, h.code_function] at hx
    cases hx
  · exact heq
  · obtain ⟨x, -, hx⟩ := h.code_store hlt
    rw [he, h'.code_function] at hx
    cases hx

end FunctionSite.Stands

end Functions

/-! ## Programs -/

namespace Program

variable {tree : List (Expr Symbol)} {p : Program}

/-- The setting of the evaluation of a program. -/
def setting (tree : List (Expr Symbol)) (m : Machine) : Setting where
  functions := (Expr.pieceOfProgram tree).sites 0
  maxCallDepth := m.maxCallDepth
  sink := m.sink

theorem present_of_ofTree (m : Machine) (hp : ofTree tree = .ok p) :
    (setting tree m).Present p 0 (Expr.pieceOfProgram tree) where
  code := codeAt_of_ofTree hp
  sites _ h := h

end Program

end ExactScript
