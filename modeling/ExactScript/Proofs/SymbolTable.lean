import ExactScript.Proofs.DeclaredBefore
import ExactScript.Proofs.Naming
import ExactScript.Source.Parse

/-!
# The symbol table

The names of a program are noted while its code is emitted, the code of some subtrees more than once, and the
first name that is noted for an id stays. None of this matters in the end. A name is noted right before the
instruction that mentions its id, so the ids in the table are those in the code. And every symbol of a resolved
tree is one that the tree declares, once for each id, so there is only one name to note for an id: that of its
declaration.

## Contents
* `Declared`, the one declaration of an id;
* `Program.symbol_table_exact`, the theorem.
-/

namespace ExactScript

/-! ## Declarations by their ids -/

/-- The id is declared in exactly one place of the tree, as the id of this symbol. -/
def Declared (tree : List (Expr Symbol)) (x : Symbol) : Prop :=
  ∃ inside, (Expr.declarationsOfAll false tree).filter (fun d => d.2.id = x.id) = [(inside, x)]

/-- Where keys are different, only one element has the key of a given one. -/
theorem filter_key_eq {α β : Type} [DecidableEq β] {f : α → β} {xs : List α} {x : α} (h : (xs.map f).Nodup)
    (hx : x ∈ xs) : xs.filter (fun y => f y = f x) = [x] := by
  obtain ⟨before, after, rfl⟩ := List.append_of_mem hx
  rw [List.map_append, List.map_cons] at h
  obtain ⟨-, hafter, hdisjoint⟩ := List.nodup_append.mp h
  have hbefore : before.filter (fun y => f y = f x) = [] := List.filter_eq_nil_iff.mpr fun y hy heq =>
    hdisjoint _ (List.mem_map_of_mem hy) _ List.mem_cons_self (of_decide_eq_true heq)
  have hrest : after.filter (fun y => f y = f x) = [] := List.filter_eq_nil_iff.mpr fun y hy heq =>
    (List.nodup_cons.mp hafter).1 (of_decide_eq_true heq ▸ List.mem_map_of_mem hy)
  rw [List.filter_append, hbefore, List.filter_cons_of_pos (by simp), hrest, List.nil_append]

variable {source : List (Expr String)} {tree : List (Expr Symbol)} {p : Program}

/-- Every symbol of a resolved tree has one declaration. -/
theorem declared_of_mem_bindings (h : resolve source = .ok tree) {x : Symbol}
    (hx : x ∈ tree.flatMap Expr.bindings) : Declared tree x := by
  obtain ⟨⟨inside, y⟩, hd, rfl⟩ := List.mem_map.mp (mem_declarations_of_mem_bindings h hx)
  exact ⟨inside, filter_key_eq (nodup_declared h) hd⟩

/-! ## The theorem -/

/-- Loads and stores are the instructions with a symbol. -/
theorem Instr.symbol?_eq_some_iff {τ : Type} {i : Instr τ} {id : Nat} :
    i.symbol? = some id ↔ i = .load id ∨ i = .store id := by
  cases i <;> simp [symbol?]

/-- **The symbol table is exact.** In the program of a resolved tree the ids with a name are those that a `LOAD`
or a `STORE` mentions. Each of them is declared in exactly one place of the tree, and its name is the one that is
declared there. -/
theorem Program.symbol_table_exact (hresolve : resolve source = .ok tree) (h : Program.ofTree tree = .ok p) :
    (∀ id, (p.nameOf? id).isSome ↔ .load id ∈ p.code ∨ .store id ∈ p.code) ∧
    ∀ id name, p.nameOf? id = some name → Declared tree ⟨name, id⟩ := by
  have hmentions : ∀ e ∈ tree, e.Mentions (Declared tree) :=
    Expr.mentions_of_bindings fun x hx => declared_of_mem_bindings hresolve hx
  obtain ⟨hnames, hids⟩ := named h hmentions
  refine ⟨fun id => (hids id).trans ?_, fun id name => hnames id name⟩
  simp only [Instr.symbol?_eq_some_iff, and_or_left, exists_or, exists_eq_right]

/-- A parameter with the name of a variable, of which an element is set. -/
def sampleShadowing : Program where
  code := #[.push (.bool true), .push (.num (.ofNat 1)), .buildList, .dup, .store 0, .pop,
    .jump 19, .store 2, .makeFunction 7 1, .store 1, .load 2, .push (.num (.ofNat 0)), .push (.bool false), .put,
    .dup, .store 2, .pop, .load 2, .ret, .makeFunction 7 1, .dup, .store 1, .pop, .load 0, .load 1, .call 1, .halt]
  names := ((IdMap.empty.insert 0 "x").insert 1 "f").insert 2 "x"

theorem Program.symbol_table_exact_shadowing : ∃ source tree,
    Source.parse "var x = [true]; def f(x) { x[0] = false; return x; } f(x)" = .ok source ∧
    resolve source = .ok tree ∧ Program.ofTree tree = .ok sampleShadowing ∧
    (.load 2 ∈ sampleShadowing.code ∨ .store 2 ∈ sampleShadowing.code) ∧
    Declared tree ⟨"x", 0⟩ ∧ Declared tree ⟨"x", 2⟩ := by
  have hparse : Source.parse "var x = [true]; def f(x) { x[0] = false; return x; } f(x)" =
      .ok [.declare "x" (.list [.literal (.bool true)]),
        .function "f" ["x"] [.put (.var "x") (.literal (.num (.ofNat 0))) (.literal (.bool false))] (.var "x"),
        .call "f" [.var "x"]] := rfl
  have hresolve : resolve [.declare "x" (.list [.literal (.bool true)]),
        .function "f" ["x"] [.put (.var "x") (.literal (.num (.ofNat 0))) (.literal (.bool false))] (.var "x"),
        .call "f" [.var "x"]] =
      .ok [.declare ⟨"x", 0⟩ (.list [.literal (.bool true)]),
        .function ⟨"f", 1⟩ [⟨"x", 2⟩]
          [.put (.var ⟨"x", 2⟩) (.literal (.num (.ofNat 0))) (.literal (.bool false))] (.var ⟨"x", 2⟩),
        .call ⟨"f", 1⟩ [.var ⟨"x", 0⟩]] := rfl
  have hcompile : Program.ofTree [.declare ⟨"x", 0⟩ (.list [.literal (.bool true)]),
        .function ⟨"f", 1⟩ [⟨"x", 2⟩]
          [.put (.var ⟨"x", 2⟩) (.literal (.num (.ofNat 0))) (.literal (.bool false))] (.var ⟨"x", 2⟩),
        .call ⟨"f", 1⟩ [.var ⟨"x", 0⟩]] = .ok sampleShadowing := rfl
  obtain ⟨hids, hnames⟩ := Program.symbol_table_exact hresolve hcompile
  exact ⟨_, _, hparse, hresolve, hcompile, (hids 2).mp rfl, hnames 0 "x" rfl, hnames 2 "x" rfl⟩

end ExactScript
