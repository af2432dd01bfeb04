import ExactScript.Proofs.Forks
import ExactScript.Proofs.Places

/-!
# Layout

Blanks and comments only separate tokens: where some layout stands between two parts of a text, other layout can
stand there instead. Both texts are parsed to the same statements, or neither of them is parsed. The layout must
not be empty, since `ab` is not `a b`, and it must not begin inside of a string literal or of a comment.

Two texts that differ in such a place part at the beginning of the layout and are the same again behind it.
So this is a case of `Parting`: no token goes over the beginning of layout, and skipping either layout leads to the
same text.

## Contents
* `IsLayout`, `skipFrom_layout`;
* `parting_layout`;
* `parse_layout`, the theorem.
-/

namespace ExactScript.Source

open Peg

/-- Blanks, and comments with the line ends that end them. -/
inductive IsLayout : List Char → Prop
  | nil : IsLayout []
  | blank {c cs} (hc : isBlank c = true) (h : IsLayout cs) : IsLayout (c :: cs)
  | comment {text cs} (htext : '\n' ∉ text) (h : IsLayout cs) : IsLayout ('#' :: (text ++ '\n' :: cs))

/-- A comment is read over up to the end of its line. -/
theorem skipFrom_comment {text : List Char} (htext : '\n' ∉ text) (rest : List Char) (pos : Nat) :
    skipFrom true (text ++ '\n' :: rest) pos = skipFrom false rest (pos + text.length + 1) := by
  induction text generalizing pos with
  | nil => rfl
  | cons c text ih =>
    simp only [List.mem_cons, not_or] at htext
    obtain ⟨hc, htext⟩ := htext
    have hstep : skipFrom true (c :: (text ++ '\n' :: rest)) pos =
        skipFrom (c != '\n') (text ++ '\n' :: rest) (pos + 1) := if_pos rfl
    rw [List.cons_append, hstep, bne_iff_ne.mpr (Ne.symm hc), ih htext, List.length_cons]
    congr 1
    omega

/-- **Layout is skipped.** -/
theorem skipFrom_layout {w : List Char} (hw : IsLayout w) (rest : List Char) (pos : Nat) :
    skipFrom false (w ++ rest) pos = skipFrom false rest (pos + w.length) := by
  induction hw generalizing pos with
  | nil => rfl
  | @blank c cs hc h ih =>
    have hstep : skipFrom false (c :: (cs ++ rest)) pos = skipFrom false (cs ++ rest) (pos + 1) := by
      simp [skipFrom, hc]
    rw [List.cons_append, hstep, ih, List.length_cons]
    congr 1
    omega
  | @comment text cs htext h ih =>
    have hstep : skipFrom false ('#' :: (text ++ '\n' :: (cs ++ rest))) pos =
        skipFrom true (text ++ '\n' :: (cs ++ rest)) (pos + 1) := rfl
    rw [List.cons_append, List.append_assoc, List.cons_append, hstep, skipFrom_comment htext, ih]
    simp only [List.length_cons, List.length_append]
    congr 1
    omega

/-- Layout begins with a character that is not solid. -/
theorem head_layout {w : List Char} (hw : IsLayout w) {y : Char} (hy : w.head? = some y) :
    isSolid y = false := by
  cases hw with
  | nil => cases hy
  | blank hc =>
    cases hy
    simp [isSolid, hc]
  | comment =>
    cases hy
    rfl

section Exchange

variable {w w' b : List Char}

/-- The rest of a text behind the place where the layout is exchanged. -/
theorem head_layout_append (hw : IsLayout w) (hne : w ≠ []) {y : Char} (hy : (w ++ b).head? = some y) :
    isSolid y = false := by
  obtain ⟨c, cs, rfl⟩ := List.exists_cons_of_ne_nil hne
  exact head_layout hw hy

/-- **Texts that differ in their layout** part where it begins, and are the same behind it. -/
theorem parting_layout (hw : IsLayout w) (hw' : IsLayout w') (hne : w ≠ []) (hne' : w' ≠ []) :
    Parting true fun _ u x x' => Zone.code.after u = .code ∧ x = w ++ b ∧ x' = w' ++ b where
  outside h := .inl h.1
  border := by
    rintro k u x x' y ⟨-, rfl, rfl⟩ hy
    exact .inl (hy.elim (head_layout_append hw hne) (head_layout_append hw' hne'))
  semicolon := by
    rintro k x x' ⟨-, rfl, rfl⟩ -
    constructor
    · intro hsemi
      exact absurd (head_layout_append hw hne hsemi) (by decide)
    · intro hsemi
      exact absurd (head_layout_append hw' hne' hsemi) (by decide)
  forward := by
    rintro k k' v u x x' ⟨hu, hx⟩ hv -
    rw [Zone.after_append, hv] at hu
    exact ⟨hu, hx⟩
  skip := by
    rintro k u x x' comment pos pos' ⟨hu, rfl, rfl⟩ hcomment -
    -- the characters that are still the same do not end in a comment
    obtain rfl : comment = false := by
      rw [hu] at hcomment
      cases comment with
      | false => rfl
      | true => cases hcomment
    rw [skipFrom_layout hw, skipFrom_layout hw']
    exact .after rfl (rest_skipFrom ..)
  nonempty := by
    rintro k u x x' - ⟨-, rfl, rfl⟩
    exact ⟨List.append_ne_nil_of_left_ne_nil hne b, List.append_ne_nil_of_left_ne_nil hne' b⟩

/-- What one of the texts is parsed to, the other one is parsed to. -/
theorem parseChars_layout {a : List Char} (ha : Zone.code.after a = .code) (hw : IsLayout w) (hw' : IsLayout w')
    (hne : w ≠ []) (hne' : w' ≠ []) {tree : List Surface} (h : parseChars (a ++ (w ++ b)) = .ok tree) :
    parseChars (a ++ (w' ++ b)) = .ok tree := by
  obtain ⟨t, ts, next, hfile, hread⟩ := derives_of_parseChars h
  have hfork : Forked true (fun _ u x x' => Zone.code.after u = .code ∧ x = w ++ b ∧ x' = w' ++ b) 1
      ⟨a ++ (w ++ b), 0⟩ ⟨a ++ (w' ++ b), 0⟩ := .before a (w ++ b) (w' ++ b) ⟨ha, rfl, rfl⟩ rfl rfl
  -- semicolons stand between the statements, so the walk begins at depth one
  have hexit : (Pattern.rule .file).exit (nestedWalk true) 1 = some 1 := rfl
  obtain ⟨r, hfile', halike⟩ := (parting_layout hw hw' hne hne').lockstep.derives hfile hexit hfork
  obtain ⟨ts', next', rfl, htrees, -⟩ := halike.of_matched
  obtain ⟨t', ts', rfl, ht, -⟩ := htrees.of_cons
  exact parseChars_of_derives hfile' (readFile_same ht tree hread)

end Exchange

/-- **Layout does not matter.** Where the code of a text has blanks or comments, other blanks and comments can
stand: the text is parsed to the same statements, or is rejected in both forms. -/
theorem parse_layout {a w₁ w₂ b : String} (ha : Zone.code.after a.toList = .code) (h₁ : IsLayout w₁.toList)
    (h₂ : IsLayout w₂.toList) (hne₁ : w₁ ≠ "") (hne₂ : w₂ ≠ "") :
    (parse (a ++ w₁ ++ b)).toOption = (parse (a ++ w₂ ++ b)).toOption := by
  have hchars₁ : w₁.toList ≠ [] := by simpa using hne₁
  have hchars₂ : w₂.toList ≠ [] := by simpa using hne₂
  have hto : ∀ tree, parse (a ++ w₁ ++ b) = .ok tree → parse (a ++ w₂ ++ b) = .ok tree := by
    intro tree h
    simp only [parse, String.toList_append, List.append_assoc] at h ⊢
    exact parseChars_layout ha h₁ h₂ hchars₁ hchars₂ h
  have hfrom : ∀ tree, parse (a ++ w₂ ++ b) = .ok tree → parse (a ++ w₁ ++ b) = .ok tree := by
    intro tree h
    simp only [parse, String.toList_append, List.append_assoc] at h ⊢
    exact parseChars_layout ha h₂ h₁ hchars₂ hchars₁ h
  cases hleft : parse (a ++ w₁ ++ b) with
  | ok tree => rw [hto tree hleft]
  | error e =>
    cases hright : parse (a ++ w₂ ++ b) with
    | ok tree =>
      rw [hfrom tree hright] at hleft
      cases hleft
    | error e' => rfl

/-- A comment and a line that is blank in place of one blank, and what both texts are parsed to. -/
theorem parse_layout_comment :
    (parse ("x = 1 +" ++ "# one more\n\t\n" ++ "x")).toOption = (parse ("x = 1 +" ++ " " ++ "x")).toOption ∧
      (parse ("x = 1 +" ++ " " ++ "x")).toOption =
        some [.assign "x" (.binary .add (.literal (.num (.ofNat 1))) (.var "x"))] := by
  have htext : '\n' ∉ " one more".toList := by decide
  have hcomment : IsLayout "# one more\n\t\n".toList := .comment htext (.blank rfl (.blank rfl .nil))
  exact ⟨parse_layout (by decide) hcomment (.blank rfl .nil) (by decide) (by decide), rfl⟩

end ExactScript.Source
