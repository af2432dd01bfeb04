import ExactScript.Proofs.Zones

/-!
# Texts that begin alike

Two texts begin with the same characters and then go on differently, but neither goes on with a character that
a token could begin with or contain. As far as they are the same, the grammar takes the same way through both:
no token reads over the place where they part. How the runs go on from there is left open. It is enough
to know what is behind the place when layout is skipped, and that no semicolon is looked for at it.

A semicolon has a meaning of its own only between statements of the whole program. Everywhere else it stands
inside of brackets, so the depth of nesting tells whether one can be read.

## Contents
* `nestedWalk`, the walk that follows the depth of nesting, and `exit_body`, for all rules;
* `Parting`, what is known of the place where two texts part;
* `Forked`, and `Parting.lockstep`, the theorem.
-/

namespace ExactScript.Source

open Peg

/-! ## The depth along a pattern -/

/-- An ordinary character that is no bracket and no semicolon. -/
def isPlain (c : Char) : Bool := isOrdinary c && c != ';' && bracketWeight c == 0

/-- The depth after a word: brackets change it, and a semicolon is admitted inside of brackets only. -/
def depthAfter (k : Nat) (s : String) : Option Nat :=
  if s.toList ≠ [] ∧ s.toList.all isPlain then some k
  else if s ∈ ["(", "[", "\x7b"] then some (k + 1)
  else if 0 < k ∧ s ∈ [")", "]", "\x7d"] then some (k - 1)
  else if 0 < k ∧ s = ";" then some k
  else none

/-- The characters that are not plain. -/
def specialChars : List Char := [' ', '\t', '\r', '\n', '#', '"', ';', '(', ')', '[', ']', '\x7b', '\x7d']

/-- The walk that follows the depth. Statements between semicolons, and if `whole` holds the file and its end,
are met at depth one at least. The insides of string literals are not walked through. -/
def nestedWalk (whole : Bool) : Walk Rule where
  text := depthAfter
  char accepts := specialChars.all fun c => !accepts c
  rule k
    | .stringBody => false
    | .file | .endOfInput => whole && 0 < k
    | .statements => 0 < k
    | _ => true

section Depths

variable {k k' : Nat} {s : String} {c : Char}

theorem isPlain_of_not_mem (h : c ∉ specialChars) : isPlain c = true := by
  simp only [specialChars, List.mem_cons, List.not_mem_nil, or_false, not_or] at h
  obtain ⟨h₁, h₂, h₃, h₄, h₅, h₆, h₇, h₈, h₉, h₁₀, h₁₁, h₁₂, h₁₃⟩ := h
  simp [isPlain, isOrdinary, isSolid, isBlank, bracketWeight, *]

theorem isPlain_of_char {accepts : Char → Bool} {whole : Bool} (h : (nestedWalk whole).char accepts = true)
    (hc : accepts c = true) : isPlain c = true := by
  refine isPlain_of_not_mem fun hmem => ?_
  have hnot := List.all_eq_true.mp h c hmem
  rw [hc] at hnot
  cases hnot

theorem isOrdinary_of_isPlain (h : isPlain c = true) : isOrdinary c = true := by
  simp only [isPlain, Bool.and_eq_true] at h
  exact h.1.1

theorem isSolid_of_isOrdinary (h : isOrdinary c = true) : isSolid c = true := by
  simp only [isOrdinary, Bool.and_eq_true] at h
  exact h.1

theorem nesting_of_isPlain {cs : List Char} (h : ∀ c ∈ cs, isPlain c = true) : nesting .code cs = 0 := by
  induction cs with
  | nil => rfl
  | cons c cs ih =>
    obtain ⟨hc, hcs⟩ := List.forall_mem_cons.mp h
    have hweight : bracketWeight c = 0 := by
      simp only [isPlain, Bool.and_eq_true, beq_iff_eq] at hc
      exact hc.2
    rw [nesting, if_pos rfl, hweight, next_of_isOrdinary (isOrdinary_of_isPlain hc), ih hcs]
    rfl

/-- **What a word can be**: it is made of ordinary characters, changes the depth as its brackets do, and has a
semicolon only if it is one, inside of brackets. -/
theorem depthAfter_cases (h : depthAfter k s = some k') :
    s.toList ≠ [] ∧ (∀ c ∈ s.toList, isOrdinary c = true) ∧ (k' : Int) = k + nesting .code s.toList ∧
      ((';' : Char) ∈ s.toList → s.toList = [';'] ∧ 0 < k) := by
  unfold depthAfter at h
  split at h
  case isTrue hplain =>
    obtain rfl := Option.some.inj h
    have hall : ∀ c ∈ s.toList, isPlain c = true := List.all_eq_true.mp hplain.2
    refine ⟨hplain.1, fun c hc => isOrdinary_of_isPlain (hall c hc), ?_, fun hmem => ?_⟩
    · rw [nesting_of_isPlain hall, Int.add_zero]
    · exact absurd (hall _ hmem) (by decide)
  split at h
  case isTrue hopen =>
    obtain rfl := Option.some.inj h
    simp only [List.mem_cons, List.not_mem_nil, or_false] at hopen
    rcases hopen with rfl | rfl | rfl <;>
      exact ⟨by decide, List.all_eq_true.mp rfl, rfl, fun hmem => absurd hmem (by decide)⟩
  split at h
  case isTrue hclose =>
    obtain rfl := Option.some.inj h
    obtain ⟨hk, hclose⟩ := hclose
    have hsub : ((k - 1 : Nat) : Int) = k + -1 := by omega
    simp only [List.mem_cons, List.not_mem_nil, or_false] at hclose
    rcases hclose with rfl | rfl | rfl <;>
      exact ⟨by decide, List.all_eq_true.mp rfl, hsub, fun hmem => absurd hmem (by decide)⟩
  split at h
  case isTrue hsemi =>
    obtain rfl := Option.some.inj h
    obtain ⟨hk, rfl⟩ := hsemi
    exact ⟨by decide, List.all_eq_true.mp rfl, (Int.add_zero _).symm, fun _ => ⟨rfl, hk⟩⟩
  cases h

theorem depthAfter_succ (h : depthAfter k s = some k') : depthAfter (k + 1) s = some (k' + 1) := by
  unfold depthAfter at h ⊢
  split at h
  case isTrue hplain =>
    cases h
    rw [if_pos hplain]
  case isFalse hplain =>
    rw [if_neg hplain]
    split at h
    case isTrue hopen =>
      cases h
      rw [if_pos hopen]
    case isFalse hopen =>
      rw [if_neg hopen]
      split at h
      case isTrue hclose =>
        cases h
        rw [if_pos ⟨Nat.succ_pos k, hclose.2⟩, Nat.add_sub_cancel, Nat.sub_add_cancel hclose.1]
      case isFalse hclose =>
        split at h
        case isTrue hsemi =>
          cases h
          obtain ⟨-, rfl⟩ := hsemi
          rw [if_neg (by simp), if_pos ⟨Nat.succ_pos k, rfl⟩]
        case isFalse => cases h

theorem rule_succ {whole : Bool} {r : Rule} (h : (nestedWalk whole).rule k r = true) :
    (nestedWalk whole).rule (k + 1) r = true := by
  cases r <;> simp_all [nestedWalk]

/-- The same walk can be taken deeper inside. -/
theorem exit_succ {whole : Bool} {p : Pattern Rule} (h : p.exit (nestedWalk whole) k = some k') :
    p.exit (nestedWalk whole) (k + 1) = some (k' + 1) := by
  induction p generalizing k k' with
  | empty =>
    cases h
    rfl
  | text s => exact depthAfter_succ h
  | char accepts =>
    simp only [Pattern.exit, Option.ite_none_right_eq_some, Option.some.injEq] at h ⊢
    exact ⟨h.1, by rw [h.2]⟩
  | seq p q ihp ihq =>
    obtain ⟨m, hp, hq⟩ := Option.bind_eq_some_iff.mp h
    exact Option.bind_eq_some_iff.mpr ⟨m + 1, ihp hp, ihq hq⟩
  | choice p q ihp ihq =>
    simp only [Pattern.exit, Option.ite_none_right_eq_some] at h ⊢
    have hq := ihq (h.1 ▸ h.2)
    exact ⟨by rw [ihp h.2, hq], ihp h.2⟩
  | many p ih =>
    simp only [Pattern.exit, Option.ite_none_right_eq_some, Option.some.injEq] at h ⊢
    obtain ⟨hp, rfl⟩ := h
    exact ⟨ih hp, rfl⟩
  | ahead p ih | notAhead p ih =>
    simp only [Pattern.exit, Option.ite_none_right_eq_some, Option.some.injEq] at h ⊢
    obtain ⟨hp, rfl⟩ := h
    obtain ⟨m, hm⟩ := Option.isSome_iff_exists.mp hp
    exact ⟨by rw [ih hm]; rfl, rfl⟩
  | rule r =>
    simp only [Pattern.exit, Option.ite_none_right_eq_some, Option.some.injEq] at h ⊢
    exact ⟨rule_succ h.1, by rw [h.2]⟩

/-- The least depth at which a rule is met. -/
def Rule.leastDepth : Rule → Nat
  | file | endOfInput | statements => 1
  | _ => 0

theorem exit_body_least {whole : Bool} {r : Rule} (h : (nestedWalk whole).rule r.leastDepth r = true)
    (hstring : r ≠ .string) (hend : r ≠ .endOfInput) :
    (Rule.body r).exit (nestedWalk whole) r.leastDepth = some r.leastDepth := by
  cases r with
  | string => exact absurd rfl hstring
  | endOfInput => exact absurd rfl hend
  | stringBody => cases h
  | keyword k => cases k <;> rfl
  | file => cases whole with
    | true => rfl
    | false => cases h
  | _ => rfl

theorem exit_body {whole : Bool} {r : Rule} (h : (nestedWalk whole).rule k r = true)
    (hstring : r ≠ .string) (hend : r ≠ .endOfInput) : (Rule.body r).exit (nestedWalk whole) k = some k := by
  have hleast : r.leastDepth ≤ k ∧ (nestedWalk whole).rule r.leastDepth r = true := by
    cases r <;> simp_all [nestedWalk, Rule.leastDepth] <;> omega
  obtain ⟨hle, hrule⟩ := hleast
  clear h
  induction hle with
  | refl => exact exit_body_least hrule hstring hend
  | step hle ih => exact exit_succ ih

end Depths

theorem flat_of_atomic {r : Rule} (h : grammar.mode r = .atomic) : (grammar.body r).flat = true := by
  cases r with
  | keyword k => rfl
  | _ => first | rfl | cases h

theorem rest_skipFrom (comment : Bool) (cs : List Char) (pos pos' : Nat) :
    (skipFrom comment cs pos).rest = (skipFrom comment cs pos').rest := by
  induction cs generalizing comment pos pos' with
  | nil => rfl
  | cons c cs ih =>
    unfold skipFrom
    split
    · exact ih _ _ _
    split
    · exact ih _ _ _
    split
    · exact ih _ _ _
    · rfl

/-- What is left of the text decides everything. -/
theorem grammar_lockstep_rest : grammar.Lockstep .free fun _ c c' => c.rest = c'.rest := by
  refine Grammar.lockstep_rest (fun c c' h => ?_) fun r => flat_of_atomic
  show (skipFrom false c.rest c.pos).rest = (skipFrom false c'.rest c'.pos).rest
  rw [h]
  exact rest_skipFrom ..

/-! ## The place where the texts part -/

/-- The cursors are at texts that begin alike and are still to part. If `whole` holds, the texts may come together
again, and then the cursors may also have the same text left. -/
inductive Forked (whole : Bool) (E : Nat → List Char → List Char → List Char → Prop) (k : Nat)
    (c c' : Cursor) : Prop
  | before (u x x' : List Char) (h : E k u x x') (hc : c.rest = u ++ x) (hc' : c'.rest = u ++ x')
  | after (hw : whole = true) (h : c.rest = c'.rest)

/-- `E` tells, at some depth, which characters are still the same, and how the texts go on from there. -/
structure Parting (whole : Bool) (E : Nat → List Char → List Char → List Char → Prop) : Prop where
  outside : ∀ {k u x x'}, E k u x x' → (Zone.code.after u).Outside
  /-- No token goes over the place where the texts part. -/
  border : ∀ {k u x x' y}, E k u x x' → x.head? = some y ∨ x'.head? = some y → isSolid y = false ∨ y = ';'
  semicolon : ∀ {k x x'}, E k [] x x' → 0 < k → x.head? ≠ some ';' ∧ x'.head? ≠ some ';'
  forward : ∀ {k k' : Nat} {v u x x'}, E k (v ++ u) x x' → Zone.code.after v = .code →
    (k' : Int) = k + nesting .code v → E k' u x x'
  skip : ∀ {k u x x' comment pos pos'}, E k u x x' → Zone.code.after u = .ofComment comment →
    nesting .code u = 0 → Forked whole E k (skipFrom comment x pos) (skipFrom comment x' pos')
  nonempty : ∀ {k u x x'}, whole = true → E k u x x' → x ≠ [] ∧ x' ≠ []

namespace Parting

variable {whole : Bool} {E : Nat → List Char → List Char → List Char → Prop} {k k' : Nat}
  {u x x' : List Char} {c c' : Cursor}

theorem skipLayout (h : Parting whole E) (hR : Forked whole E k c c') :
    Forked whole E k (skipLayout c) (skipLayout c') := by
  cases hR with
  | before u x x' hE hc hc' =>
    show Forked whole E k (skipFrom false c.rest c.pos) (skipFrom false c'.rest c'.pos)
    rw [hc, hc']
    rcases skipFrom_append false u with ⟨v, y, u', rfl, -, hzone, hnesting, hskip⟩ | ⟨comment, hzone, hnesting, hskip⟩
    · rw [hskip, hskip]
      have hzero : (k : Int) = k + nesting .code v := by rw [show nesting .code v = 0 from hnesting, Int.add_zero]
      exact .before (y :: u') x x' (h.forward hE hzone hzero) rfl rfl
    · rw [hskip, hskip]
      exact h.skip hE hzone hnesting
  | after hw h => exact .after hw (grammar_lockstep_rest.skip (k := 0) h)

/-- A word is read before the place where the texts part, or in neither of them. -/
theorem text (h : Parting whole E) {s : String} (hs : depthAfter k s = some k') (hR : Forked whole E k c c') :
    (c.read? s.toList = none ∧ c'.read? s.toList = none) ∨
    ∃ next next', c.read? s.toList = some next ∧ c'.read? s.toList = some next' ∧ Forked whole E k' next next' := by
  cases hR with
  | after hw h =>
    rcases grammar_lockstep_rest.text (k := 0) rfl h with hnone | ⟨next, next', hread, hread', hrest⟩
    · exact .inl hnone
    · exact .inr ⟨next, next', hread, hread', .after hw hrest⟩
  | before u x x' hE hc hc' =>
    obtain ⟨hne, hordinary, hdepth, hsemi⟩ := depthAfter_cases hs
    by_cases hu : ∃ u', u = s.toList ++ u'
    · obtain ⟨u', rfl⟩ := hu
      rw [List.append_assoc] at hc hc'
      have hread : c.Passes s.toList ⟨u' ++ x, c.pos + s.toList.length⟩ := ⟨hc, rfl⟩
      have hread' : c'.Passes s.toList ⟨u' ++ x', c'.pos + s.toList.length⟩ := ⟨hc', rfl⟩
      refine .inr ⟨_, _, hread.read?, hread'.read?, .before u' x x' ?_ rfl rfl⟩
      exact h.forward hE (after_of_isOrdinary hordinary) hdepth
    · -- the word would go over the place where the texts part
      have hnone : ∀ z, (∀ y, z.head? = some y → (x.head? = some y ∨ x'.head? = some y)) →
          ¬∃ rest, u ++ z = s.toList ++ rest := by
        rintro z hz ⟨rest, hrest⟩
        rcases List.append_eq_append_iff.mp hrest with ⟨v, hv, rfl⟩ | ⟨v, hv, -⟩
        · cases v with
          | nil => exact hu ⟨[], by rw [hv, List.append_nil, List.append_nil]⟩
          | cons y v =>
            have hmem : y ∈ s.toList := by simp [hv]
            have hsolid : isSolid y = true := isSolid_of_isOrdinary (hordinary y hmem)
            rcases h.border hE (hz y rfl) with hsoft | rfl
            · rw [hsolid] at hsoft
              cases hsoft
            · -- the word is the semicolon, and the texts part right here
              obtain ⟨hs, hk⟩ := hsemi hmem
              rw [hs] at hv
              obtain rfl : u = [] := by
                cases u with
                | nil => rfl
                | cons c u => cases u <;> cases hv
              obtain ⟨hx, hx'⟩ := h.semicolon hE hk
              exact (hz ';' rfl).elim hx hx'
        · exact hu ⟨v, hv⟩
      refine .inl ⟨Cursor.read?_eq_none_iff.mpr ?_, Cursor.read?_eq_none_iff.mpr ?_⟩
      · rw [hc]
        exact hnone x fun y hy => .inl hy
      · rw [hc']
        exact hnone x' fun y hy => .inr hy

/-- A character is read before the place where the texts part, or in neither of them. -/
theorem char (h : Parting whole E) {accepts : Char → Bool} (hplain : ∀ y, accepts y = true → isPlain y = true)
    (hR : Forked whole E k c c') :
    ((∀ y rest, c.rest = y :: rest → accepts y = false) ∧ ∀ y rest, c'.rest = y :: rest → accepts y = false) ∨
    ∃ y rest rest', accepts y = true ∧ c.rest = y :: rest ∧ c'.rest = y :: rest' ∧
      Forked whole E k ⟨rest, c.pos + 1⟩ ⟨rest', c'.pos + 1⟩ := by
  cases hR with
  | after hw h =>
    rcases grammar_lockstep_rest.char (k := 0) rfl h with hnone | ⟨y, rest, rest', hy, hc, hc', hrest⟩
    · exact .inl hnone
    · exact .inr ⟨y, rest, rest', hy, hc, hc', .after hw hrest⟩
  | before u x x' hE hc hc' =>
    cases u with
    | nil =>
      have hnone : ∀ z, (∀ y, z.head? = some y → (x.head? = some y ∨ x'.head? = some y)) →
          ∀ y rest, z = y :: rest → accepts y = false := by
        rintro z hz y rest rfl
        cases hy : accepts y with
        | false => rfl
        | true =>
          have hord := isOrdinary_of_isPlain (hplain y hy)
          rcases h.border hE (hz y rfl) with hsoft | rfl
          · rw [isSolid_of_isOrdinary hord] at hsoft
            cases hsoft
          · exact absurd (hplain ';' hy) (by decide)
      rw [List.nil_append] at hc hc'
      refine .inl ⟨?_, ?_⟩
      · rw [hc]
        exact hnone x fun y hy => .inl hy
      · rw [hc']
        exact hnone x' fun y hy => .inr hy
    | cons y u =>
      cases hy : accepts y with
      | true =>
        have hord : ∀ d ∈ [y], isPlain d = true := List.forall_mem_singleton.mpr (hplain y hy)
        refine .inr ⟨y, u ++ x, u ++ x', hy, hc, hc', .before u x x' (h.forward (v := [y]) hE ?_ ?_) rfl rfl⟩
        · exact after_of_isOrdinary fun d hd => isOrdinary_of_isPlain (hord d hd)
        · rw [nesting_of_isPlain hord, Int.add_zero]
      | false =>
        have hnone : ∀ z, ∀ d rest, y :: u ++ z = d :: rest → accepts d = false := by
          rintro z d rest ⟨⟩
          exact hy
        exact .inl ⟨hc ▸ hnone x, hc' ▸ hnone x'⟩

/-- String literals are closed before the place where the texts part. -/
theorem string (h : Parting whole E) (hR : Forked whole E k c c') {a : Reply Rule}
    (hd : Derives grammar .compact (Rule.body .string) c a) :
    ∃ a', Derives grammar .compact (Rule.body .string) c' a' ∧ Alike (Forked whole E k) False c c' a a' := by
  cases hR with
  | after hw h =>
    obtain ⟨a', hd', halike⟩ := grammar_lockstep_rest.derives hd (Pattern.exit_free _ 0) h
    exact ⟨a', hd', halike.imp (fun _ _ => .after hw) False.elim⟩
  | before u x x' hE hc hc' =>
    obtain ⟨rest, pos⟩ := c
    obtain ⟨rest', pos'⟩ := c'
    obtain rfl : rest = u ++ x := hc
    obtain rfl : rest' = u ++ x' := hc'
    by_cases hquote : u.head? = some '"'
    · obtain ⟨u, rfl⟩ : ∃ u', u = '"' :: u' := List.head?_eq_some_iff.mp hquote
      cases literalReading u with
      | closed body u' htext hzone hflat hreads =>
        subst htext
        have hleft := string_closed hreads x pos
        obtain rfl := derives_unique rfl hd hleft
        refine ⟨_, string_closed hreads x' pos', .matched (.cons .leaf .nil) (.before u' x x' ?_ rfl rfl) False.elim⟩
        have hsplit : '"' :: (body ++ '"' :: u') = '"' :: (body ++ ['"']) ++ u' := by simp
        obtain ⟨hcode, hdepth⟩ := literal_balanced hzone hflat
        rw [hsplit] at hE
        exact h.forward hE hcode (by rw [hdepth, Int.add_zero])
      | unclosed hzone _ => exact absurd (h.outside hE) hzone
    · -- no literal begins at either cursor
      have hother : ∀ z, (∀ y, z.head? = some y → (x.head? = some y ∨ x'.head? = some y)) →
          (u ++ z).head? ≠ some '"' := by
        intro z hz hhead
        cases u with
        | cons y u => exact hquote hhead
        | nil => exact (h.border hE (hz '"' hhead)).elim (by decide) (by decide)
      have hleft := string_other (c := ⟨u ++ x, pos⟩) (hother x fun y hy => .inl hy)
      obtain rfl := derives_unique rfl hd hleft
      exact ⟨_, string_other (hother x' fun y hy => .inr hy), .failed⟩

/-- Neither text ends where they part. -/
theorem endOfInput (h : Parting true E) (hR : Forked true E k c c') {a : Reply Rule}
    (hd : Derives grammar .spaced (Rule.body .endOfInput) c a) :
    ∃ a', Derives grammar .spaced (Rule.body .endOfInput) c' a' ∧ Alike (Forked true E k) False c c' a a' := by
  cases hR with
  | after hw h =>
    obtain ⟨a', hd', halike⟩ := grammar_lockstep_rest.derives hd (Pattern.exit_free _ 0) h
    exact ⟨a', hd', halike.imp (fun _ _ => .after hw) False.elim⟩
  | before u x x' hE hc hc' =>
    obtain ⟨hx, hx'⟩ := h.nonempty rfl hE
    have hfails : ∀ d : Cursor, d.rest ≠ [] → Derives grammar .spaced (Rule.body .endOfInput) d .failed := by
      rintro ⟨rest, pos⟩ hrest
      obtain ⟨y, rest, rfl⟩ := List.exists_cons_of_ne_nil hrest
      exact .notAhead_fails (.char rfl)
    have hleft : c.rest ≠ [] := by
      rw [hc]
      exact List.append_ne_nil_of_right_ne_nil u hx
    have hleft' : c'.rest ≠ [] := by
      rw [hc']
      exact List.append_ne_nil_of_right_ne_nil u hx'
    obtain rfl : a = .failed := derives_unique rfl hd (hfails c hleft)
    exact ⟨_, hfails c' hleft', .failed⟩

/-- **Runs keep step** up to the place where the texts part, and beyond it. -/
theorem lockstep (h : Parting whole E) : grammar.Lockstep (nestedWalk whole) (Forked whole E) where
  skip := h.skipLayout
  text := h.text
  char hchar := h.char fun y hy => isPlain_of_char hchar hy
  rule {k r} hrule := by
    by_cases hstring : r = .string
    · subst hstring
      exact .inr ⟨by decide, fun c c' a hR hd => h.string hR hd⟩
    by_cases hend : r = .endOfInput
    · subst hend
      obtain rfl : whole = true := (Bool.and_eq_true_iff.mp hrule).1
      exact .inr ⟨by decide, fun c c' a hR hd => h.endOfInput hR hd⟩
    · exact .inl ⟨exit_body hrule hstring hend, flat_of_atomic⟩

end Parting

end ExactScript.Source
