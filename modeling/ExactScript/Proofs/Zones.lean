import ExactScript.Proofs.Lockstep
import ExactScript.Proofs.Tokens

/-!
# What a character belongs to

Read from left to right, every character of a text is code, or part of a comment or of a string literal. This
needs no grammar: a quote opens a literal and the next one that no backslash stands before closes it, `#` opens
a comment and the end of the line closes it. The brackets that are code tell how deep a position is nested.

The grammar sees a text in the same way. Layout is skipped up to the next solid character of the code, and
the rule of string literals reads up to the quote that closes the literal, or fails if there is none.

## Contents
* `Zone`, `Zone.after`, `nesting`;
* `isOrdinary`, the characters that leave the code as it is;
* `skipFrom_append`, what skipping does with the first part of a text;
* `literalReading`, and `string_closed`, `string_unclosed`, `string_other`: the same for string literals;
* `string_matched`, what a match of one passes over.
-/

namespace ExactScript.Source

open Peg

/-- What the next character belongs to. -/
inductive Zone where
  | code
  | comment
  | string
  /-- In a string literal, after a backslash. -/
  | escape
  deriving DecidableEq

namespace Zone

def next : Zone → Char → Zone
  | code, c => if c = '"' then string else if c = '#' then comment else code
  | comment, c => if c = '\n' then code else comment
  | string, c => if c = '"' then code else if c = '\\' then escape else string
  | escape, _ => string

/-- The zone behind some characters. -/
def after (z : Zone) (cs : List Char) : Zone := cs.foldl next z

@[simp] theorem after_nil (z : Zone) : z.after [] = z := rfl

@[simp] theorem after_cons (z : Zone) (c : Char) (cs : List Char) : z.after (c :: cs) = (z.next c).after cs := rfl

theorem after_append (z : Zone) (cs ds : List Char) : z.after (cs ++ ds) = (z.after cs).after ds :=
  List.foldl_append

/-- The zone in which reading over layout is, when a comment has begun or not. -/
def ofComment (comment : Bool) : Zone := if comment then .comment else code

/-- Neither in a string literal nor in a comment that goes on for ever. -/
def Outside (z : Zone) : Prop := z = code ∨ z = comment

end Zone

/-- What a character of the code adds to the depth. -/
def bracketWeight (c : Char) : Int :=
  if c ∈ ['(', '[', '\x7b'] then 1 else if c ∈ [')', ']', '\x7d'] then -1 else 0

/-- How much deeper the end of a text is nested than its beginning. -/
def nesting : Zone → List Char → Int
  | _, [] => 0
  | z, c :: cs => (if z = .code then bracketWeight c else 0) + nesting (z.next c) cs

theorem nesting_append (z : Zone) (cs ds : List Char) :
    nesting z (cs ++ ds) = nesting z cs + nesting (z.after cs) ds := by
  induction cs generalizing z with
  | nil => exact (Int.zero_add _).symm
  | cons c cs ih =>
    rw [List.cons_append, nesting, ih, nesting, Int.add_assoc]
    rfl

/-! ## Ordinary characters -/

/-- A solid character that opens no string literal. -/
def isOrdinary (c : Char) : Bool := isSolid c && c != '"'

theorem next_of_isOrdinary {c : Char} (hc : isOrdinary c = true) : Zone.code.next c = .code := by
  simp only [isOrdinary, isSolid, Bool.and_eq_true, bne_iff_ne] at hc
  rw [Zone.next, if_neg hc.2, if_neg hc.1.2]

theorem after_of_isOrdinary {cs : List Char} (hcs : ∀ c ∈ cs, isOrdinary c = true) :
    Zone.code.after cs = .code := by
  induction cs with
  | nil => rfl
  | cons c cs ih =>
    obtain ⟨hc, hcs⟩ := List.forall_mem_cons.mp hcs
    rw [Zone.after_cons, next_of_isOrdinary hc, ih hcs]

/-! ## Layout -/

/-- A character of the layout decides whether the next one is in a comment, and says nothing else. -/
theorem skipFrom_cons {comment : Bool} {c : Char} (h : ¬(comment = false ∧ isSolid c = true)) :
    ∃ comment', (Zone.ofComment comment).next c = .ofComment comment' ∧
      (if Zone.ofComment comment = .code then bracketWeight c else 0) = 0 ∧
      ∀ rest pos, skipFrom comment (c :: rest) pos = skipFrom comment' rest (pos + 1) := by
  cases comment with
  | true =>
    refine ⟨c != '\n', ?_, rfl, fun _ _ => rfl⟩
    by_cases hc : c = '\n'
    · subst hc
      rfl
    · rw [bne_iff_ne.mpr hc]
      exact if_neg hc
  | false =>
    have hsoft : isBlank c = true ∨ c = '#' := by
      cases hblank : isBlank c with
      | true => exact .inl rfl
      | false => exact .inr (Decidable.byContradiction fun hc => h ⟨rfl, by simp [isSolid, hblank, hc]⟩)
    rcases hsoft with hblank | rfl
    · refine ⟨false, ?_, ?_, fun rest pos => by simp [skipFrom, hblank]⟩
      all_goals
        simp only [isBlank, Bool.or_eq_true, beq_iff_eq] at hblank
        rcases hblank with ((rfl | rfl) | rfl) | rfl <;> decide
    · exact ⟨true, rfl, rfl, fun _ _ => rfl⟩

/-- **Skipping over the first part of a text** stops at a solid character of its code, or else goes on in the
second part. -/
theorem skipFrom_append (comment : Bool) (u : List Char) :
    (∃ v x u', u = v ++ x :: u' ∧ isSolid x = true ∧ (Zone.ofComment comment).after v = .code ∧
      nesting (.ofComment comment) v = 0 ∧
      ∀ rest pos, skipFrom comment (u ++ rest) pos = ⟨x :: u' ++ rest, pos + v.length⟩) ∨
    ∃ comment', (Zone.ofComment comment).after u = .ofComment comment' ∧ nesting (.ofComment comment) u = 0 ∧
      ∀ rest pos, skipFrom comment (u ++ rest) pos = skipFrom comment' rest (pos + u.length) := by
  induction u generalizing comment with
  | nil => exact .inr ⟨comment, rfl, rfl, fun _ _ => rfl⟩
  | cons c u ih =>
    by_cases hsolid : comment = false ∧ isSolid c = true
    · obtain ⟨rfl, hc⟩ := hsolid
      exact .inl ⟨[], c, u, rfl, hc, rfl, rfl, fun rest pos => skip_solid hc (u ++ rest) pos⟩
    · obtain ⟨comment', hnext, hweight, hskip⟩ := skipFrom_cons hsolid
      rcases ih comment' with ⟨v, x, u', rfl, hx, hafter, hnesting, h⟩ | ⟨comment'', hafter, hnesting, h⟩
      · refine .inl ⟨c :: v, x, u', rfl, hx, ?_, ?_, fun rest pos => ?_⟩
        · rw [Zone.after_cons, hnext, hafter]
        · rw [nesting, hnext, hweight, hnesting, Int.add_zero]
        · rw [List.cons_append, hskip, h, List.length_cons, Nat.add_assoc, Nat.add_comm 1]
      · refine .inr ⟨comment'', ?_, ?_, fun rest pos => ?_⟩
        · rw [Zone.after_cons, hnext, hafter]
        · rw [nesting, hnext, hweight, hnesting, Int.add_zero]
        · rw [List.cons_append, hskip, h, List.length_cons, Nat.add_assoc, Nat.add_comm 1]

/-! ## String literals -/

/-- One character of a string literal, or two if the first is a backslash. -/
def literalItem : Pattern Rule :=
  .oneOf [.all [.notAhead (.oneOf [.text "\"", .text "\\"]), .char fun _ => true],
    .all [.text "\\", .char fun _ => true]]

section Literals

variable {x : Char} {rest : List Char} {pos : Nat}

theorem item_char (hquote : x ≠ '"') (hslash : x ≠ '\\') :
    Derives grammar .atomic literalItem ⟨x :: rest, pos⟩ (.matched [] ⟨rest, pos + 1⟩) := by
  have hplain : Derives grammar .atomic (.oneOf [.text "\"", .text "\\"]) ⟨x :: rest, pos⟩ .failed :=
    .second (.text_ne rfl hquote.symm) (.text_ne rfl hslash.symm)
  exact .first (.seq (.notAhead hplain) (.char rfl))

theorem item_escape : Derives grammar .atomic literalItem ⟨'\\' :: x :: rest, pos⟩
    (.matched [] ⟨rest, pos + 1 + 1⟩) := by
  have hslash : Derives grammar .atomic (.oneOf [.text "\"", .text "\\"]) ⟨'\\' :: x :: rest, pos⟩
      (.matched [] ⟨x :: rest, pos + 1⟩) :=
    .second (.text_ne rfl (by decide)) (.text rfl)
  have hboth : Derives grammar .atomic (.seq (.text "\\") (.char fun _ => true)) ⟨'\\' :: x :: rest, pos⟩
      ((Reply.matched [] ⟨rest, pos + 1 + 1⟩).withTrees []) := .seq (.text rfl) (.char rfl)
  exact .second (.seq_fails (.notAhead_fails hslash)) hboth

theorem item_quote : Derives grammar .atomic literalItem ⟨'"' :: rest, pos⟩ .failed := by
  have hquote : Derives grammar .atomic (.oneOf [.text "\"", .text "\\"]) ⟨'"' :: rest, pos⟩
      (.matched [] ⟨rest, pos + 1⟩) := .first (.text rfl)
  exact .second (.seq_fails (.notAhead_fails hquote)) (.seq_fails (.text_ne rfl (by decide)))

theorem item_end : Derives grammar .atomic literalItem ⟨[], pos⟩ .failed :=
  fails_at_end (by decide) (by decide)

/-- A backslash at the end escapes nothing. -/
theorem item_slash : Derives grammar .atomic literalItem ⟨['\\'], pos⟩ .failed := by
  have hslash : Derives grammar .atomic (.oneOf [.text "\"", .text "\\"]) ⟨['\\'], pos⟩
      (.matched [] ⟨[], pos + 1⟩) := .second (.text_ne rfl (by decide)) (.text rfl)
  have hchar : Derives grammar .atomic (.char fun _ => true) ⟨[], pos + 1⟩ .failed :=
    .char_fails fun _ _ h => nomatch h
  have hboth : Derives grammar .atomic (.seq (.text "\\") (.char fun _ => true)) ⟨['\\'], pos⟩
      (Reply.failed.withTrees []) := .seq (.text rfl) hchar
  exact .second (.seq_fails (.notAhead_fails hslash)) hboth

/-- How the inside of a string literal is read when `u` stands behind the opening quote. -/
inductive LiteralReading (u : List Char) : Prop
  /-- Up to the quote that closes it, whatever follows. -/
  | closed (body u' : List Char) (text : u = body ++ '"' :: u') (zone : Zone.string.after body = .string)
      (flat : nesting .string body = 0)
      (reads : ∀ rest pos, Derives grammar .atomic (.many literalItem) ⟨u ++ rest, pos⟩
        (.matched [] ⟨'"' :: u' ++ rest, pos + body.length⟩))
  /-- Up to something else, since there is no such quote. -/
  | unclosed (zone : ¬(Zone.string.after u).Outside)
      (reads : ∀ pos, ∃ left pos', left.head? ≠ some '"' ∧
        Derives grammar .atomic (.many literalItem) ⟨u, pos⟩ (.matched [] ⟨left, pos'⟩))

/-- One more item in front. -/
theorem LiteralReading.cons (item : List Char) {u : List Char} (hzone : Zone.string.after item = .string)
    (hflat : nesting .string item = 0)
    (hitem : ∀ rest pos, Derives grammar .atomic literalItem ⟨item ++ rest, pos⟩
      (.matched [] ⟨rest, pos + item.length⟩)) (h : LiteralReading u) : LiteralReading (item ++ u) := by
  cases h with
  | closed body u' htext hbody hnesting hreads =>
    refine .closed (item ++ body) u' (by rw [htext, List.append_assoc]) ?_ ?_ fun rest pos => ?_
    · rw [Zone.after_append, hzone, hbody]
    · rw [nesting_append, hflat, hzone, hnesting, Int.add_zero]
    · have hmore := Derives.once_more (hitem (u ++ rest) pos) (hreads rest (pos + item.length))
      rw [← List.append_assoc, Nat.add_assoc, ← List.length_append] at hmore
      exact hmore
  | unclosed hu hreads =>
    refine .unclosed ?_ fun pos => ?_
    · rwa [Zone.after_append, hzone]
    · obtain ⟨left, pos', hleft, hmany⟩ := hreads (pos + item.length)
      exact ⟨left, pos', hleft, .once_more (hitem u pos) hmany⟩

/-- **Every string literal is read** in one of these two ways. -/
theorem literalReading (u : List Char) : LiteralReading u := by
  induction hlength : u.length using Nat.strongRecOn generalizing u with
  | ind n ih =>
    subst hlength
    cases u with
    | nil =>
      refine .unclosed (by rintro (h | h) <;> cases h) fun pos => ⟨[], pos, nofun, ?_⟩
      exact .no_more item_end
    | cons x u =>
      by_cases hquote : x = '"'
      · subst hquote
        exact .closed [] u rfl rfl rfl fun rest pos => .no_more item_quote
      by_cases hslash : x = '\\'
      · subst hslash
        cases u with
        | nil =>
          refine .unclosed (by rintro (h | h) <;> cases h) fun pos => ⟨['\\'], pos, by decide, ?_⟩
          exact .no_more item_slash
        | cons y u =>
          refine .cons ['\\', y] rfl rfl (fun rest pos => item_escape) (ih u.length ?_ u rfl)
          rw [List.length_cons, List.length_cons]
          omega
      · have hzone : Zone.string.after [x] = .string := by
          rw [Zone.after_cons, Zone.next, if_neg hquote, if_neg hslash, Zone.after_nil]
        refine .cons [x] hzone rfl (fun rest pos => item_char hquote hslash) (ih u.length ?_ u rfl)
        exact Nat.lt_succ_self _

/-- A string literal that is closed. -/
theorem string_closed {body u : List Char}
    (hreads : ∀ rest pos, Derives grammar .atomic (.many literalItem) ⟨body ++ '"' :: u ++ rest, pos⟩
      (.matched [] ⟨'"' :: u ++ rest, pos + body.length⟩)) (rest : List Char) (pos : Nat) :
    Derives grammar .compact (Rule.body .string) ⟨'"' :: (body ++ '"' :: u) ++ rest, pos⟩
      (.matched [.leaf .stringBody ⟨pos + 1, pos + 1 + body.length⟩ body]
        ⟨u ++ rest, pos + 1 + body.length + 1⟩) := by
  have hbody : Derives grammar .compact (.rule .stringBody) ⟨body ++ '"' :: u ++ rest, pos + 1⟩
      (.matched [.leaf .stringBody ⟨pos + 1, pos + 1 + body.length⟩ body]
        ⟨'"' :: u ++ rest, pos + 1 + body.length⟩) := by
    have hrule : Derives grammar .compact (.rule .stringBody) ⟨body ++ '"' :: u ++ rest, pos + 1⟩
        (.matched (grammar.ruleTrees .compact .stringBody _ _ []) _) := .rule (hreads rest (pos + 1))
    have hpass : Cursor.Passes ⟨body ++ '"' :: u ++ rest, pos + 1⟩ body
        ⟨'"' :: u ++ rest, pos + 1 + body.length⟩ := ⟨List.append_assoc .., rfl⟩
    have hmode : grammar.mode .stringBody = .atomic := rfl
    rwa [Grammar.ruleTrees, if_pos (by decide), Grammar.treeOf, if_pos hmode, hpass.take] at hrule
  exact .seq (.text rfl) (.seq hbody (.text rfl))

/-- A string literal that is not closed. -/
theorem string_unclosed {u left : List Char} {pos' : Nat} (hleft : left.head? ≠ some '"')
    (hreads : Derives grammar .atomic (.many literalItem) ⟨u, pos + 1⟩ (.matched [] ⟨left, pos'⟩)) :
    Derives grammar .compact (Rule.body .string) ⟨'"' :: u, pos⟩ .failed := by
  have hquote : Derives grammar .compact (.text "\"") ⟨left, pos'⟩ .failed := by
    refine .text_fails (Cursor.read?_eq_none_iff.mpr ?_)
    rintro ⟨rest, hrest⟩
    obtain rfl : left = '"' :: rest := hrest
    exact hleft rfl
  have hinside : Derives grammar .compact (.seq (.rule .stringBody) (.text "\"")) ⟨u, pos + 1⟩
      (Reply.failed.withTrees (grammar.ruleTrees .compact .stringBody ⟨u, pos + 1⟩ ⟨left, pos'⟩ [])) :=
    .seq (.rule hreads) hquote
  have hwhole : Derives grammar .compact (Rule.body .string) ⟨'"' :: u, pos⟩
      (Reply.failed.withTrees []) := .seq (.text rfl) hinside
  exact hwhole

/-- No string literal. -/
theorem string_other {c : Cursor} (hc : c.rest.head? ≠ some '"') :
    Derives grammar .compact (Rule.body .string) c .failed := by
  refine .seq_fails (.text_fails (Cursor.read?_eq_none_iff.mpr ?_))
  rintro ⟨rest, hrest⟩
  exact hc (by rw [hrest]; rfl)

/-- A literal with its quotes leaves the zone and the depth as they were. -/
theorem literal_balanced {body : List Char} (hzone : Zone.string.after body = .string)
    (hflat : nesting .string body = 0) :
    Zone.code.after ('"' :: (body ++ ['"'])) = .code ∧ nesting .code ('"' :: (body ++ ['"'])) = 0 := by
  have hopen : Zone.code.next '"' = .string := rfl
  constructor
  · rw [Zone.after_cons, Zone.after_append, hopen, hzone]
    rfl
  · rw [nesting, hopen, nesting_append, hflat, hzone]
    rfl

/-- **A match of a string literal** begins and ends in the code, at the same depth. -/
theorem string_matched {c next : Cursor} {ts : List (ParseTree Rule)}
    (h : Derives grammar .compact (Rule.body .string) c (.matched ts next)) :
    ∃ v, c.rest = v ++ next.rest ∧ Zone.code.after v = .code ∧ nesting .code v = 0 := by
  obtain ⟨u, pos⟩ := c
  by_cases hquote : u.head? = some '"'
  · obtain ⟨u, rfl⟩ : ∃ u', u = '"' :: u' := List.head?_eq_some_iff.mp hquote
    cases literalReading u with
    | closed body u' htext hzone hflat hreads =>
      subst htext
      have hclosed := string_closed hreads [] pos
      rw [List.append_nil] at hclosed
      cases derives_unique rfl h hclosed
      exact ⟨'"' :: (body ++ ['"']), by simp, literal_balanced hzone hflat⟩
    | unclosed hzone hreads =>
      obtain ⟨left, pos', hleft, hmany⟩ := hreads (pos + 1)
      cases derives_unique rfl h (string_unclosed hleft hmany)
  · cases derives_unique rfl h (string_other hquote)

end Literals

end ExactScript.Source
