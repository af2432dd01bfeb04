import ExactScript.Proofs.Derivations
import ExactScript.Source.Parse

/-!
# Enough fuel for any text

The run of the grammar on a text ends for every text, with the fuel that the parser gives it. Between two
characters that are read, a run goes only so deep into the grammar: every rule has a *depth*, more than that
of the rules it can come to without reading. A pattern that matches nothing is not repeated. So the fuel of a
run is bounded by the depth of its pattern and a fixed amount for every character that is left.

## Contents
* `Pattern.nullable`, `Pattern.productive`, `Pattern.depth`;
* `Grammar.Bounded`, and for any grammar that is bounded `length_of_derives`, what a match leaves, and
  `run_ends`;
* `Rule.nullable`, `Rule.depth`, `grammar_bounded` and `runFile_ends`, for the grammar of programs;
* `reply_runFile`, `parseChars_of_derives` and `derives_of_parseChars`: what is derived for a text is what the
  parser finds;
* `exists_derives`, `derives_unique`, `fails_at_end`.
-/

namespace ExactScript.Peg

variable {ρ : Type}

namespace Pattern

/-- Whether a pattern may match without reading a character, when `nl` tells this of the rules. -/
def nullable (nl : ρ → Bool) : Pattern ρ → Bool
  | empty => true
  | text s => s.toList.isEmpty
  | char _ => false
  | seq p q => p.nullable nl && q.nullable nl
  | choice p q => p.nullable nl || q.nullable nl
  | many _ | ahead _ | notAhead _ => true
  | rule r => nl r

/-- Whatever is repeated reads a character each time. -/
def productive (nl : ρ → Bool) : Pattern ρ → Bool
  | seq p q | choice p q => p.productive nl && q.productive nl
  | many p => !p.nullable nl && p.productive nl
  | ahead p | notAhead p => p.productive nl
  | empty | text _ | char _ | rule _ => true

/-- How deep a run goes before it has read a character, or `unit` deeper after every character. -/
def depth (nl : ρ → Bool) (d : ρ → Nat) (unit : Nat) : Pattern ρ → Nat
  | empty | text _ | char _ => 1
  | seq p q =>
    max (p.depth nl d unit)
      (if p.nullable nl then q.depth nl d unit else q.depth nl d unit - unit) + 1
  | choice p q => max (p.depth nl d unit) (q.depth nl d unit) + 1
  | many p | ahead p | notAhead p => p.depth nl d unit + 1
  | rule r => d r

end Pattern

/-- A grammar in which runs end. -/
structure Grammar.Bounded (g : Grammar ρ) (nl : ρ → Bool) (d : ρ → Nat) (unit : Nat) : Prop where
  skip : ∀ c, (g.skip c).rest.length ≤ c.rest.length
  nullable : ∀ r, (g.body r).nullable nl = true → nl r = true
  productive : ∀ r, (g.body r).productive nl = true
  depth : ∀ r, (g.body r).depth nl d unit < d r

variable {g : Grammar ρ} {nl : ρ → Bool} {d : ρ → Nat} {unit : Nat} {mode : Mode} {p : Pattern ρ}
  {c next : Cursor} {ts : List (ParseTree ρ)} {r : Reply ρ}

/-! ## What a match leaves -/

namespace Grammar.Bounded

variable (hg : g.Bounded nl d unit)

include hg

theorem length_nextElement (mode : Mode) (c : Cursor) :
    (g.nextElement mode c).rest.length ≤ c.rest.length := by
  unfold nextElement
  split
  · exact hg.skip c
  · exact Nat.le_refl _

/-- A match does not put anything back, and it has read a character unless its pattern is nullable. -/
theorem length_of_derives (h : Derives g mode p c r) (hr : r = .matched ts next) :
    next.rest.length ≤ c.rest.length ∧ (p.nullable nl = false → next.rest.length < c.rest.length) := by
  induction h generalizing ts next with
  | empty =>
    cases hr
    exact ⟨Nat.le_refl _, fun hp => nomatch hp⟩
  | @text mode s c c' h =>
    cases hr
    have hlen := congrArg List.length (Cursor.append_of_read? h)
    rw [List.length_append] at hlen
    refine ⟨by omega, fun hs => ?_⟩
    have hne : s.toList.length ≠ 0 := by
      intro hzero
      rw [Pattern.nullable, List.eq_nil_of_length_eq_zero hzero] at hs
      cases hs
    omega
  | char h =>
    cases hr
    exact ⟨Nat.le_succ _, fun _ => Nat.lt_succ_self _⟩
  | @seq mode p q c c' r us hp hq ihp ihq =>
    obtain ⟨vs, rfl, -⟩ := Reply.matched_of_withTrees hr
    have hfirst := ihp rfl
    have hsecond := ihq rfl
    have hskip := hg.length_nextElement mode c'
    refine ⟨by omega, fun hnull => ?_⟩
    rw [Pattern.nullable, Bool.and_eq_false_iff] at hnull
    rcases hnull with hnull | hnull
    · have hless := hfirst.2 hnull
      omega
    · have hless := hsecond.2 hnull
      omega
  | first hp ih =>
    have hfirst := ih hr
    refine ⟨hfirst.1, fun hnull => hfirst.2 ?_⟩
    rw [Pattern.nullable, Bool.or_eq_false_iff] at hnull
    exact hnull.1
  | second hp hq ihp ihq =>
    have hsecond := ihq hr
    refine ⟨hsecond.1, fun hnull => hsecond.2 ?_⟩
    rw [Pattern.nullable, Bool.or_eq_false_iff] at hnull
    exact hnull.2
  | @once_more mode p c c' r us hp hmore ihp ihmore =>
    obtain ⟨vs, rfl, -⟩ := Reply.matched_of_withTrees hr
    have hfirst := ihp rfl
    have hrest := ihmore rfl
    have hskip := hg.length_nextElement mode c
    exact ⟨by omega, fun hnull => nomatch hnull⟩
  | no_more hp ih =>
    cases hr
    exact ⟨Nat.le_refl _, fun hnull => nomatch hnull⟩
  | ahead hp ih =>
    cases hr
    exact ⟨Nat.le_refl _, fun hnull => nomatch hnull⟩
  | notAhead hp ih =>
    cases hr
    exact ⟨Nat.le_refl _, fun hnull => nomatch hnull⟩
  | @rule mode r c us c' h ih =>
    cases hr
    have hbody := ih rfl
    refine ⟨hbody.1, fun hnull => hbody.2 ?_⟩
    cases hn : (g.body r).nullable nl with
    | false => rfl
    | true =>
      rw [Pattern.nullable, hg.nullable r hn] at hnull
      cases hnull
  | text_fails _ | char_fails _ | seq_fails _ _ | ahead_fails _ _ | notAhead_fails _ _ | rule_fails _ _ =>
    cases hr

/-! ## Runs -/

/-- **A run ends** when it has fuel for the depth of its pattern and for the characters that are left. -/
theorem run_ends {fuel : Nat} {look : Look} (hunit : 0 < unit) (hp : p.productive nl = true)
    (hfuel : p.depth nl d unit + unit * c.rest.length ≤ fuel) :
    (g.run fuel mode look p c).reply ≠ .exhausted := by
  induction fuel generalizing mode look p c with
  | zero =>
    have hpos : 0 < p.depth nl d unit := by
      cases p with
      | rule r => exact Nat.zero_lt_of_lt (hg.depth r)
      | _ => exact Nat.succ_pos _
    omega
  | succ fuel ih =>
    cases p with
    | empty => exact Reply.matched_ne_exhausted
    | text s =>
      rw [run]
      cases c.read? s.toList with
      | some next => exact Reply.matched_ne_exhausted
      | none => exact Reply.failed_ne_exhausted
    | char accepts =>
      obtain ⟨rest, pos⟩ := c
      cases rest with
      | nil => exact Reply.failed_ne_exhausted
      | cons x rest =>
        rw [run]
        by_cases hx : accepts x = true
        · simp only [hx, if_true]
          exact Reply.matched_ne_exhausted
        · simp only [hx, Bool.false_eq_true, if_false]
          exact Reply.failed_ne_exhausted
    | seq p q =>
      simp only [Pattern.depth] at hfuel
      simp only [Pattern.productive, Bool.and_eq_true] at hp
      rw [reply_run_seq]
      cases hrun : (g.run fuel mode look p c).reply with
      | exhausted => exact absurd hrun (ih hp.1 (by omega))
      | failed => exact Reply.failed_ne_exhausted
      | matched ts next =>
        have hskip := hg.length_nextElement mode next
        have hmatch := hg.length_of_derives (derives_of_matched _ _ hrun) rfl
        have hrest : (g.run fuel mode look q (g.nextElement mode next)).reply ≠ .exhausted := by
          refine ih hp.2 ?_
          -- after a character there is fuel for a whole unit more
          cases hnull : p.nullable nl with
          | true =>
            simp only [hnull, if_true] at hfuel
            have hle := Nat.mul_le_mul_left unit (Nat.le_trans hskip hmatch.1)
            omega
          | false =>
            simp only [hnull, Bool.false_eq_true, if_false] at hfuel
            have hlt := Nat.mul_le_mul_left unit
              (Nat.succ_le_of_lt (Nat.lt_of_le_of_lt hskip (hmatch.2 hnull)))
            rw [Nat.mul_succ] at hlt
            omega
        exact fun heq => hrest (Reply.withTrees_eq_exhausted.mp heq)
    | choice p q =>
      simp only [Pattern.depth] at hfuel
      simp only [Pattern.productive, Bool.and_eq_true] at hp
      rw [reply_run_choice]
      cases hrun : (g.run fuel mode look p c).reply with
      | exhausted => exact absurd hrun (ih hp.1 (by omega))
      | failed => exact ih hp.2 (by omega)
      | matched ts next => exact Reply.matched_ne_exhausted
    | many p =>
      simp only [Pattern.depth] at hfuel
      have hbody := hp
      simp only [Pattern.productive, Bool.and_eq_true, Bool.not_eq_true'] at hbody
      have hskip := hg.length_nextElement mode c
      have hle := Nat.mul_le_mul_left unit hskip
      rw [reply_run_many]
      cases hrun : (g.run fuel mode look p (g.nextElement mode c)).reply with
      | exhausted => exact absurd hrun (ih hbody.2 (by omega))
      | failed => exact Reply.matched_ne_exhausted
      | matched ts next =>
        -- something was read, so there is fuel for the repetition as a whole
        have hmatch := hg.length_of_derives (derives_of_matched _ _ hrun) rfl
        have hless : next.rest.length < c.rest.length := Nat.lt_of_lt_of_le (hmatch.2 hbody.1) hskip
        have hmore : (g.run fuel mode look (.many p) next).reply ≠ .exhausted := by
          refine ih hp ?_
          have hlt := Nat.mul_le_mul_left unit (Nat.succ_le_of_lt hless)
          rw [Nat.mul_succ] at hlt
          simp only [Pattern.depth]
          omega
        exact fun heq => hmore (Reply.withTrees_eq_exhausted.mp heq)
    | ahead p =>
      simp only [Pattern.depth] at hfuel
      rw [reply_run_ahead]
      cases hrun : (g.run fuel mode look.affirm p c).reply with
      | exhausted => exact absurd hrun (ih hp (by omega))
      | failed => exact Reply.failed_ne_exhausted
      | matched ts next => exact Reply.matched_ne_exhausted
    | notAhead p =>
      simp only [Pattern.depth] at hfuel
      rw [reply_run_notAhead]
      cases hrun : (g.run fuel mode look.negate p c).reply with
      | exhausted => exact absurd hrun (ih hp (by omega))
      | failed => exact Reply.matched_ne_exhausted
      | matched ts next => exact Reply.failed_ne_exhausted
    | rule r =>
      simp only [Pattern.depth] at hfuel
      have hdepth := hg.depth r
      rw [reply_run_rule]
      cases hrun : (g.run fuel (g.mode r) look (g.body r) c).reply with
      | exhausted => exact absurd hrun (ih (hg.productive r) (by omega))
      | failed => exact Reply.failed_ne_exhausted
      | matched ts next => exact Reply.matched_ne_exhausted

end Grammar.Bounded

end ExactScript.Peg

namespace ExactScript.Source

open Peg

/-! ## The grammar of programs -/

namespace Rule

/-- The rules that may match nothing. -/
def nullable : Rule → Bool
  | endOfInput | file | statements | params | args | stringBody => true
  | _ => false

/-- A depth for every rule, with the operators one above the other. -/
def depth : Rule → Nat
  | file => 72
  | statements => 68
  | statement => 64
  | args | mapEntry | forUpdate => 60
  | expression => 56
  | orExpr => 54
  | andExpr => 52
  | equality => 50
  | comparison => 48
  | concat => 46
  | sum => 44
  | product => 42
  | unary => 40
  | power => 38
  | postfix_ => 36
  | primary => 34
  | params => 24
  | put | assignment | call => 22
  | ident => 20
  | suffix => 16
  | keyword _ => 8
  | _ => 12

end Rule

theorem length_skipFrom (comment : Bool) (cs : List Char) (pos : Nat) :
    (skipFrom comment cs pos).rest.length ≤ cs.length := by
  induction cs generalizing comment pos with
  | nil => exact Nat.le_refl _
  | cons c rest ih =>
    rw [skipFrom]
    split
    · exact Nat.le_succ_of_le (ih _ _)
    · split
      · exact Nat.le_succ_of_le (ih _ _)
      · split
        · exact Nat.le_succ_of_le (ih _ _)
        · exact Nat.le_refl _

theorem grammar_bounded : grammar.Bounded Rule.nullable Rule.depth 256 where
  skip c := length_skipFrom false c.rest c.pos
  nullable r := by
    cases r with
    | keyword k => cases k <;> decide
    | _ => decide
  productive r := by
    cases r with
    | keyword k => cases k <;> decide
    | _ => decide
  depth r := by
    cases r with
    | keyword k => cases k <;> decide
    | _ => decide

/-- **The parser has enough fuel** for every text. -/
theorem runFile_ends (src : List Char) : (runFile src).reply ≠ .exhausted := by
  refine grammar_bounded.run_ends (by decide) rfl ?_
  show 72 + 256 * src.length ≤ 256 * (src.length + 2)
  omega

/-- The reply to a whole text is the derived one. -/
theorem reply_runFile {src : List Char} {r : Reply Rule}
    (h : Derives grammar .spaced (.rule .file) ⟨src, 0⟩ r) : (runFile src).reply = r :=
  (h.reply_run _ _).resolve_left (runFile_ends src)

theorem parseChars_of_derives {src : List Char} {t : ParseTree Rule} {ts : List (ParseTree Rule)}
    {next : Cursor} {tree : List Surface}
    (h : Derives grammar .spaced (.rule .file) ⟨src, 0⟩ (.matched (t :: ts) next))
    (hread : readFile t = .ok tree) : parseChars src = .ok tree := by
  have hreply := reply_runFile h
  unfold parseChars
  simp only [hreply, hread]

theorem parseChars_error_of_derives {src : List Char} {t : ParseTree Rule} {ts : List (ParseTree Rule)}
    {next : Cursor} {f : Fault} (h : Derives grammar .spaced (.rule .file) ⟨src, 0⟩ (.matched (t :: ts) next))
    (hread : readFile t = .error f) : ∃ e, parseChars src = .error e := by
  have hreply := reply_runFile h
  unfold parseChars
  simp only [hreply, hread]
  exact ⟨_, rfl⟩

/-- A text that is parsed has a tree that is read. -/
theorem derives_of_parseChars {src : List Char} {tree : List Surface} (h : parseChars src = .ok tree) :
    ∃ t ts next, Derives grammar .spaced (.rule .file) ⟨src, 0⟩ (.matched (t :: ts) next) ∧
      readFile t = .ok tree := by
  unfold parseChars at h
  dsimp only at h
  split at h
  · next t ts next hrun =>
    split at h
    · next hread =>
      cases h
      exact ⟨t, ts, next, derives_of_matched _ _ hrun, hread⟩
    · cases h
  · cases h

/-- Every pattern of the grammar has an answer at every cursor. -/
theorem exists_derives (mode : Mode) {p : Pattern Rule} (hp : p.productive Rule.nullable = true)
    (c : Cursor) : ∃ r, r ≠ .exhausted ∧ Derives grammar mode p c r := by
  have hends : (grammar.run (p.depth Rule.nullable Rule.depth 256 + 256 * c.rest.length) mode .plain p
      c).reply ≠ .exhausted := grammar_bounded.run_ends (by decide) hp (Nat.le_refl _)
  exact ⟨_, hends, derives_of_run _ _ rfl hends⟩

/-- And only one. -/
theorem derives_unique {mode : Mode} {p : Pattern Rule} (hp : p.productive Rule.nullable = true) {c : Cursor}
    {r r' : Reply Rule} (h : Derives grammar mode p c r) (h' : Derives grammar mode p c r') : r = r' := by
  have hends : (grammar.run (p.depth Rule.nullable Rule.depth 256 + 256 * c.rest.length) mode .plain p
      c).reply ≠ .exhausted := grammar_bounded.run_ends (by decide) hp (Nat.le_refl _)
  rw [← (h.reply_run _ _).resolve_left hends, ← (h'.reply_run _ _).resolve_left hends]

/-- At the end of the text, only a nullable pattern matches. -/
theorem fails_at_end {mode : Mode} {p : Pattern Rule} {pos : Nat}
    (hp : p.productive Rule.nullable = true) (hnull : p.nullable Rule.nullable = false) :
    Derives grammar mode p ⟨[], pos⟩ .failed := by
  obtain ⟨r, hends, hr⟩ := exists_derives mode hp ⟨[], pos⟩
  cases r with
  | failed => exact hr
  | matched ts next => exact absurd ((grammar_bounded.length_of_derives hr rfl).2 hnull) (Nat.not_lt_zero _)
  | exhausted => exact absurd rfl hends

end ExactScript.Source
