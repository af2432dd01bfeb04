import ExactScript.Source.Peg

/-!
# Derivations of a grammar

What a pattern matches, without fuel and without the bookkeeping of attempts: `Derives g mode p c r` says that
the pattern `p` at the cursor `c` has the answer `r`, a match or a failure. A run that ends has the answer of
a derivation (`derives_of_run`), and where there is a derivation, every run has its answer or runs out of fuel
(`Derives.reply_run`). Attempts and lookaheads have no influence on answers.

## Contents
* `Reply.withTrees`, and the reply of a run by the form of its pattern;
* `Derives`, with a rule for each way in which a pattern can match or fail;
* `derives_of_run` and `Derives.reply_run`;
* derived rules for failures, words of text and repeated patterns.
-/

namespace ExactScript.Peg

/-! ## Replies of runs -/

section Replies

variable {ρ : Type} {g : Grammar ρ} {mode : Mode} {p q : Pattern ρ} {c : Cursor}

/-- The reply with trees that were matched before. -/
def Reply.withTrees (ts : List (ParseTree ρ)) : Reply ρ → Reply ρ
  | matched us next => matched (ts ++ us) next
  | r => r

theorem Reply.matched_ne_exhausted {ts : List (ParseTree ρ)} {next : Cursor} :
    Reply.matched ts next ≠ .exhausted := nofun

theorem Reply.failed_ne_exhausted : (Reply.failed : Reply ρ) ≠ .exhausted := nofun

theorem Reply.withTrees_eq_exhausted {r : Reply ρ} {ts : List (ParseTree ρ)} :
    r.withTrees ts = .exhausted ↔ r = .exhausted := by
  cases r with
  | matched us next => exact iff_of_false matched_ne_exhausted matched_ne_exhausted
  | failed => exact iff_of_false failed_ne_exhausted failed_ne_exhausted
  | exhausted => exact ⟨fun _ => rfl, fun _ => rfl⟩

theorem Reply.matched_of_withTrees {r : Reply ρ} {ts us : List (ParseTree ρ)} {next : Cursor}
    (h : r.withTrees ts = .matched us next) : ∃ vs, r = .matched vs next ∧ us = ts ++ vs := by
  cases r with
  | matched vs c =>
    cases h
    exact ⟨vs, rfl, rfl⟩
  | failed => cases h
  | exhausted => cases h

theorem Outcome.reply_withTrees (o : Outcome ρ) (ts : List (ParseTree ρ)) :
    (o.withTrees ts).reply = o.reply.withTrees ts := by
  unfold Outcome.withTrees Reply.withTrees
  cases h : o.reply <;> simp only [h]

/-- The trees of a matched rule: one for the rule, or none inside a token. -/
def Grammar.ruleTrees (g : Grammar ρ) (mode : Mode) (r : ρ) (c next : Cursor)
    (ts : List (ParseTree ρ)) : List (ParseTree ρ) :=
  if mode ≠ .atomic then [g.treeOf r c next ts] else []

namespace Grammar

variable (fuel : Nat) (look : Look)

theorem reply_run_seq :
    (g.run (fuel + 1) mode look (.seq p q) c).reply =
      match (g.run fuel mode look p c).reply with
      | .matched ts next => (g.run fuel mode look q (g.nextElement mode next)).reply.withTrees ts
      | r => r := by
  rw [run]
  cases h : (g.run fuel mode look p c).reply with
  | matched ts next => exact Outcome.reply_withTrees _ _
  | failed => exact h
  | exhausted => exact h

theorem reply_run_choice :
    (g.run (fuel + 1) mode look (.choice p q) c).reply =
      match (g.run fuel mode look p c).reply with
      | .failed => (g.run fuel mode look q c).reply
      | r => r := by
  rw [run]
  cases h : (g.run fuel mode look p c).reply with
  | matched ts next => exact h
  | failed => rfl
  | exhausted => exact h

theorem reply_run_many :
    (g.run (fuel + 1) mode look (.many p) c).reply =
      match (g.run fuel mode look p (g.nextElement mode c)).reply with
      | .matched ts next => (g.run fuel mode look (.many p) next).reply.withTrees ts
      | .failed => .matched [] c
      | .exhausted => .exhausted := by
  rw [run]
  cases h : (g.run fuel mode look p (g.nextElement mode c)).reply with
  | matched ts next => exact Outcome.reply_withTrees _ _
  | failed => rfl
  | exhausted => exact h

theorem reply_run_ahead :
    (g.run (fuel + 1) mode look (.ahead p) c).reply =
      match (g.run fuel mode look.affirm p c).reply with
      | .matched _ _ => .matched [] c
      | r => r := by
  rw [run]
  cases h : (g.run fuel mode look.affirm p c).reply with
  | matched ts next => rfl
  | failed => exact h
  | exhausted => exact h

theorem reply_run_notAhead :
    (g.run (fuel + 1) mode look (.notAhead p) c).reply =
      match (g.run fuel mode look.negate p c).reply with
      | .matched _ _ => .failed
      | .failed => .matched [] c
      | .exhausted => .exhausted := by
  rw [run]
  cases h : (g.run fuel mode look.negate p c).reply with
  | matched ts next => rfl
  | failed => rfl
  | exhausted => exact h

theorem reply_run_rule (r : ρ) :
    (g.run (fuel + 1) mode look (.rule r) c).reply =
      match (g.run fuel (g.mode r) look (g.body r) c).reply with
      | .matched ts next => .matched (g.ruleTrees mode r c next ts) next
      | r => r := by
  rw [run]
  cases h : (g.run fuel (g.mode r) look (g.body r) c).reply with
  | matched ts next => rfl
  | failed => rfl
  | exhausted => exact h

end Grammar

end Replies

/-! ## Derivations -/

/-- The answer of a pattern at a cursor, inside a rule of the given mode. -/
inductive Derives {ρ : Type} (g : Grammar ρ) : Mode → Pattern ρ → Cursor → Reply ρ → Prop where
  | empty {mode c} : Derives g mode .empty c (.matched [] c)
  | text {mode s c next} (h : c.read? s.toList = some next) :
      Derives g mode (.text s) c (.matched [] next)
  | text_fails {mode s c} (h : c.read? s.toList = none) : Derives g mode (.text s) c .failed
  | char {mode accepts x rest pos} (h : accepts x = true) :
      Derives g mode (.char accepts) ⟨x :: rest, pos⟩ (.matched [] ⟨rest, pos + 1⟩)
  | char_fails {mode accepts c} (h : ∀ x rest, c.rest = x :: rest → accepts x = false) :
      Derives g mode (.char accepts) c .failed
  | seq {mode p q c next r ts} (hp : Derives g mode p c (.matched ts next))
      (hq : Derives g mode q (g.nextElement mode next) r) :
      Derives g mode (.seq p q) c (r.withTrees ts)
  | seq_fails {mode p q c} (hp : Derives g mode p c .failed) : Derives g mode (.seq p q) c .failed
  | first {mode p q c ts next} (hp : Derives g mode p c (.matched ts next)) :
      Derives g mode (.choice p q) c (.matched ts next)
  | second {mode p q c r} (hp : Derives g mode p c .failed) (hq : Derives g mode q c r) :
      Derives g mode (.choice p q) c r
  | once_more {mode p c next r ts} (hp : Derives g mode p (g.nextElement mode c) (.matched ts next))
      (hmore : Derives g mode (.many p) next r) : Derives g mode (.many p) c (r.withTrees ts)
  | no_more {mode p c} (hp : Derives g mode p (g.nextElement mode c) .failed) :
      Derives g mode (.many p) c (.matched [] c)
  | ahead {mode p c ts next} (hp : Derives g mode p c (.matched ts next)) :
      Derives g mode (.ahead p) c (.matched [] c)
  | ahead_fails {mode p c} (hp : Derives g mode p c .failed) : Derives g mode (.ahead p) c .failed
  | notAhead {mode p c} (hp : Derives g mode p c .failed) :
      Derives g mode (.notAhead p) c (.matched [] c)
  | notAhead_fails {mode p c ts next} (hp : Derives g mode p c (.matched ts next)) :
      Derives g mode (.notAhead p) c .failed
  | rule {mode r c ts next} (h : Derives g (g.mode r) (g.body r) c (.matched ts next)) :
      Derives g mode (.rule r) c (.matched (g.ruleTrees mode r c next ts) next)
  | rule_fails {mode r c} (h : Derives g (g.mode r) (g.body r) c .failed) :
      Derives g mode (.rule r) c .failed

variable {ρ : Type} {g : Grammar ρ} {mode : Mode} {p q : Pattern ρ} {c : Cursor} {r : Reply ρ}

/-- **A run that ends has a derivation** of its answer. -/
theorem derives_of_run (fuel : Nat) (look : Look) (h : (g.run fuel mode look p c).reply = r)
    (hr : r ≠ .exhausted) : Derives g mode p c r := by
  induction fuel generalizing mode look p c r with
  | zero => exact absurd h.symm hr
  | succ fuel ih =>
    cases p with
    | empty =>
      cases h
      exact .empty
    | text s =>
      rw [Grammar.run] at h
      cases hread : c.read? s.toList with
      | some next =>
        rw [hread] at h
        cases h
        exact .text hread
      | none =>
        rw [hread] at h
        cases h
        exact .text_fails hread
    | char accepts =>
      obtain ⟨rest, pos⟩ := c
      cases rest with
      | nil =>
        cases h
        exact .char_fails fun x rest heq => nomatch heq
      | cons x rest =>
        rw [Grammar.run] at h
        by_cases hx : accepts x = true
        · simp only [hx, if_true] at h
          cases h
          exact .char hx
        · simp only [hx, Bool.false_eq_true, if_false] at h
          cases h
          refine .char_fails fun y more heq => ?_
          cases heq
          exact Bool.eq_false_iff.mpr hx
    | seq p q =>
      rw [Grammar.reply_run_seq] at h
      cases hp : (g.run fuel mode look p c).reply with
      | matched ts next =>
        simp only [hp] at h
        subst h
        exact .seq (ih _ hp Reply.matched_ne_exhausted)
          (ih _ rfl fun hq => hr (Reply.withTrees_eq_exhausted.mpr hq))
      | failed =>
        simp only [hp] at h
        subst h
        exact .seq_fails (ih _ hp Reply.failed_ne_exhausted)
      | exhausted => exact absurd (by rw [← h, hp]) hr
    | choice p q =>
      rw [Grammar.reply_run_choice] at h
      cases hp : (g.run fuel mode look p c).reply with
      | matched ts next =>
        simp only [hp] at h
        subst h
        exact .first (ih _ hp Reply.matched_ne_exhausted)
      | failed =>
        simp only [hp] at h
        exact .second (ih _ hp Reply.failed_ne_exhausted) (ih _ h hr)
      | exhausted => exact absurd (by rw [← h, hp]) hr
    | many p =>
      rw [Grammar.reply_run_many] at h
      cases hp : (g.run fuel mode look p (g.nextElement mode c)).reply with
      | matched ts next =>
        simp only [hp] at h
        subst h
        exact .once_more (ih _ hp Reply.matched_ne_exhausted)
          (ih _ rfl fun hmore => hr (Reply.withTrees_eq_exhausted.mpr hmore))
      | failed =>
        simp only [hp] at h
        subst h
        exact .no_more (ih _ hp Reply.failed_ne_exhausted)
      | exhausted => exact absurd (by rw [← h, hp]) hr
    | ahead p =>
      rw [Grammar.reply_run_ahead] at h
      cases hp : (g.run fuel mode look.affirm p c).reply with
      | matched ts next =>
        simp only [hp] at h
        subst h
        exact .ahead (ih _ hp Reply.matched_ne_exhausted)
      | failed =>
        simp only [hp] at h
        subst h
        exact .ahead_fails (ih _ hp Reply.failed_ne_exhausted)
      | exhausted => exact absurd (by rw [← h, hp]) hr
    | notAhead p =>
      rw [Grammar.reply_run_notAhead] at h
      cases hp : (g.run fuel mode look.negate p c).reply with
      | matched ts next =>
        simp only [hp] at h
        subst h
        exact .notAhead_fails (ih _ hp Reply.matched_ne_exhausted)
      | failed =>
        simp only [hp] at h
        subst h
        exact .notAhead (ih _ hp Reply.failed_ne_exhausted)
      | exhausted => exact absurd (by rw [← h, hp]) hr
    | rule r =>
      rw [Grammar.reply_run_rule] at h
      cases hrule : (g.run fuel (g.mode r) look (g.body r) c).reply with
      | matched ts next =>
        simp only [hrule] at h
        subst h
        exact .rule (ih _ hrule Reply.matched_ne_exhausted)
      | failed =>
        simp only [hrule] at h
        subst h
        exact .rule_fails (ih _ hrule Reply.failed_ne_exhausted)
      | exhausted => exact absurd (by rw [← h, hrule]) hr

theorem derives_of_matched (fuel : Nat) (look : Look) {ts : List (ParseTree ρ)} {next : Cursor}
    (h : (g.run fuel mode look p c).reply = .matched ts next) : Derives g mode p c (.matched ts next) :=
  derives_of_run fuel look h Reply.matched_ne_exhausted

theorem derives_of_failed (fuel : Nat) (look : Look) (h : (g.run fuel mode look p c).reply = .failed) :
    Derives g mode p c .failed :=
  derives_of_run fuel look h Reply.failed_ne_exhausted

/-- **Runs agree with derivations**: whatever its fuel, a run ends with the derived answer or has not enough
fuel. -/
theorem Derives.reply_run (h : Derives g mode p c r) (fuel : Nat) (look : Look) :
    (g.run fuel mode look p c).reply = .exhausted ∨ (g.run fuel mode look p c).reply = r := by
  induction h generalizing fuel look with
  | empty => cases fuel with
    | zero => exact .inl rfl
    | succ fuel => exact .inr rfl
  | text h | text_fails h => cases fuel with
    | zero => exact .inl rfl
    | succ fuel =>
      rw [Grammar.run]
      simp only [h, or_true]
  | char h => cases fuel with
    | zero => exact .inl rfl
    | succ fuel =>
      rw [Grammar.run]
      simp only [h, if_true, or_true]
  | @char_fails mode accepts c h => cases fuel with
    | zero => exact .inl rfl
    | succ fuel =>
      obtain ⟨rest, pos⟩ := c
      cases rest with
      | nil => exact .inr rfl
      | cons x rest =>
        rw [Grammar.run]
        simp only [h x rest rfl, Bool.false_eq_true, if_false, or_true]
  | seq hp hq ihp ihq => cases fuel with
    | zero => exact .inl rfl
    | succ fuel =>
      rw [Grammar.reply_run_seq]
      rcases ihp fuel look with h | h
      · simp only [h, true_or]
      · rcases ihq fuel look with h' | h'
        · simp only [h, h', Reply.withTrees, true_or]
        · simp only [h, h', or_true]
  | seq_fails hp ih => cases fuel with
    | zero => exact .inl rfl
    | succ fuel =>
      rw [Grammar.reply_run_seq]
      rcases ih fuel look with h | h <;> simp only [h, true_or, or_true]
  | first hp ih => cases fuel with
    | zero => exact .inl rfl
    | succ fuel =>
      rw [Grammar.reply_run_choice]
      rcases ih fuel look with h | h <;> simp only [h, true_or, or_true]
  | second hp hq ihp ihq => cases fuel with
    | zero => exact .inl rfl
    | succ fuel =>
      rw [Grammar.reply_run_choice]
      rcases ihp fuel look with h | h
      · simp only [h, true_or]
      · simp only [h]
        exact ihq fuel look
  | once_more hp hmore ihp ihmore => cases fuel with
    | zero => exact .inl rfl
    | succ fuel =>
      rw [Grammar.reply_run_many]
      rcases ihp fuel look with h | h
      · simp only [h, true_or]
      · rcases ihmore fuel look with h' | h'
        · simp only [h, h', Reply.withTrees, true_or]
        · simp only [h, h', or_true]
  | no_more hp ih => cases fuel with
    | zero => exact .inl rfl
    | succ fuel =>
      rw [Grammar.reply_run_many]
      rcases ih fuel look with h | h <;> simp only [h, true_or, or_true]
  | ahead hp ih | ahead_fails hp ih => cases fuel with
    | zero => exact .inl rfl
    | succ fuel =>
      rw [Grammar.reply_run_ahead]
      rcases ih fuel look.affirm with h | h <;> simp only [h, true_or, or_true]
  | notAhead hp ih | notAhead_fails hp ih => cases fuel with
    | zero => exact .inl rfl
    | succ fuel =>
      rw [Grammar.reply_run_notAhead]
      rcases ih fuel look.negate with h | h <;> simp only [h, true_or, or_true]
  | rule h ih | rule_fails h ih => cases fuel with
    | zero => exact .inl rfl
    | succ fuel =>
      rw [Grammar.reply_run_rule]
      rcases ih fuel look with h | h <;> simp only [h, true_or, or_true]

/-! ## Text -/

namespace Cursor

theorem read?_append (xs rest : List Char) (pos : Nat) :
    (⟨xs ++ rest, pos⟩ : Cursor).read? xs = some ⟨rest, pos + xs.length⟩ := by
  induction xs generalizing pos with
  | nil => rfl
  | cons x xs ih =>
    simp only [List.cons_append, read?, if_true, ih, List.length_cons]
    rw [Nat.add_assoc, Nat.add_comm 1]

theorem read?_ne {x y : Char} (h : x ≠ y) (xs rest : List Char) (pos : Nat) :
    (⟨y :: rest, pos⟩ : Cursor).read? (x :: xs) = none := if_neg h

/-- What was read stood at the beginning. -/
theorem append_of_read? {c next : Cursor} {xs : List Char} (h : c.read? xs = some next) :
    c.rest = xs ++ next.rest := by
  induction xs generalizing c with
  | nil =>
    cases h
    rfl
  | cons x xs ih =>
    obtain ⟨rest, pos⟩ := c
    cases rest with
    | nil => cases h
    | cons y rest =>
      simp only [read?] at h
      split at h
      · case isTrue heq => rw [heq, List.cons_append, ← ih h]
      · cases h

end Cursor

namespace Derives

variable {rest : List Char} {pos : Nat} {ts : List (ParseTree ρ)} {next : Cursor}

theorem text_append {s : String} :
    Derives g mode (.text s) ⟨s.toList ++ rest, pos⟩ (.matched [] ⟨rest, pos + s.toList.length⟩) :=
  .text (Cursor.read?_append _ _ _)

/-- A text fails where another character stands. -/
theorem text_ne {s : String} {x y : Char} {xs : List Char} (hs : s.toList = x :: xs) (h : x ≠ y) :
    Derives g mode (.text s) ⟨y :: rest, pos⟩ .failed := by
  refine .text_fails ?_
  rw [hs]
  exact Cursor.read?_ne h _ _ _

theorem char_ne {accepts : Char → Bool} {y : Char} (h : accepts y = false) :
    Derives g mode (.char accepts) ⟨y :: rest, pos⟩ .failed := by
  refine .char_fails fun x more heq => ?_
  cases heq
  exact h

/-- Characters of a class are read up to the first one that is not in it. -/
theorem many_char {accepts : Char → Bool} {cs : List Char} (hmode : mode ≠ .spaced)
    (hcs : ∀ x ∈ cs, accepts x = true) (hrest : ∀ x more, rest = x :: more → accepts x = false) :
    Derives g mode (.many (.char accepts)) ⟨cs ++ rest, pos⟩ (.matched [] ⟨rest, pos + cs.length⟩) := by
  have hstay : ∀ c, g.nextElement mode c = c := fun c => if_neg hmode
  induction cs generalizing pos with
  | nil =>
    refine .no_more ?_
    rw [hstay]
    exact .char_fails hrest
  | cons x cs ih =>
    have hfirst : Derives g mode (.char accepts) (g.nextElement mode ⟨x :: (cs ++ rest), pos⟩)
        (.matched [] ⟨cs ++ rest, pos + 1⟩) := by
      rw [hstay]
      exact .char (hcs x List.mem_cons_self)
    have hmore : Derives g mode (.many (.char accepts)) ⟨cs ++ rest, pos + 1⟩
        (.matched [] ⟨rest, pos + 1 + cs.length⟩) := ih fun y hy => hcs y (List.mem_cons_of_mem x hy)
    rw [List.length_cons, Nat.add_comm cs.length, ← Nat.add_assoc]
    exact .once_more hfirst hmore

/-- Of some texts, in order, the first one that stands there is read. -/
theorem oneOf_texts (mode : Mode) (ws : List String) (c : Cursor) :
    Derives g mode (.oneOf (ws.map .text)) c .failed ∨
    ∃ w ∈ ws, ∃ next, c.read? w.toList = some next ∧
      Derives g mode (.oneOf (ws.map .text)) c (.matched [] next) := by
  induction ws with
  | nil => exact .inl (.notAhead_fails .empty)
  | cons w ws ih =>
    cases hread : c.read? w.toList with
    | some next =>
      refine .inr ⟨w, List.mem_cons_self, next, hread, ?_⟩
      cases ws with
      | nil => exact .text hread
      | cons w' ws => exact .first (.text hread)
    | none =>
      cases ws with
      | nil => exact .inl (.text_fails hread)
      | cons w' ws =>
        rcases ih with h | ⟨v, hv, next, hnext, h⟩
        · exact .inl (.second (.text_fails hread) h)
        · exact .inr ⟨v, List.mem_cons_of_mem w hv, next, hnext, .second (.text_fails hread) h⟩

/-- The tree of a token holds its text. -/
theorem token {a : ρ} {t : List Char} (ha : g.mode a = .atomic)
    (h : Derives g .atomic (g.body a) ⟨t ++ rest, pos⟩ (.matched ts ⟨rest, pos + t.length⟩)) :
    Derives g .spaced (.rule a) ⟨t ++ rest, pos⟩
      (.matched [.leaf a ⟨pos, pos + t.length⟩ t] ⟨rest, pos + t.length⟩) := by
  have hrule : Derives g .spaced (.rule a) ⟨t ++ rest, pos⟩
      (.matched (g.ruleTrees .spaced a ⟨t ++ rest, pos⟩ ⟨rest, pos + t.length⟩ ts) _) :=
    .rule (by rw [ha]; exact h)
  have htext : (t ++ rest).take (pos + t.length - pos) = t := by
    rw [Nat.add_sub_cancel_left, List.take_left]
  rw [Grammar.ruleTrees, if_pos (by decide), Grammar.treeOf, if_pos ha] at hrule
  rw [htext] at hrule
  exact hrule

/-- The tree of a rule that is no token holds the trees of its parts. -/
theorem node {a : ρ} {c : Cursor} (ha : g.mode a = .spaced)
    (h : Derives g .spaced (g.body a) c (.matched ts next)) :
    Derives g .spaced (.rule a) c (.matched [.node a ⟨c.pos, next.pos⟩ ts] next) := by
  have hrule : Derives g .spaced (.rule a) c (.matched (g.ruleTrees .spaced a c next ts) next) :=
    .rule (by rw [ha]; exact h)
  rwa [Grammar.ruleTrees, if_pos (by decide), Grammar.treeOf,
    if_neg (by rw [ha]; decide)] at hrule

theorem node_fails {a : ρ} {c : Cursor} (ha : g.mode a = .spaced)
    (h : Derives g .spaced (g.body a) c .failed) : Derives g .spaced (.rule a) c .failed :=
  .rule_fails (by rw [ha]; exact h)

/-! ## Repetitions -/

theorem seq_cases (h : Derives g mode (.seq p q) c r) :
    (Derives g mode p c .failed ∧ r = .failed) ∨
    ∃ ts next r', Derives g mode p c (.matched ts next) ∧ Derives g mode q (g.nextElement mode next) r' ∧
      r = r'.withTrees ts := by
  cases h with
  | seq hp hq => exact .inr ⟨_, _, _, hp, hq, rfl⟩
  | seq_fails hp => exact .inl ⟨hp, rfl⟩

theorem seq_matched {next : Cursor} {ts : List (ParseTree ρ)} (h : Derives g mode (.seq p q) c (.matched ts next)) :
    ∃ us n vs, Derives g mode p c (.matched us n) ∧ Derives g mode q (g.nextElement mode n) (.matched vs next) ∧
      ts = us ++ vs := by
  rcases seq_cases h with ⟨-, hr⟩ | ⟨us, n, r, hp, hq, hr⟩
  · cases hr
  · obtain ⟨vs, rfl, rfl⟩ := Reply.matched_of_withTrees hr.symm
    exact ⟨us, n, vs, hp, hq, rfl⟩

/-- A matched rule has a match of its body. -/
theorem of_rule {x : ρ} {next : Cursor} {ts : List (ParseTree ρ)}
    (h : Derives g mode (.rule x) c (.matched ts next)) :
    ∃ us, Derives g (g.mode x) (g.body x) c (.matched us next) ∧ ts = g.ruleTrees mode x c next us := by
  generalize ha : Reply.matched ts next = a at h
  cases h with
  | rule h =>
    cases ha
    exact ⟨_, h, rfl⟩
  | rule_fails => cases ha

/-- A repetition does not fail. -/
theorem many_matched (h : Derives g mode (.many p) c r) : ∃ ts next, r = .matched ts next := by
  generalize hq : Pattern.many p = q at h
  induction h with
  | once_more _ _ _ ih =>
    obtain ⟨ts, next, rfl⟩ := ih hq
    exact ⟨_, next, rfl⟩
  | no_more => exact ⟨[], _, rfl⟩
  | _ => cases hq

/-- What holds where a repetition ends, and is kept by one more match in front, holds where it begins. -/
theorem of_many {P : Cursor → List (ParseTree ρ) → Prop} {n : Cursor} {ts : List (ParseTree ρ)}
    (h : Derives g mode (.many p) c (.matched ts n))
    (stop : Derives g mode p (g.nextElement mode n) .failed → P n [])
    (step : ∀ {c us next ts}, Derives g mode p (g.nextElement mode c) (.matched us next) → P next ts →
      P c (us ++ ts)) : P c ts := by
  generalize hq : Pattern.many p = q at h
  generalize ha : Reply.matched ts n = a at h
  induction h generalizing ts with
  | once_more hp _ _ ih =>
    cases hq
    obtain ⟨us, hr, rfl⟩ := Reply.matched_of_withTrees ha.symm
    exact step hp (ih stop step rfl hr.symm)
  | no_more hp =>
    cases hq
    cases ha
    exact stop hp
  | _ => cases hq

/-- One more match in front of a repetition. -/
theorem seq_many_cons {us : List (ParseTree ρ)} {c' c'' : Cursor}
    (hp : Derives g mode p (g.nextElement mode c) (.matched us c'))
    (h : Derives g mode (.seq (.many p) q) c' (.matched ts c'')) :
    Derives g mode (.seq (.many p) q) c (.matched (us ++ ts) c'') := by
  obtain ⟨vs, next, ws, hmany, hq, rfl⟩ := seq_matched h
  have hseq := Derives.seq (.once_more hp hmany) hq
  rwa [Reply.withTrees, List.append_assoc] at hseq

/-- Layout may stand in front of a repetition that another pattern follows. -/
theorem seq_many_of_skipped {c' : Cursor} (hskip : g.nextElement mode c = c')
    (hagain : g.nextElement mode c' = c') (h : Derives g mode (.seq (.many p) q) c' r) :
    Derives g mode (.seq (.many p) q) c r := by
  have hmany : ∀ {s}, Derives g mode (.many p) c' s →
      Derives g mode (.many p) c s ∨ (s = .matched [] c' ∧ Derives g mode (.many p) c (.matched [] c)) := by
    intro s hs
    cases hs with
    | once_more hp hmore =>
      refine .inl (.once_more ?_ hmore)
      rwa [hskip, ← hagain]
    | no_more hp =>
      refine .inr ⟨rfl, .no_more ?_⟩
      rwa [hskip, ← hagain]
  rcases seq_cases h with ⟨hp, rfl⟩ | ⟨ts, next, r, hp, hq, rfl⟩
  · rcases hmany hp with hp | ⟨hr, -⟩
    · exact .seq_fails hp
    · cases hr
  · rcases hmany hp with hp | ⟨hr, hnothing⟩
    · exact .seq hp hq
    · -- the repetition has matched nothing, and what it left is skipped all the same
      cases hr
      rw [hagain] at hq
      exact .seq hnothing (hskip.symm ▸ hq)

end Derives

end ExactScript.Peg
