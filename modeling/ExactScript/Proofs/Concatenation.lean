import ExactScript.Proofs.Forks
import ExactScript.Proofs.Places

/-!
# Programs one after the other

Two programs with a semicolon between them are one program, whose statements are those of the first and then
those of the second. A grammar of this kind does not give this by itself: a run may look further ahead than what it
matches, and now there is more to see. But a program closes all of its brackets, so where a run through the first
one comes to its end, none is open. There only the list of statements looks for a semicolon, and to every other
rule the semicolon is as little use as the end of the text.

## Contents
* `Series`, statements in a row; `series_of_derives` and `Series.derives`, `series_of_parseChars` and
  `parseChars_of_series`: it is what the grammar reads, and what a program is;
* `balanced_of_parseChars`: a program closes what it opens;
* `Continued`, `parting_continued`: texts one of which is continued by another;
* `Series.along`, for rows of two texts; `Series.shifted` and `Series.continued`, its two uses;
* `parse_append`, the theorem.
-/

namespace ExactScript.Source

open Peg

/-! ## Statements in a row -/

/-- The trees of the statements that stand in a row from a cursor on, with semicolons anywhere between them, and
the cursor at which there is nothing more of the kind. -/
inductive Series : Cursor → List (ParseTree Rule) → Cursor → Prop
  | semicolon {c next ts e} (hread : (skipLayout c).read? ";".toList = some next) (h : Series next ts e) :
    Series c ts e
  | statement {c next us ts e} (hnone : (skipLayout c).read? ";".toList = none)
    (hs : Derives grammar .spaced (.rule .statement) (skipLayout c) (.matched us next)) (h : Series next ts e) :
    Series c (us ++ ts) e
  | done {c} (hnone : (skipLayout c).read? ";".toList = none)
    (hs : Derives grammar .spaced (.rule .statement) (skipLayout c) .failed) : Series c [] (skipLayout c)

theorem skipFrom_skipFrom (comment : Bool) (cs : List Char) (pos : Nat) :
    skipLayout (skipFrom comment cs pos) = skipFrom comment cs pos := by
  induction cs generalizing comment pos with
  | nil => rfl
  | cons c cs ih =>
    by_cases hsolid : comment = false ∧ isSolid c = true
    · obtain ⟨rfl, hc⟩ := hsolid
      have hstay : skipFrom false (c :: cs) pos = ⟨c :: cs, pos⟩ := skip_solid hc cs pos
      rw [hstay]
      exact hstay
    · obtain ⟨comment', -, -, hskip⟩ := skipFrom_cons hsolid
      rw [hskip]
      exact ih comment' (pos + 1)

theorem skipLayout_skipLayout (c : Cursor) : skipLayout (skipLayout c) = skipLayout c :=
  skipFrom_skipFrom false c.rest c.pos

/-- Layout in front of the statements makes no difference. -/
theorem Series.congr_skip {c c' e : Cursor} {ts : List (ParseTree Rule)} (h : Series c ts e)
    (hc : skipLayout c' = skipLayout c) : Series c' ts e := by
  cases h with
  | semicolon hread h => exact .semicolon (hc ▸ hread) h
  | statement hnone hs h => exact .statement (hc ▸ hnone) (hc ▸ hs) h
  | done hnone hs => exact hc ▸ .done (hc ▸ hnone) (hc ▸ hs)

/-- The grammar's repetition of statements. -/
def statementRow : Pattern Rule := .many (.seq (.rule .statement) Rule.semicolons)

theorem nextElement_spaced (c : Cursor) : grammar.nextElement .spaced c = skipLayout c := rfl

theorem read?_of_text {s : String} {c next : Cursor} {ts : List (ParseTree Rule)}
    (h : Derives grammar .spaced (.text s) c (.matched ts next)) : c.read? s.toList = some next ∧ ts = [] := by
  cases h with
  | text h => exact ⟨h, rfl⟩

theorem read?_of_text_fails {s : String} {c : Cursor} (h : Derives grammar .spaced (.text s) c .failed) :
    c.read? s.toList = none := by
  cases h with
  | text_fails h => exact h

section Rows

variable {c n e : Cursor} {ts ws : List (ParseTree Rule)}

/-- Semicolons in front belong to the row, and all of them are read. -/
theorem Series.of_semicolons (h : Derives grammar .spaced Rule.semicolons c (.matched ws n))
    (hn : (skipLayout n).read? ";".toList = none → Series n ts e) : ws = [] ∧ Series c ts e := by
  refine h.of_many (P := fun c ws => ws = [] ∧ Series c ts e) (fun htext => ?_) ?_
  · exact ⟨rfl, hn (read?_of_text_fails htext)⟩
  · rintro c us next ws htext ⟨rfl, hrow⟩
    obtain ⟨hread, rfl⟩ := read?_of_text htext
    exact ⟨rfl, .semicolon hread hrow⟩

/-- What the repetition reads is a row. A semicolon in front would not have been left to it. -/
theorem series_of_row (h : Derives grammar .spaced statementRow c (.matched ts n)) :
    (skipLayout c).read? ";".toList = none → Series c ts (skipLayout n) := by
  refine h.of_many (P := fun c ts => (skipLayout c).read? ";".toList = none → Series c ts (skipLayout n))
    (fun hitem hc => ?_) ?_
  · refine .done hc ?_
    -- there is no statement, since the repetition behind it would not fail
    rcases hitem.seq_cases with ⟨hs, -⟩ | ⟨_, _, _, -, hsemis, hr⟩
    · exact hs
    · obtain ⟨_, _, rfl⟩ := hsemis.many_matched
      cases hr
  · intro c us m ts hitem ih hc
    obtain ⟨vs, next, ws, hs, hsemis, rfl⟩ := hitem.seq_matched
    obtain ⟨rfl, hrow⟩ := Series.of_semicolons hsemis ih
    rw [List.append_nil]
    exact .statement hc hs (hrow.congr_skip (skipLayout_skipLayout next).symm)

/-- The grammar reads a row of statements. -/
theorem series_of_derives (h : Derives grammar .spaced (Rule.body .statements) c (.matched ts n)) :
    Series c ts (skipLayout n) := by
  obtain ⟨us, m, vs, hsemis, hrow, rfl⟩ := h.seq_matched
  have hrest : (skipLayout m).read? ";".toList = none → Series m vs (skipLayout n) := by
    intro hnone
    rw [← skipLayout_skipLayout] at hnone
    exact (series_of_row hrow hnone).congr_skip (skipLayout_skipLayout m).symm
  obtain ⟨rfl, hseries⟩ := Series.of_semicolons hsemis hrest
  exact hseries

/-- A repetition that begins behind the layout can begin in front of it. -/
theorem many_congr_skip {p : Pattern Rule} {c' : Cursor} (h : Derives grammar .spaced (.many p) c (.matched ts n))
    (hc : skipLayout c' = skipLayout c) :
    ∃ n', Derives grammar .spaced (.many p) c' (.matched ts n') ∧ skipLayout n' = skipLayout n := by
  generalize ha : Reply.matched ts n = a at h
  cases h with
  | once_more hp hmore =>
    obtain ⟨us, rfl, rfl⟩ := Reply.matched_of_withTrees ha.symm
    rw [nextElement_spaced, ← hc] at hp
    exact ⟨n, .once_more hp hmore, rfl⟩
  | no_more hp =>
    cases ha
    rw [nextElement_spaced, ← hc] at hp
    exact ⟨c', .no_more hp, hc⟩

/-- Every row of statements is read by the grammar. -/
theorem Series.derives (h : Series c ts e) :
    ∃ n, Derives grammar .spaced (Rule.body .statements) c (.matched ts n) ∧ skipLayout n = e := by
  induction h with
  | @semicolon c next ts e hread _ ih =>
    obtain ⟨n, hn, hskip⟩ := ih
    have htext : Derives grammar .spaced (.text ";") (grammar.nextElement .spaced c) (.matched [] next) := .text hread
    exact ⟨n, htext.seq_many_cons hn, hskip⟩
  | @statement c next us ts e hnone hs _ ih =>
    obtain ⟨n, hn, rfl⟩ := ih
    obtain ⟨ws, m, vs, hsemis, hrow, rfl⟩ := hn.seq_matched
    -- the semicolons behind the statement belong to it, and the others follow
    obtain ⟨m', hsemis', hm'⟩ := many_congr_skip hsemis (skipLayout_skipLayout next)
    obtain ⟨n', hrow', hn'⟩ := many_congr_skip hrow (hm'.trans (skipLayout_skipLayout m).symm)
    have hitem : Derives grammar .spaced (.seq (.rule .statement) Rule.semicolons)
        (skipLayout (skipLayout c)) (.matched (us ++ ws) m') := by
      rw [skipLayout_skipLayout]
      exact .seq hs hsemis'
    have hnothing : Derives grammar .spaced Rule.semicolons c (.matched [] c) := .no_more (.text_fails hnone)
    have hall : Derives grammar .spaced (Rule.body .statements) c
        (.matched ([] ++ (us ++ ws ++ vs)) n') := .seq hnothing (.once_more hitem hrow')
    rw [List.nil_append, List.append_assoc] at hall
    exact ⟨n', hall, hn'⟩
  | @done c hnone hs =>
    have hnothing : Derives grammar .spaced Rule.semicolons c (.matched [] c) := .no_more (.text_fails hnone)
    have hrow : Derives grammar .spaced statementRow (skipLayout c) (.matched [] (skipLayout c)) := by
      refine .no_more (.seq_fails ?_)
      show Derives grammar .spaced (.rule .statement) (skipLayout (skipLayout c)) .failed
      rw [skipLayout_skipLayout]
      exact hs
    exact ⟨skipLayout c, .seq hnothing hrow, skipLayout_skipLayout c⟩

end Rows

/-! ## Whole programs -/

section Whole

variable {src : List Char} {tree : List Surface}

theorem rest_of_endOfInput {c n : Cursor} {ts : List (ParseTree Rule)}
    (h : Derives grammar .spaced (Rule.body .endOfInput) c (.matched ts n)) : c.rest = [] := by
  generalize ha : Reply.matched ts n = a at h
  cases h with
  | notAhead hnone =>
    cases hnone with
    | char_fails hnone =>
      cases hrest : c.rest with
      | nil => rfl
      | cons x rest => cases hnone x rest hrest
  | notAhead_fails => cases ha

/-- A program is a row of statements up to the end of the text. -/
theorem statements_of_parseChars (h : parseChars src = .ok tree) :
    ∃ ts n, Derives grammar .spaced (Rule.body .statements) (skipLayout ⟨src, 0⟩) (.matched ts n) ∧
      (skipLayout n).rest = [] ∧ readExprs ts = .ok tree := by
  obtain ⟨t, more, next, hfile, hread⟩ := derives_of_parseChars h
  obtain ⟨parts, hbody, htrees⟩ := hfile.of_rule
  cases htrees
  obtain ⟨us, m, vs, hempty, hinner, rfl⟩ := hbody.seq_matched
  cases hempty
  obtain ⟨us, n, vs, hstatements, hclose, rfl⟩ := hinner.seq_matched
  obtain ⟨ts, hts, rfl⟩ := hstatements.of_rule
  obtain ⟨ends, hend, rfl⟩ := hclose.of_rule
  exact ⟨ts, n, hts, rest_of_endOfInput hend, hread⟩

theorem series_of_parseChars (h : parseChars src = .ok tree) :
    ∃ ts e, Series ⟨src, 0⟩ ts e ∧ e.rest = [] ∧ readExprs ts = .ok tree := by
  obtain ⟨ts, n, hts, hend, hread⟩ := statements_of_parseChars h
  exact ⟨ts, _, (series_of_derives hts).congr_skip (skipLayout_skipLayout _).symm, hend, hread⟩

theorem parseChars_of_series {ts : List (ParseTree Rule)} {e : Cursor} (h : Series ⟨src, 0⟩ ts e)
    (hend : e.rest = []) (hread : readExprs ts = .ok tree) : parseChars src = .ok tree := by
  obtain ⟨n, hts, rfl⟩ := (h.congr_skip (skipLayout_skipLayout _)).derives
  have heoi : Derives grammar .spaced (Rule.body .endOfInput) (skipLayout n) (.matched [] (skipLayout n)) := by
    refine .notAhead (.char_fails fun x rest hrest => ?_)
    rw [hend] at hrest
    cases hrest
  have hbody : Derives grammar .spaced (Rule.body .file) ⟨src, 0⟩ (.matched _ (skipLayout n)) :=
    .seq .empty (.seq (.node rfl hts) (.node rfl heoi))
  exact parseChars_of_derives (.node rfl hbody) hread

end Whole

/-! ## What a program closes -/

/-- Up to the cursor, the text is code as deep as `k` tells; statements are at depth one. -/
inductive ReadTo (src : List Char) (k : Nat) (c : Cursor) : Prop
  | intro (v : List Char) (text : src = v ++ c.rest) (depth : (k : Int) = nesting .code v + 1)
    (zone : Zone.code.after v = .code ∨ Zone.code.after v = .comment ∧ c.rest = [])

section Balance

variable {src : List Char} {k k' : Nat} {c c' : Cursor} {v : List Char}

theorem ReadTo.forward (h : ReadTo src k c) (hc : c.rest = v ++ c'.rest) (hv : Zone.code.after v = .code)
    (hk : (k' : Int) = k + nesting .code v) : ReadTo src k' c' := by
  obtain ⟨w, htext, hdepth, hzone⟩ := h
  rcases hzone with hzone | ⟨hzone, hnil⟩
  · refine ⟨w ++ v, by rw [htext, hc, List.append_assoc], ?_, .inl ?_⟩
    · rw [nesting_append, hzone]
      omega
    · rw [Zone.after_append, hzone, hv]
  · -- nothing is left to read
    rw [hnil] at hc
    obtain ⟨rfl, hrest⟩ := List.nil_eq_append_iff.mp hc
    refine ⟨w, by rw [htext, hnil, hrest], ?_, .inr ⟨hzone, hrest⟩⟩
    rw [nesting] at hk
    omega

theorem ReadTo.skip (h : ReadTo src k c) : ReadTo src k (skipLayout c) := by
  have ⟨w, htext, hdepth, hzone⟩ := h
  obtain ⟨u, pos⟩ := c
  rcases skipFrom_append false u with ⟨v, x, u', rfl, -, hafter, hnesting, hskip⟩ | ⟨comment, hafter, hnesting, hskip⟩
  · have hto : skipLayout ⟨v ++ x :: u', pos⟩ = ⟨x :: u', pos + v.length⟩ := by
      have hto := hskip [] pos
      rwa [List.append_nil, List.append_nil] at hto
    rw [hto]
    refine h.forward rfl hafter ?_
    rw [show nesting .code v = 0 from hnesting, Int.add_zero]
  · have hto : skipLayout ⟨u, pos⟩ = ⟨[], pos + u.length⟩ := by
      have hto := hskip [] pos
      rwa [List.append_nil] at hto
    rw [hto]
    rcases hzone with hzone | ⟨hzone, hnil⟩
    · refine ⟨w ++ u, by rw [htext, List.append_nil], ?_, ?_⟩
      · rw [nesting_append, hzone, show nesting .code u = 0 from hnesting]
        omega
      · rw [Zone.after_append, hzone, show Zone.code.after u = .ofComment comment from hafter]
        cases comment with
        | false => exact .inl rfl
        | true => exact .inr ⟨rfl, rfl⟩
    · exact ⟨w, by rw [htext, hnil], hdepth, .inr ⟨hzone, rfl⟩⟩

theorem keeps_readTo (src : List Char) : grammar.Keeps (nestedWalk false) (ReadTo src) where
  skip := ReadTo.skip
  text {k k' s c next} hs h hread := by
    obtain ⟨-, hordinary, hdepth, -⟩ := depthAfter_cases hs
    exact h.forward (Cursor.append_of_read? hread) (after_of_isOrdinary hordinary) hdepth
  char {k accepts x rest pos} hchar h hx := by
    have hplain : ∀ y ∈ [x], isPlain y = true := List.forall_mem_singleton.mpr (isPlain_of_char hchar hx)
    refine h.forward (v := [x]) rfl (after_of_isOrdinary fun y hy => isOrdinary_of_isPlain (hplain y hy)) ?_
    rw [nesting_of_isPlain hplain, Int.add_zero]
  rule {k r} hrule := by
    by_cases hstring : r = .string
    · subst hstring
      refine .inr fun c ts next h hd => ?_
      obtain ⟨v, hv, hafter, hnesting⟩ := string_matched hd
      exact h.forward hv hafter (by rw [hnesting, Int.add_zero])
    by_cases hend : r = .endOfInput
    · subst hend
      cases hrule
    · exact .inl (exit_body hrule hstring hend)

/-- **A program closes what it opens**: its brackets are balanced and its string literals closed. -/
theorem balanced_of_parseChars {tree : List Surface} (h : parseChars src = .ok tree) :
    nesting .code src = 0 ∧ (Zone.code.after src).Outside := by
  obtain ⟨ts, n, hts, hend, -⟩ := statements_of_parseChars h
  have hstart : ReadTo src 1 (skipLayout ⟨src, 0⟩) := ReadTo.skip ⟨[], rfl, rfl, .inl rfl⟩
  have hexit : (Rule.body .statements).exit (nestedWalk false) 1 = some 1 := rfl
  have hread : ReadTo src 1 n := (keeps_readTo src).derives hts rfl hexit hstart
  obtain ⟨v, htext, hdepth, hzone⟩ := hread.skip
  obtain rfl : src = v := by rw [htext, hend, List.append_nil]
  refine ⟨by omega, hzone.imp id And.left⟩

end Balance

/-! ## Texts that go on -/

/-- One text has come to its end and the other one goes on with `b`, after a semicolon on a line of its own. -/
def Continued (b : List Char) (k : Nat) (u x x' : List Char) : Prop :=
  x = [] ∧ (k : Int) + nesting .code u = 0 ∧ (Zone.code.after u).Outside ∧
    (x' = '\n' :: ';' :: '\n' :: b ∨ u = [] ∧ x' = ';' :: '\n' :: b)

/-- **A text and one that goes on behind its end** part at the end. No bracket is open there, so no semicolon is
looked for. -/
theorem parting_continued (b : List Char) : Parting false (Continued b) where
  outside h := h.2.2.1
  border := by
    rintro k u x x' y ⟨rfl, -, -, rfl | ⟨-, rfl⟩⟩ (hy | hy)
    · cases hy
    · cases hy
      exact .inl rfl
    · cases hy
    · cases hy
      exact .inr rfl
  semicolon := by
    rintro k x x' ⟨-, hnesting, -⟩ hk
    rw [nesting] at hnesting
    omega
  forward := by
    rintro k k' v u x x' ⟨hx, hnesting, hzone, hx'⟩ hv hk
    rw [nesting_append, hv] at hnesting
    rw [Zone.after_append, hv] at hzone
    refine ⟨hx, by omega, hzone, hx'.imp id ?_⟩
    rintro ⟨hnil, hx'⟩
    exact ⟨(List.append_eq_nil_iff.mp hnil).2, hx'⟩
  skip := by
    rintro k u x x' comment pos pos' ⟨rfl, hnesting, -, hx'⟩ hcomment hu
    have hsemi : Continued b k [] [] (';' :: '\n' :: b) :=
      ⟨rfl, by rw [hu] at hnesting; exact hnesting, .inl rfl, .inr ⟨rfl, rfl⟩⟩
    rcases hx' with rfl | ⟨rfl, rfl⟩
    · -- a comment ends with the line, if there is one
      have hskip : skipFrom comment ('\n' :: ';' :: '\n' :: b) pos' = ⟨';' :: '\n' :: b, pos' + 1⟩ := by
        cases comment <;> rfl
      rw [hskip]
      exact .before [] [] _ hsemi rfl rfl
    · obtain rfl : comment = false := by
        cases comment with
        | false => rfl
        | true => cases hcomment
      exact .before [] [] _ hsemi rfl rfl
  nonempty := nofun

/-! ## Rows side by side -/

/-- **Two texts have rows that are alike**, as far as `R` tells that they keep step. Where the first text ends, the
second one may have more statements. -/
theorem Series.along {R : Cursor → Cursor → Prop} {vs : List (ParseTree Rule)}
    (hskip : ∀ {d d'}, R d d' → R (skipLayout d) (skipLayout d'))
    (hsemi : ∀ {d d'}, R d d' → d.rest ≠ [] →
      (d.read? ";".toList = none ∧ d'.read? ";".toList = none) ∨
      ∃ next next', d.read? ";".toList = some next ∧ d'.read? ";".toList = some next' ∧ R next next')
    (hs : ∀ {d d' a}, R d d' → Derives grammar .spaced (.rule .statement) d a →
      ∃ a', Derives grammar .spaced (.rule .statement) d' a' ∧ Alike R False d d' a a')
    (hdone : ∀ {d d'}, R d d' → d.rest = [] → ∃ us e', Series d' us e' ∧ e'.rest = [] ∧ SameAll vs us)
    {c c' e : Cursor} {ts : List (ParseTree Rule)} (h : Series c ts e) (he : e.rest = []) (hc : R c c') :
    ∃ ts' us e', Series c' (ts' ++ us) e' ∧ e'.rest = [] ∧ SameAll ts ts' ∧ SameAll vs us := by
  induction h generalizing c' with
  | @semicolon c next ts e hread _ ih =>
    have hne : (skipLayout c).rest ≠ [] := by
      rw [Cursor.append_of_read? hread]
      exact List.cons_ne_nil _ _
    rcases hsemi (hskip hc) hne with ⟨hnone, -⟩ | ⟨n, n', hn, hn', hnext⟩
    · rw [hread] at hnone
      cases hnone
    · obtain rfl : next = n := Option.some.inj (hread.symm.trans hn)
      obtain ⟨ts', us, e', hrow, hrest⟩ := ih he hnext
      exact ⟨ts', us, e', .semicolon hn' hrow, hrest⟩
  | @statement c next ws ts e hnone ht _ ih =>
    have hne : (skipLayout c).rest ≠ [] := by
      intro hnil
      have hfails : Derives grammar .spaced (.rule .statement) (skipLayout c) .failed := by
        rw [show skipLayout c = ⟨[], (skipLayout c).pos⟩ from congrArg (Cursor.mk · _) hnil]
        exact fails_at_end rfl rfl
      cases derives_unique rfl ht hfails
    rcases hsemi (hskip hc) hne with ⟨-, hnone'⟩ | ⟨n, n', hn, -⟩
    · obtain ⟨a', ht', halike⟩ := hs (hskip hc) ht
      obtain ⟨ws', next', rfl, hws, hnext, -⟩ := halike.of_matched
      obtain ⟨ts', us, e', hrow, hend, hts, hvs⟩ := ih he hnext
      refine ⟨ws' ++ ts', us, e', ?_, hend, hws.append hts, hvs⟩
      rw [List.append_assoc]
      exact .statement hnone' ht' hrow
    · rw [hnone] at hn
      cases hn
  | done =>
    obtain ⟨us, e', hrow, hend, hvs⟩ := hdone (hskip hc) he
    exact ⟨[], us, e', hrow.congr_skip (skipLayout_skipLayout c').symm, hend, .nil, hvs⟩

section Texts

variable {c c' e : Cursor} {ts : List (ParseTree Rule)}

/-- A row of statements is the same wherever it stands. -/
theorem Series.shifted (h : Series c ts e) (he : e.rest = []) (hc : c.rest = c'.rest) :
    ∃ ts' e', Series c' ts' e' ∧ e'.rest = [] ∧ SameAll ts ts' := by
  have hs : ∀ {d d' : Cursor} {a : Reply Rule}, d.rest = d'.rest →
      Derives grammar .spaced (.rule .statement) d a →
      ∃ a', Derives grammar .spaced (.rule .statement) d' a' ∧ Alike (fun d d' => d.rest = d'.rest) False d d' a a' := by
    intro d d' a hd ha
    obtain ⟨a', ha', halike⟩ := grammar_lockstep_rest.derives ha (Pattern.exit_free _ 0) hd
    exact ⟨a', ha', halike.imp (fun _ _ h => h) False.elim⟩
  have hdone : ∀ {d d' : Cursor}, d.rest = d'.rest → d.rest = [] →
      ∃ us e', Series d' us e' ∧ e'.rest = [] ∧ SameAll [] us := by
    rintro d ⟨rest, pos⟩ hd hnil
    obtain rfl : rest = [] := hd.symm.trans hnil
    exact ⟨[], ⟨[], pos⟩, .done rfl (fails_at_end rfl rfl), rfl, .nil⟩
  obtain ⟨ts', us, e', hrow, hend, hts, hnil⟩ := h.along (R := fun d d' => d.rest = d'.rest)
    (grammar_lockstep_rest.skip (k := 0)) (fun hd _ => grammar_lockstep_rest.text (k := 0) rfl hd) hs hdone he hc
  obtain rfl := hnil.of_nil
  rw [List.append_nil] at hrow
  exact ⟨ts', e', hrow, hend, hts⟩

/-- The semicolon and what it joins to a text are read from where the text has come to its end. -/
theorem Series.joined {b : List Char} {vs : List (ParseTree Rule)} {e : Cursor} (h : Series ⟨b, 0⟩ vs e)
    (he : e.rest = []) {d : Cursor} (hd : d.rest = '\n' :: ';' :: '\n' :: b ∨ d.rest = ';' :: '\n' :: b) :
    ∃ us e', Series d us e' ∧ e'.rest = [] ∧ SameAll vs us := by
  have hsemi : ∃ pos, skipLayout d = ⟨';' :: '\n' :: b, pos⟩ := by
    obtain ⟨rest, pos⟩ := d
    rcases hd with rfl | rfl
    · exact ⟨pos + 1, rfl⟩
    · exact ⟨pos, rfl⟩
  obtain ⟨pos, hskip⟩ := hsemi
  have hread : (skipLayout d).read? ";".toList = some ⟨'\n' :: b, pos + 1⟩ := by
    rw [hskip]
    rfl
  have hb : Cursor.rest ⟨b, 0⟩ = Cursor.rest ⟨b, pos + 1 + 1⟩ := rfl
  obtain ⟨us, e', hrow, hend, hvs⟩ := h.shifted he hb
  have hline : skipLayout ⟨'\n' :: b, pos + 1⟩ = skipLayout ⟨b, pos + 1 + 1⟩ := rfl
  exact ⟨us, e', .semicolon hread (hrow.congr_skip hline), hend, hvs⟩

/-- **A row of statements goes on** with those of the text behind it. -/
theorem Series.continued {b : List Char} {vs : List (ParseTree Rule)} {e₂ : Cursor} (h : Series c ts e)
    (he : e.rest = []) (h₂ : Series ⟨b, 0⟩ vs e₂) (he₂ : e₂.rest = [])
    (hc : Forked false (Continued b) 0 c c') :
    ∃ ts' us e', Series c' (ts' ++ us) e' ∧ e'.rest = [] ∧ SameAll ts ts' ∧ SameAll vs us := by
  have hlock := (parting_continued b).lockstep
  have hexit : (Pattern.rule .statement).exit (nestedWalk false) 0 = some 0 := rfl
  have hsemi : ∀ {d d' : Cursor}, Forked false (Continued b) 0 d d' → d.rest ≠ [] →
      (d.read? ";".toList = none ∧ d'.read? ";".toList = none) ∨
      ∃ next next', d.read? ";".toList = some next ∧ d'.read? ";".toList = some next' ∧
        Forked false (Continued b) 0 next next' := by
    rintro ⟨rest, pos⟩ ⟨rest', pos'⟩ hd hne
    rcases hd with ⟨u, x, x', hE, hrest, hrest'⟩ | ⟨hw, -⟩
    · obtain rfl : rest = u ++ x := hrest
      obtain rfl : rest' = u ++ x' := hrest'
      obtain rfl : x = [] := hE.1
      cases u with
      | nil => exact absurd rfl hne
      | cons y u =>
        by_cases hy : y = ';'
        · subst hy
          refine .inr ⟨⟨u ++ [], pos + 1⟩, ⟨u ++ x', pos' + 1⟩, rfl, rfl, .before u [] x' ?_ rfl rfl⟩
          exact (parting_continued b).forward (v := [';']) hE rfl rfl
        · exact .inl ⟨Cursor.read?_ne (Ne.symm hy) _ _ _, Cursor.read?_ne (Ne.symm hy) _ _ _⟩
    · cases hw
  have hs : ∀ {d d' : Cursor} {a : Reply Rule}, Forked false (Continued b) 0 d d' →
      Derives grammar .spaced (.rule .statement) d a →
      ∃ a', Derives grammar .spaced (.rule .statement) d' a' ∧
        Alike (Forked false (Continued b) 0) False d d' a a' := by
    intro d d' a hd ha
    obtain ⟨a', ha', halike⟩ := hlock.derives ha hexit hd
    exact ⟨a', ha', halike.imp (fun _ _ h => h) False.elim⟩
  have hdone : ∀ {d d' : Cursor}, Forked false (Continued b) 0 d d' → d.rest = [] →
      ∃ us e', Series d' us e' ∧ e'.rest = [] ∧ SameAll vs us := by
    intro d d' hd hnil
    rcases hd with ⟨u, x, x', ⟨-, -, -, hx'⟩, hrest, hrest'⟩ | ⟨hw, -⟩
    · obtain ⟨rfl, -⟩ := List.append_eq_nil_iff.mp (hrest.symm.trans hnil)
      rw [List.nil_append] at hrest'
      refine h₂.joined he₂ ?_
      rw [hrest']
      exact hx'.imp id And.right
    · cases hw
  exact h.along (R := Forked false (Continued b) 0) (hlock.skip (k := 0)) hsemi hs hdone he hc

end Texts

/-! ## Programs one after the other -/

theorem readExprs_append {ts us : List (ParseTree Rule)} {es fs : List Surface} (hts : readExprs ts = .ok es)
    (hus : readExprs us = .ok fs) : readExprs (ts ++ us) = .ok (es ++ fs) := by
  induction ts generalizing es with
  | nil =>
    cases hts
    exact hus
  | cons t ts ih =>
    simp only [readExprs] at hts
    cases ht : readExpr t with
    | error f =>
      rw [ht] at hts
      cases hts
    | ok e =>
      cases hrest : readExprs ts with
      | error f =>
        rw [ht, hrest] at hts
        cases hts
      | ok rest =>
        rw [ht, hrest] at hts
        cases hts
        simp only [List.cons_append, readExprs, ht, ih hrest]
        rfl

/-- **Programs concatenate.** A program, a semicolon on a line of its own and another program are parsed to the
statements of the first and then those of the second. -/
theorem parse_append {s₁ s₂ : String} {tree₁ tree₂ : List Surface} (h₁ : parse s₁ = .ok tree₁)
    (h₂ : parse s₂ = .ok tree₂) : parse (s₁ ++ "\n;\n" ++ s₂) = .ok (tree₁ ++ tree₂) := by
  obtain ⟨ts, e₁, hrow₁, he₁, hread₁⟩ := series_of_parseChars h₁
  obtain ⟨vs, e₂, hrow₂, he₂, hread₂⟩ := series_of_parseChars h₂
  obtain ⟨hnesting, hzone⟩ := balanced_of_parseChars h₁
  have htext : (s₁ ++ "\n;\n" ++ s₂).toList = s₁.toList ++ '\n' :: ';' :: '\n' :: s₂.toList := by
    simp [String.toList_append]
  have hfork : Forked false (Continued s₂.toList) 0 ⟨s₁.toList, 0⟩ ⟨(s₁ ++ "\n;\n" ++ s₂).toList, 0⟩ := by
    refine .before s₁.toList [] _ ⟨rfl, ?_, hzone, .inl rfl⟩ (List.append_nil _).symm htext
    rw [hnesting]
    rfl
  obtain ⟨ts', us, e, hrow, hend, hts, hus⟩ := hrow₁.continued he₁ hrow₂ he₂ hfork
  exact parseChars_of_series hrow hend
    (readExprs_append (readExprs_same hts _ hread₁) (readExprs_same hus _ hread₂))

/-- The first program ends with a comment, the second one begins with a bracket. -/
theorem parse_append_comment : parse ("x = 1 # one" ++ "\n;\n" ++ "[2].head") =
    .ok ([.assign "x" (.literal (.num (.ofNat 1)))] ++ [.query .head (.list [.literal (.num (.ofNat 2))])]) :=
  parse_append rfl rfl

end ExactScript.Source
