import ExactScript.Proofs.Tokens

/-!
# Where operands begin and end

The grammar tries many rules at the beginning of an operand and behind it. At a number, at a name and at a
parenthesis all but the right one fail, also those that are tried first, and behind an operand nothing is
taken for a part of it. At the beginning of a statement every rule for statements fails except the one for
expressions, the assignment to a name on account of what stands behind the name.

## Contents
* `reserved_at_atom`, `keyword_at_operand`, `first_at_atom`, `first_at_end`;
* `primary_name`, `primary_number`, `primary_parens` and `suffix_fails`;
* `unaryOp_fails`, `expression_fails`;
* `statement_at_operand` and `file_of_statement`.
-/

namespace ExactScript.Source

open Peg

variable (style : Style) {ks : List Token} {pos : Nat}

/-! ## Where an operand begins -/

/-- At a number, a name or a parenthesis there is no reserved word. -/
theorem reserved_at_atom (h : BeginsAtom ks) {w : String} (hw : w ∈ reservedWords) :
    (line style ks).takeWhile isIdentChar ≠ w.toList := by
  rcases h.cases with ⟨n, rest, rfl⟩ | ⟨x, rest, rfl, -⟩ | ⟨rest, rfl⟩
  · -- the digits are taken for a word, but no reserved word begins with a digit
    obtain ⟨y, ys, hy, hdigit⟩ := exists_digits_cons n
    rw [line, Token.text, hy]
    exact reserved_of_first (isIdentStart_of_isDigit hdigit) _ hw
  · obtain ⟨y, ys, hx, hy, hys, hfree⟩ := x.exists_cons
    have hall : ∀ z ∈ x.val.toList, isIdentChar z = true := by
      rw [hx]
      exact List.forall_mem_cons.mpr ⟨isIdentChar_of_isIdentStart hy, hys⟩
    rw [line, Token.text, takeWhile_tail style hall]
    exact fun heq => hfree (String.toList_inj.mp heq ▸ hw)
  · rw [line_opening]
    exact reserved_of_first (by decide) _ hw

/-- Where a formula begins there is no keyword. -/
theorem keyword_at_operand (h : BeginsOperand ks) (k : Keyword) :
    (line style ks).takeWhile isIdentChar ≠ k.word.toList := by
  rcases h.cases with ⟨op, rest, rfl⟩ | hatom
  · have hsign := style.unarySign_mem op
    rw [line, Token.text]
    generalize style.unarySign op = s at hsign
    have hminus : "-".toList = ['-'] := by decide
    have hbang : "!".toList = ['!'] := by decide
    have hword : ∀ z ∈ "not".toList, isIdentChar z = true := fun z hz =>
      isIdentChar_of_mem_reserved (by decide : "not" ∈ reservedWords) hz
    have hs : (s.toList ++ tail style rest).takeWhile isIdentChar = [] ∨
        (s.toList ++ tail style rest).takeWhile isIdentChar = "not".toList := by
      cases op with
      | neg =>
        cases List.mem_singleton.mp hsign
        exact .inl (by rw [hminus]; rfl)
      | not =>
        -- the word is reserved, but no construct begins with it
        simp only [unarySigns, List.mem_cons, List.not_mem_nil, or_false] at hsign
        rcases hsign with rfl | rfl
        · exact .inl (by rw [hbang]; rfl)
        · exact .inr (takeWhile_tail style hword rest)
    rcases hs with hs | hs <;> rw [hs] <;> cases k <;> decide
  · exact reserved_at_atom style hatom (word_mem_reserved k)

/-- The characters with which a number, a name or a parenthesis can begin. -/
def isAtomStart (c : Char) : Bool := isIdentChar c || c == '('

theorem first_at_atom (h : BeginsAtom ks) :
    ∃ y rest, line style ks = y :: rest ∧ isAtomStart y = true := by
  rcases h.cases with ⟨n, rest, rfl⟩ | ⟨x, rest, rfl, -⟩ | ⟨rest, rfl⟩
  · obtain ⟨y, ys, hy, hdigit⟩ := exists_digits_cons n
    refine ⟨y, ys ++ tail style rest, by rw [line, Token.text, hy, List.cons_append], ?_⟩
    rw [isAtomStart, isIdentChar_of_isDigit hdigit, Bool.true_or]
  · obtain ⟨y, ys, hx, hy, -⟩ := x.exists_cons
    refine ⟨y, ys ++ tail style rest, by rw [line, Token.text, hx, List.cons_append], ?_⟩
    rw [isAtomStart, isIdentChar_of_isIdentStart hy, Bool.true_or]
  · exact ⟨'(', tail style rest, line_opening style rest, rfl⟩

/-- A sign that begins no atom does not stand there. -/
theorem text_at_atom {mode : Mode} (h : BeginsAtom ks) {s : String} {x : Char} {xs : List Char}
    (hs : s.toList = x :: xs) (hx : isAtomStart x = false) :
    Derives grammar mode (.text s) ⟨line style ks, pos⟩ .failed := by
  obtain ⟨y, rest, hline, hy⟩ := first_at_atom style h
  rw [hline]
  exact .text_ne hs (ne_of_class hx hy)

theorem text_at_operand {mode : Mode} (h : BeginsOperand ks) {s : String} {x : Char} {xs : List Char}
    (hs : s.toList = x :: xs) (hatom : isAtomStart x = false) (hunary : isUnarySignStart x = false) :
    Derives grammar mode (.text s) ⟨line style ks, pos⟩ .failed := by
  rcases h.cases with ⟨op, rest, rfl⟩ | hbegins
  · obtain ⟨y, ys, hy, hstart⟩ := exists_unarySign_cons op (style.unarySign_mem op)
    rw [line, Token.text, hy]
    exact .text_ne hs (ne_of_class hunary hstart)
  · exact text_at_atom style hbegins hs hatom

/-- No operator stands before the operand where neither its sign nor its word does. -/
theorem unaryOp_fails_of {c : Cursor} (hminus : Derives grammar .atomic (.text "-") c .failed)
    (hbang : Derives grammar .atomic (.text "!") c .failed)
    (hword : c.rest.takeWhile isIdentChar ≠ "not".toList) :
    Derives grammar .spaced (.rule .unaryOp) c .failed :=
  .rule_fails (.second hminus (.second (.seq_fails hbang) (wholeWord_fails (by decide) hword)))

/-- There is no operator before an atom. -/
theorem unaryOp_fails (h : BeginsAtom ks) :
    Derives grammar .spaced (.rule .unaryOp) ⟨line style ks, pos⟩ .failed :=
  unaryOp_fails_of (text_at_atom style h (by decide : "-".toList = ['-']) (by decide))
    (text_at_atom style h (by decide : "!".toList = ['!']) (by decide))
    (reserved_at_atom style h (by decide))

/-! ## Where an operand ends -/

/-- The characters with which the row behind an operand can begin. -/
def isEndStart (c : Char) : Bool := isSignStart c || c == ')'

theorem first_at_end {ℓ : Level} (h : EndsBelow ℓ ks) :
    line style ks = [] ∨ ∃ y rest, line style ks = y :: rest ∧ isEndStart y = true := by
  rcases h.cases with rfl | ⟨rest, rfl⟩ | ⟨op, rest, rfl, -⟩
  · exact .inl rfl
  · exact .inr ⟨')', tail style rest, line_closing style rest, rfl⟩
  · obtain ⟨y, ys, hy, hsign⟩ := exists_sign_cons op (style.sign_mem op)
    refine .inr ⟨y, ys ++ tail style rest, by rw [line, Token.text, hy, List.cons_append], ?_⟩
    rw [isEndStart, hsign, Bool.true_or]

/-- A sign that begins no operator does not stand there. -/
theorem text_at_end {ℓ : Level} {mode : Mode} (h : EndsBelow ℓ ks) {s : String} {x : Char} {xs : List Char}
    (hs : s.toList = x :: xs) (hx : isEndStart x = false) :
    Derives grammar mode (.text s) ⟨line style ks, pos⟩ .failed := by
  rcases first_at_end style h with hline | ⟨y, rest, hline, hy⟩
  · rw [hline]
    refine .text_fails ?_
    rw [hs]
    rfl
  · rw [hline]
    exact .text_ne hs (ne_of_class hx hy)

theorem index_fails {ℓ : Level} (h : EndsBelow ℓ ks) :
    Derives grammar .spaced (.rule .index) ⟨line style ks, pos⟩ .failed :=
  bracketed_fails (s := "[") rfl (text_at_end style h (by decide : "[".toList = ['[']) (by decide))

/-- Nothing is taken for a suffix of the operand. -/
theorem suffix_fails {ℓ : Level} (h : EndsBelow ℓ ks) :
    Derives grammar .spaced (.rule .suffix) ⟨line style ks, pos⟩ .failed := by
  have hdot : Derives grammar .spaced (.text ".") ⟨line style ks, pos⟩ .failed :=
    text_at_end style h (by decide : ".".toList = ['.']) (by decide)
  have hbracket : Derives grammar .spaced (.text "[") ⟨line style ks, pos⟩ .failed :=
    text_at_end style h (by decide : "[".toList = ['[']) (by decide)
  exact .rule_fails (.second (bracketed_fails rfl hdot)
    (.second (bracketed_fails rfl hbracket) (index_fails style h)))

/-! ## Atoms -/

/-- The primaries that are tried last. -/
def laterPrimary : Pattern Rule :=
  .oneOf [.rule .call, .rule .ident, .all [.text "(", .rule .expression, .text ")"]]

/-- The primaries that are tried first fail where neither a digit, a quote, a bracket nor a reserved word
stands. -/
theorem primary_of_later {c : Cursor} {y : Char} {rest : List Char} {r : Reply Rule}
    (hc : c.rest = y :: rest) (hdigit : y.isDigit = false) (hy : y ∉ ['"', '[', '\x7b'])
    (hwords : ∀ w ∈ reservedWords, c.rest.takeWhile isIdentChar ≠ w.toList)
    (hlater : Derives grammar .spaced laterPrimary c r) :
    Derives grammar .spaced (Rule.body .primary) c r := by
  obtain ⟨_, pos⟩ := c
  cases hc
  have hquote : ∀ mode, Derives grammar mode (.text "\"") ⟨y :: rest, pos⟩ .failed := fun mode =>
    .text_ne (by decide : "\"".toList = ['"']) (by rintro rfl; exact hy (by decide))
  have hbracket : Derives grammar .spaced (.text "[") ⟨y :: rest, pos⟩ .failed :=
    .text_ne (by decide : "[".toList = ['[']) (by rintro rfl; exact hy (by decide))
  have hbrace : Derives grammar .spaced (.text "\x7b") ⟨y :: rest, pos⟩ .failed :=
    .text_ne (by decide : "\x7b".toList = ['\x7b']) (by rintro rfl; exact hy (by decide))
  have hnumber : Derives grammar .spaced (.rule .number) ⟨y :: rest, pos⟩ .failed :=
    .rule_fails (.seq_fails (.seq_fails (.char_ne hdigit)))
  have htruth : ∀ w ∈ ["true", "false"], w ∈ reservedWords := by decide
  have hboolean : Derives grammar .spaced (.rule .boolean) ⟨y :: rest, pos⟩ .failed :=
    .rule_fails (words_fail ["true", "false"] htruth fun w hw => hwords w (htruth w hw))
  have hled : ∀ k : Keyword, (y :: rest).takeWhile isIdentChar ≠ k.word.toList := fun k =>
    hwords k.word (word_mem_reserved k)
  -- in the order of the grammar: literals, then collections, then what begins with a keyword
  refine .second hnumber (.second (bracketed_fails rfl (hquote _)) (.second hboolean ?_))
  refine .second (bracketed_fails rfl hbracket) (.second (bracketed_fails rfl hbracket)
    (.second (bracketed_fails rfl hbrace) ?_))
  exact .second (led_fails rfl rfl (hled .print)) (.second (led_fails rfl rfl (hled .if_))
    (.second (led_fails rfl rfl (hled .let_)) hlater))

/-- At the row `ks` a primary is read as `e`, up to the end of its last token, which `rest` follows. -/
def ReadsPrimary (ks : List Token) (e : Surface) (rest : List Token) : Prop :=
  ∀ pos, ∃ t pos', Derives grammar .spaced (.rule .primary) ⟨line style ks, pos⟩
    (.matched [t] ⟨tail style rest, pos'⟩) ∧ readExpr t = .ok e

theorem primary_number (n : Nat) (ks : List Token) :
    ReadsPrimary style (.number n :: ks) (.literal (.num (.ofNat n))) ks := by
  intro pos
  refine ⟨_, _, .node rfl (.first (number_matches style n ks pos)), ?_⟩
  rw [← readNumber_digits n]
  rfl

theorem primary_name (x : Name) (h : EndsBelow .atom ks) :
    ReadsPrimary style (.name x :: ks) (.var x.val) ks := by
  intro pos
  obtain ⟨y, ys, hx, hy, -⟩ := x.exists_cons
  have hatom : BeginsAtom (.name x :: ks) := h
  have hline : line style (.name x :: ks) = y :: (ys ++ tail style ks) := by
    rw [line, Token.text, hx, List.cons_append]
  have hident := ident_matches style x ks pos
  -- behind the name there is no parenthesis
  have hcall : Derives grammar .spaced (.rule .call) ⟨line style (.name x :: ks), pos⟩ .failed := by
    obtain ⟨pos', hskip⟩ := skip_tail style ks (pos + x.val.toList.length)
    refine .node_fails rfl (.seq (r := .failed) hident (.seq_fails ?_))
    rw [hskip]
    exact text_at_end style h (by decide : "(".toList = ['(']) (by decide)
  have hfirst : y ∉ ['"', '[', '\x7b'] := by
    intro hmem
    have hnone : ['"', '[', '\x7b'].any isIdentStart = false := by decide
    exact List.any_eq_false.mp hnone y hmem hy
  have hbody := primary_of_later hline (isDigit_of_isIdentStart hy) hfirst
    (fun w hw => reserved_at_atom style hatom hw) (.second hcall (.first hident))
  refine ⟨_, _, .node rfl hbody, ?_⟩
  show Except.ok (Expr.var (String.ofList x.val.toList)) = _
  rw [String.ofList_toList]

/-- An expression in parentheses, when the expression is read up to the closing one. -/
theorem primary_parens {inner : List Token} {e : Surface}
    (h : ∀ pos, ∃ t pos', Derives grammar .spaced (.rule .expression) ⟨line style inner, pos⟩
      (.matched [t] ⟨line style (.closing :: ks), pos'⟩) ∧ readExpr t = .ok e) :
    ReadsPrimary style (.opening :: inner) e ks := by
  intro pos
  have hatom : BeginsAtom (.opening :: inner) := trivial
  obtain ⟨pos₁, hskip⟩ := skip_tail style inner (pos + 1)
  obtain ⟨t, pos₂, hexpr, hread⟩ := h pos₁
  have hopening : Derives grammar .spaced (.text "(") ⟨line style (.opening :: inner), pos⟩
      (.matched [] ⟨tail style inner, pos + 1⟩) := .text_append (s := "(")
  have hclosing : Derives grammar .spaced (.text ")") ⟨line style (.closing :: ks), pos₂⟩
      (.matched [] ⟨tail style ks, pos₂ + 1⟩) := .text_append (s := ")")
  have hparens : Derives grammar .spaced (.all [.text "(", .rule .expression, .text ")"])
      ⟨line style (.opening :: inner), pos⟩ (.matched [t] ⟨tail style ks, pos₂ + 1⟩) := by
    refine .seq (r := .matched [t] _) hopening ?_
    rw [hskip]
    exact seq_at_line style hexpr hclosing
  have hident : Derives grammar .spaced (.rule .ident) ⟨line style (.opening :: inner), pos⟩ .failed := by
    rw [line_opening]
    exact ident_fails_of_first (by decide)
  have hbody : Derives grammar .spaced (Rule.body .primary) ⟨line style (.opening :: inner), pos⟩
      (.matched [t] _) :=
    primary_of_later (line_opening style inner) (by decide) (by decide)
      (fun w hw => reserved_at_atom style hatom hw)
      (.second (.rule_fails (.seq_fails hident)) (.second hident hparens))
  refine ⟨_, _, .node rfl hbody, ?_⟩
  exact hread

/-! ## Statements -/

/-- An expression fails where no operand begins. -/
theorem expression_fails {c : Cursor} (hunary : Derives grammar .spaced (.rule .unaryOp) c .failed)
    (hprimary : Derives grammar .spaced (.rule .primary) c .failed) (hskip : grammar.nextElement .spaced c = c) :
    Derives grammar .spaced (.rule .expression) c .failed := by
  have hpower : Derives grammar .spaced (.rule .power) c .failed :=
    .rule_fails (.seq_fails (.rule_fails (.seq_fails hprimary)))
  have hmany : Derives grammar .spaced (.many (.rule .unaryOp)) c (.matched [] c) :=
    .no_more (hskip.symm ▸ hunary)
  have hunaries : Derives grammar .spaced (.rule .unary) c .failed :=
    .rule_fails (.seq (r := .failed) hmany (hskip.symm ▸ hpower))
  -- each looser rule begins with an operand of the next tighter one
  have hsum : Derives grammar .spaced (.rule .sum) c .failed :=
    .rule_fails (.seq_fails (.rule_fails (.seq_fails hunaries)))
  have hequality : Derives grammar .spaced (.rule .equality) c .failed :=
    .rule_fails (.seq_fails (.rule_fails (.seq_fails (.rule_fails (.seq_fails hsum)))))
  exact .rule_fails (.rule_fails (.seq_fails (.rule_fails (.seq_fails hequality))))

/-- No expression begins with the sign of an assignment. -/
theorem expression_fails_at_assign (rest : List Char) :
    Derives grammar .spaced (.rule .expression) ⟨'=' :: rest, pos⟩ .failed := by
  have hident : Derives grammar .spaced (.rule .ident) ⟨'=' :: rest, pos⟩ .failed :=
    ident_fails_of_first (by decide)
  have hparens : Derives grammar .spaced (.text "(") ⟨'=' :: rest, pos⟩ .failed :=
    .text_ne (by decide : "(".toList = ['(']) (by decide)
  have hwords : ∀ w ∈ reservedWords, ('=' :: rest).takeWhile isIdentChar ≠ w.toList := fun w hw =>
    reserved_of_first (by decide) rest hw
  refine expression_fails (derives_of_failed 8 .plain rfl) ?_
    (skip_solid (c := '=') (by decide) rest pos)
  exact .node_fails rfl (primary_of_later rfl (by decide) (by decide) hwords
    (.second (.node_fails rfl (.seq_fails hident)) (.second hident (.seq_fails hparens))))

/-- An operator behind a name is not taken for the sign of an assignment, not even `==`. -/
theorem assigned_fails (h : EndsBelow .atom ks) :
    Derives grammar .spaced (.all [.text "=", .rule .expression]) ⟨line style ks, pos⟩ .failed := by
  have hassign : "=".toList = ['='] := by decide
  rcases h.cases with rfl | ⟨rest, rfl⟩ | ⟨op, rest, rfl, -⟩
  · exact .seq_fails (.text_fails rfl)
  · rw [line_closing]
    exact .seq_fails (.text_ne hassign (by decide))
  · have hsign := style.sign_mem op
    rw [line, Token.text]
    by_cases heq : op = .binary .eq
    · -- the second sign of `==` is left
      subst heq
      rw [List.mem_singleton.mp hsign]
      have hfirst : Derives grammar .spaced (.text "=") ⟨"==".toList ++ tail style rest, pos⟩
          (.matched [] ⟨'=' :: tail style rest, pos + 1⟩) := .text rfl
      refine .seq (r := .failed) hfirst ?_
      rw [skip_solid (c := '=') (by decide)]
      exact expression_fails_at_assign _
    · have hfirst : ∀ t ∈ op.signs, t.toList.head?.any (· != '=') = true := by
        cases op with
        | binary op => cases op <;> first | exact absurd rfl heq | decide
        | logical op => cases op <;> decide
        | join => decide
      obtain ⟨y, ys, hy, hne⟩ := exists_cons_of_any (hfirst _ hsign)
      rw [hy]
      exact .seq_fails (.text_ne hassign (bne_iff_ne.mp hne).symm)

/-- An operand that begins with no name. -/
theorem ident_at_operand (h : BeginsOperand ks) :
    Derives grammar .spaced (.rule .ident) ⟨line style ks, pos⟩ .failed ∨
    ∃ x rest, ks = .name x :: rest ∧ EndsBelow .atom rest := by
  rcases h.cases with ⟨op, rest, rfl⟩ | hatom
  · refine .inl ?_
    have hsign := style.unarySign_mem op
    rw [line, Token.text]
    generalize style.unarySign op = s at hsign
    cases op with
    | neg =>
      rw [List.mem_singleton.mp hsign]
      exact ident_fails_of_first (by decide)
    | not =>
      simp only [unarySigns, List.mem_cons, List.not_mem_nil, or_false] at hsign
      rcases hsign with rfl | rfl
      · exact ident_fails_of_first (by decide)
      · rcases tail_cases style rest with htail | ⟨more, htail⟩ <;> rw [htail] <;>
          exact derives_of_failed 24 .plain rfl
  · rcases hatom.cases with ⟨n, rest, rfl⟩ | hname | ⟨rest, rfl⟩
    · obtain ⟨y, ys, hy, hdigit⟩ := exists_digits_cons n
      refine .inl ?_
      rw [line, Token.text, hy]
      exact ident_fails_of_first (isIdentStart_of_isDigit hdigit)
    · exact .inr hname
    · refine .inl ?_
      rw [line_opening]
      exact ident_fails_of_first (by decide)

/-- Where neither a keyword nor a brace stands, and nothing that is assigned to, a statement is an
expression. -/
theorem statement_of_expression {c : Cursor} {r : Reply Rule}
    (hwords : ∀ k : Keyword, c.rest.takeWhile isIdentChar ≠ k.word.toList)
    (hbrace : Derives grammar .spaced (.text "\x7b") c .failed)
    (hput : Derives grammar .spaced (.rule .put) c .failed)
    (hassignment : Derives grammar .spaced (.rule .assignment) c .failed)
    (hr : Derives grammar .spaced (.rule .expression) c r) :
    Derives grammar .spaced (Rule.body .statement) c r := by
  refine .second (led_fails rfl rfl (hwords .def_)) (.second (led_fails rfl rfl (hwords .while_))
    (.second (led_fails rfl rfl (hwords .for_)) (.second (bracketed_fails rfl hbrace) ?_)))
  exact .second (led_fails rfl rfl (hwords .var)) (.second hput (.second hassignment hr))

/-- **A statement that begins as a formula does is an expression**: the other kinds of statements, which are
tried first, fail. -/
theorem statement_at_operand (h : BeginsOperand ks) {r : Reply Rule}
    (hr : Derives grammar .spaced (.rule .expression) ⟨line style ks, pos⟩ r) :
    Derives grammar .spaced (Rule.body .statement) ⟨line style ks, pos⟩ r := by
  have hbrace : Derives grammar .spaced (.text "\x7b") ⟨line style ks, pos⟩ .failed :=
    text_at_operand style h (by decide : "\x7b".toList = ['\x7b']) (by decide) (by decide)
  have hnamed : Derives grammar .spaced (.rule .put) ⟨line style ks, pos⟩ .failed ∧
      Derives grammar .spaced (.rule .assignment) ⟨line style ks, pos⟩ .failed := by
    rcases ident_at_operand style h with hident | ⟨x, rest, rfl, hend⟩
    · exact ⟨.node_fails rfl (.seq_fails hident), .node_fails rfl (.seq_fails hident)⟩
    · -- the name is read, but neither an index nor the sign of an assignment follows
      have hident := ident_matches style x rest pos
      obtain ⟨pos', hskip⟩ := skip_tail style rest (pos + x.val.toList.length)
      constructor
      · refine .node_fails rfl (.seq (r := .failed) hident (.seq_fails (.seq_fails ?_)))
        rw [hskip]
        exact index_fails style hend
      · refine .node_fails rfl (.seq (r := .failed) hident ?_)
        rw [hskip]
        exact assigned_fails style hend
  exact statement_of_expression (keyword_at_operand style h) hbrace hnamed.1 hnamed.2 hr

/-- **One statement up to the end of the text** is a program. -/
theorem file_of_statement {cs : List Char} {s : ParseTree Rule}
    (hsolid : grammar.nextElement .spaced ⟨cs, 0⟩ = ⟨cs, 0⟩)
    (hsemicolon : Derives grammar .spaced (.text ";") ⟨cs, 0⟩ .failed)
    (hs : Derives grammar .spaced (.rule .statement) ⟨cs, 0⟩ (.matched [s] ⟨[], pos⟩)) :
    ∃ t ts next, Derives grammar .spaced (.rule .file) ⟨cs, 0⟩ (.matched (t :: ts) next) ∧
      readFile t = readExprs [s] := by
  -- no semicolons before the statement or behind it, and no further statement
  have hbefore : Derives grammar .spaced Rule.semicolons ⟨cs, 0⟩ (.matched [] ⟨cs, 0⟩) :=
    .no_more (hsolid.symm ▸ hsemicolon)
  have hbehind : Derives grammar .spaced Rule.semicolons ⟨[], pos⟩ (.matched [] ⟨[], pos⟩) :=
    .no_more (.text_fails rfl)
  have hnone : Derives grammar .spaced (.many (.seq (.rule .statement) Rule.semicolons)) ⟨[], pos⟩
      (.matched [] ⟨[], pos⟩) := .no_more (.seq_fails (fails_at_end rfl rfl))
  have hone : Derives grammar .spaced (.seq (.rule .statement) Rule.semicolons) ⟨cs, 0⟩
      (.matched [s] ⟨[], pos⟩) := .seq (r := .matched [] _) hs hbehind
  have hall : Derives grammar .spaced (.many (.seq (.rule .statement) Rule.semicolons)) ⟨cs, 0⟩
      (.matched [s] ⟨[], pos⟩) := .once_more (r := .matched [] _) (hsolid.symm ▸ hone) hnone
  have hlist : Derives grammar .spaced (Rule.body .statements) ⟨cs, 0⟩ (.matched [s] ⟨[], pos⟩) :=
    .seq (r := .matched [s] _) hbefore (hsolid.symm ▸ hall)
  have hstatements := Derives.node (a := Rule.statements) rfl hlist
  have hend := Derives.node (g := grammar) (a := Rule.endOfInput) (c := ⟨[], pos⟩) rfl
    (.notAhead (.char_fails nofun))
  have hprogram := Derives.seq hstatements (q := .rule .endOfInput) hend
  have hempty : Derives grammar .spaced .empty ⟨cs, 0⟩ (.matched [] ⟨cs, 0⟩) := .empty
  have hbody := Derives.seq hempty (hsolid.symm ▸ hprogram)
  exact ⟨_, _, _, .node (a := Rule.file) rfl hbody, rfl⟩

end ExactScript.Source
