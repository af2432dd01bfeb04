import ExactScript.Proofs.Formulas
import ExactScript.Proofs.ParserFuel

/-!
# Reading tokens

What the token rules of the grammar do at the beginning of a row of tokens. A name is read whole and is not
taken for a keyword, a number is read back, an operator is recognized by the rule of its level and by no rule
of another one, although the texts of operators overlap (`+` and `++`, `*` and `**`, `/` and `//`, `<` and
`<=`), and the blank between two tokens is skipped.

## Contents
* character classes, `skip_line` and `skip_tail`;
* `seq_at_line`, `none_at_line` and `once_more_at_line`: sequences and repetitions along a row;
* `words_fail`, `led_fails` and `bracketed_fails`, for constructs that begin with a word or a sign;
* `ident_matches`, `number_matches`;
* `Level.operator`, `operator_matches`, `operator_fails`, `unaryOp_matches`.
-/

namespace ExactScript.Source

open Peg

/-! ## Characters -/

theorem ne_of_class {accepts : Char → Bool} {x y : Char} (hx : accepts x = false) (hy : accepts y = true) :
    x ≠ y := by
  intro heq
  rw [heq, hy] at hx
  cases hx

theorem isIdentChar_of_isIdentStart {c : Char} (h : isIdentStart c = true) : isIdentChar c = true := by
  unfold isIdentStart at h
  unfold isIdentChar Char.isAlphanum
  rw [Bool.or_eq_true] at h
  rcases h with h | h
  · rw [h]
    rfl
  · rw [h, Bool.or_true]

theorem isIdentChar_of_isDigit {c : Char} (h : c.isDigit = true) : isIdentChar c = true := by
  unfold isIdentChar Char.isAlphanum
  rw [h, Bool.or_true]
  rfl

/-- A name does not begin with a digit. -/
theorem isIdentStart_of_isDigit {c : Char} (h : c.isDigit = true) : isIdentStart c = false := by
  have hdigit : '0'.val ≤ c.val ∧ c.val ≤ '9'.val := by
    have hbool : (decide ('0'.val ≤ c.val) && decide (c.val ≤ '9'.val)) = true := h
    rwa [Bool.and_eq_true, decide_eq_true_eq, decide_eq_true_eq] at hbool
  have hupper : ¬('A'.val ≤ c.val ∧ c.val ≤ 'Z'.val) := by grind
  have hlower : ¬('a'.val ≤ c.val ∧ c.val ≤ 'z'.val) := by grind
  have hline : c ≠ '_' := by
    intro hc
    rw [hc] at hdigit
    exact absurd hdigit.2 (by decide)
  show (decide ('A'.val ≤ c.val ∧ c.val ≤ 'Z'.val) ||
    (decide ('a'.val ≤ c.val) && decide (c.val ≤ 'z'.val)) || c == '_') = false
  rw [decide_eq_false hupper, ← Bool.decide_and, decide_eq_false hlower, beq_eq_false_iff_ne.mpr hline]
  rfl

theorem isDigit_of_isIdentStart {c : Char} (h : isIdentStart c = true) : c.isDigit = false := by
  cases hd : c.isDigit with
  | false => rfl
  | true =>
    rw [isIdentStart_of_isDigit hd] at h
    cases h

/-- A character at which reading over layout stops. -/
def isSolid (c : Char) : Bool := !isBlank c && c != '#'

theorem isSolid_of_isIdentChar {c : Char} (h : isIdentChar c = true) : isSolid c = true := by
  have hne : ∀ x, isIdentChar x = false → (c == x) = false := fun x hx =>
    beq_eq_false_iff_ne.mpr (ne_of_class hx h).symm
  simp only [isSolid, isBlank, bne, hne ' ' (by decide), hne '\t' (by decide), hne '\r' (by decide),
    hne '\n' (by decide), hne '#' (by decide), Bool.or_self, Bool.not_false, Bool.and_self]

/-! ## Texts of tokens -/

theorem Name.exists_cons (x : Name) :
    ∃ c cs, x.val.toList = c :: cs ∧ isIdentStart c = true ∧ (∀ y ∈ cs, isIdentChar y = true) ∧
      x.val ∉ reservedWords := by
  obtain ⟨x, hx⟩ := x
  unfold isName at hx
  split at hx
  · cases hx
  · case h_2 c cs hcs =>
    simp only [Bool.and_eq_true, List.all_eq_true, Bool.not_eq_true', List.contains_eq_mem,
      decide_eq_false_iff_not] at hx
    exact ⟨c, cs, hcs, hx.1.1, hx.1.2, hx.2⟩

/-- The digits of a number. -/
theorem digits_eq (n : Nat) : (toString n).toList = Nat.toDigits 10 n := by
  rw [Nat.toString_eq_ofList_toDigits, String.toList_ofList]

theorem isDigit_of_mem_digits {n : Nat} {c : Char} (h : c ∈ (toString n).toList) : c.isDigit = true := by
  rw [digits_eq] at h
  exact Nat.isDigit_of_mem_toDigits (by decide) (by decide) h

theorem exists_digits_cons (n : Nat) : ∃ c cs, (toString n).toList = c :: cs ∧ c.isDigit = true := by
  cases h : (toString n).toList with
  | nil => exact absurd ((digits_eq n).symm.trans h) Nat.toDigits_ne_nil
  | cons c cs => exact ⟨c, cs, rfl, isDigit_of_mem_digits (h ▸ List.mem_cons_self)⟩

theorem exists_cons_of_any {accepts : Char → Bool} {s : String} (h : s.toList.head?.any accepts = true) :
    ∃ c cs, s.toList = c :: cs ∧ accepts c = true := by
  cases hs : s.toList with
  | nil =>
    rw [hs] at h
    cases h
  | cons c cs =>
    rw [hs] at h
    exact ⟨c, cs, rfl, h⟩

/-- The characters with which an operator between operands can begin. -/
def isSignStart (c : Char) : Bool :=
  c ∈ ['o', 'a', '|', '&', '=', '!', '<', '>', '+', '-', '*', '/', '%', '^']

theorem exists_sign_cons (op : Infix) {s : String} (hs : s ∈ op.signs) :
    ∃ c cs, s.toList = c :: cs ∧ isSignStart c = true := by
  have hall : ∀ t ∈ op.signs, t.toList.head?.any isSignStart = true := by
    cases op with
    | binary op => cases op <;> decide
    | logical op => cases op <;> decide
    | join => decide
  exact exists_cons_of_any (hall s hs)

/-- The characters with which an operator before its operand can begin. -/
def isUnarySignStart (c : Char) : Bool := c ∈ ['-', '!', 'n']

theorem exists_unarySign_cons (op : UnaryOp) {s : String} (hs : s ∈ unarySigns op) :
    ∃ c cs, s.toList = c :: cs ∧ isUnarySignStart c = true := by
  have hall : ∀ t ∈ unarySigns op, t.toList.head?.any isUnarySignStart = true := by
    cases op <;> decide
  exact exists_cons_of_any (hall s hs)

theorem exists_reserved_cons {w : String} (hw : w ∈ reservedWords) :
    ∃ c cs, w.toList = c :: cs ∧ isIdentStart c = true := by
  have hall : ∀ w ∈ reservedWords, w.toList.head?.any isIdentStart = true := by decide
  exact exists_cons_of_any (hall w hw)

/-- A sign begins with a character that is no layout. -/
theorem isSolid_of_isSignStart {c : Char} (h : isSignStart c = true) : isSolid c = true := by
  have hall : ['o', 'a', '|', '&', '=', '!', '<', '>', '+', '-', '*', '/', '%', '^'].all isSolid = true := by
    decide
  exact List.all_eq_true.mp hall c (of_decide_eq_true h)

theorem isSolid_of_isUnarySignStart {c : Char} (h : isUnarySignStart c = true) : isSolid c = true := by
  have hall : ['-', '!', 'n'].all isSolid = true := by decide
  exact List.all_eq_true.mp hall c (of_decide_eq_true h)

variable (style : Style)

/-- Layout is not skipped at a token. -/
theorem Token.exists_solid (k : Token) : ∃ c cs, (k.text style).toList = c :: cs ∧ isSolid c = true := by
  cases k with
  | number n =>
    obtain ⟨c, cs, h, hc⟩ := exists_digits_cons n
    exact ⟨c, cs, h, isSolid_of_isIdentChar (isIdentChar_of_isDigit hc)⟩
  | name x =>
    obtain ⟨c, cs, h, hc, -⟩ := x.exists_cons
    exact ⟨c, cs, h, isSolid_of_isIdentChar (isIdentChar_of_isIdentStart hc)⟩
  | unary op =>
    obtain ⟨c, cs, h, hc⟩ := exists_unarySign_cons op (style.unarySign_mem op)
    exact ⟨c, cs, h, isSolid_of_isUnarySignStart hc⟩
  | operator op =>
    obtain ⟨c, cs, h, hc⟩ := exists_sign_cons op (style.sign_mem op)
    exact ⟨c, cs, h, isSolid_of_isSignStart hc⟩
  | opening => exact ⟨'(', [], (by decide : "(".toList = ['(']), rfl⟩
  | closing => exact ⟨')', [], (by decide : ")".toList = [')']), rfl⟩

theorem line_opening (ks : List Token) : line style (.opening :: ks) = '(' :: tail style ks := by
  rw [line, Token.text, (by decide : "(".toList = ['('])]
  rfl

theorem line_closing (ks : List Token) : line style (.closing :: ks) = ')' :: tail style ks := by
  rw [line, Token.text, (by decide : ")".toList = [')'])]
  rfl

/-! ## Layout between tokens -/

theorem skip_solid {c : Char} (hc : isSolid c = true) (rest : List Char) (pos : Nat) :
    grammar.nextElement .spaced ⟨c :: rest, pos⟩ = ⟨c :: rest, pos⟩ := by
  show skipLayout _ = _
  unfold isSolid at hc
  rw [Bool.and_eq_true, Bool.not_eq_true', bne_iff_ne] at hc
  unfold skipLayout
  rw [skipFrom, if_neg (by decide), if_neg (by rw [hc.1]; decide), if_neg (by simpa using hc.2)]

/-- At the beginning of a row there is nothing to skip. -/
theorem skip_line (ks : List Token) (pos : Nat) :
    grammar.nextElement .spaced ⟨line style ks, pos⟩ = ⟨line style ks, pos⟩ := by
  cases ks with
  | nil => rfl
  | cons k ks =>
    obtain ⟨c, cs, hk, hc⟩ := k.exists_solid style
    rw [line, hk, List.cons_append]
    exact skip_solid hc _ _

/-- Behind a token, the blank is skipped. -/
theorem skip_tail (ks : List Token) (pos : Nat) :
    ∃ pos', grammar.nextElement .spaced ⟨tail style ks, pos⟩ = ⟨line style ks, pos'⟩ := by
  cases ks with
  | nil => exact ⟨pos, rfl⟩
  | cons k ks => exact ⟨pos + 1, skip_line style (k :: ks) (pos + 1)⟩

section Rows

variable {p q : Pattern Rule} {c next : Cursor} {ts us : List (ParseTree Rule)} {ks : List Token} {pos : Nat}

/-- A sequence goes on at the row that its first part has left. -/
theorem seq_at_line (hp : Derives grammar .spaced p c (.matched ts ⟨line style ks, pos⟩))
    (hq : Derives grammar .spaced q ⟨line style ks, pos⟩ (.matched us next)) :
    Derives grammar .spaced (.seq p q) c (.matched (ts ++ us) next) := by
  refine .seq (r := .matched us next) hp ?_
  rw [skip_line]
  exact hq

/-- A repetition ends at a row where its pattern fails. -/
theorem none_at_line (hp : Derives grammar .spaced p ⟨line style ks, pos⟩ .failed) :
    Derives grammar .spaced (.many p) ⟨line style ks, pos⟩ (.matched [] ⟨line style ks, pos⟩) := by
  refine .no_more ?_
  rw [skip_line]
  exact hp

/-- A repetition goes on from what its pattern leaves of a row. -/
theorem once_more_at_line (hp : Derives grammar .spaced p ⟨line style ks, pos⟩ (.matched ts c))
    (hmore : Derives grammar .spaced (.many p) c (.matched us next)) :
    Derives grammar .spaced (.many p) ⟨line style ks, pos⟩ (.matched (ts ++ us) next) := by
  refine .once_more (r := .matched us next) ?_ hmore
  rw [skip_line]
  exact hp

end Rows

/-- Behind a token, no word goes on. -/
theorem tail_first {ks : List Token} {x : Char} {more : List Char} (h : tail style ks = x :: more) :
    x = ' ' := by
  cases ks with
  | nil => cases h
  | cons k ks =>
    rw [tail] at h
    exact (List.cons.inj h).1.symm

theorem takeWhile_tail {cs : List Char} (hcs : ∀ c ∈ cs, isIdentChar c = true) (ks : List Token) :
    (cs ++ tail style ks).takeWhile isIdentChar = cs := by
  rw [List.takeWhile_append_of_pos hcs]
  cases ks with
  | nil => rw [tail, List.takeWhile_nil, List.append_nil]
  | cons k ks => rw [tail, List.takeWhile_cons_of_neg (by decide), List.append_nil]

/-! ## Words -/

variable {c : Cursor} {ks : List Token} {pos : Nat}

theorem isIdentChar_of_mem_reserved {w : String} (hw : w ∈ reservedWords) {x : Char}
    (hx : x ∈ w.toList) : isIdentChar x = true := by
  have hall : ∀ w ∈ reservedWords, w.toList.all isIdentChar = true := by decide
  exact List.all_eq_true.mp (hall w hw) x hx

/-- Reserved words fail when another word stands there. -/
theorem words_fail (ws : List String) (hws : ∀ w ∈ ws, w ∈ reservedWords)
    (h : ∀ w ∈ ws, c.rest.takeWhile isIdentChar ≠ w.toList) :
    Derives grammar .atomic (.seq (.oneOf (ws.map .text)) Rule.wordEnd) c .failed := by
  rcases Derives.oneOf_texts (g := grammar) .atomic ws c with hnone | ⟨w, hw, next, hread, hmatch⟩
  · exact .seq_fails hnone
  · have hrest := Cursor.append_of_read? hread
    -- the word does not end here
    have hmore : next.rest.takeWhile isIdentChar ≠ [] := by
      intro hnil
      refine h w hw ?_
      rw [hrest, List.takeWhile_append_of_pos fun x hx => isIdentChar_of_mem_reserved (hws w hw) hx, hnil,
        List.append_nil]
    obtain ⟨rest, pos⟩ := next
    cases rest with
    | nil => exact absurd rfl hmore
    | cons x rest =>
      by_cases hx : isIdentChar x = true
      · exact .seq (r := .failed) hmatch (.notAhead_fails (.char hx))
      · exact absurd (List.takeWhile_cons_of_neg hx) hmore

theorem wholeWord_fails {w : String} (hw : w ∈ reservedWords)
    (h : c.rest.takeWhile isIdentChar ≠ w.toList) : Derives grammar .atomic (Rule.wholeWord w) c .failed :=
  words_fail [w] (List.forall_mem_singleton.mpr hw) (List.forall_mem_singleton.mpr h)

/-- Where no name can begin there is no reserved word. -/
theorem reserved_of_first {x : Char} (hx : isIdentStart x = false) (rest : List Char) {w : String}
    (hw : w ∈ reservedWords) : (x :: rest).takeWhile isIdentChar ≠ w.toList := by
  obtain ⟨c, cs, hc, hstart⟩ := exists_reserved_cons hw
  rw [List.takeWhile_cons, hc]
  split
  · exact fun heq => ne_of_class hx hstart (List.cons.inj heq).1
  · exact (List.cons_ne_nil c cs).symm

theorem word_mem_reserved (k : Keyword) : k.word ∈ reservedWords := by
  cases k <;> decide

/-- A keyword fails where another word stands. -/
theorem keyword_fails {mode : Mode} {k : Keyword} (h : c.rest.takeWhile isIdentChar ≠ k.word.toList) :
    Derives grammar mode (.rule (.keyword k)) c .failed :=
  .rule_fails (wholeWord_fails (word_mem_reserved k) h)

theorem lead_fails {k : Keyword} (h : c.rest.takeWhile isIdentChar ≠ k.word.toList) :
    Derives grammar .spaced (Rule.lead k) c .failed :=
  .seq_fails (.ahead_fails (keyword_fails h))

/-- A construct that begins with a keyword fails where another word stands. -/
theorem led_fails {r : Rule} {k : Keyword} {q : Pattern Rule}
    (hr : Rule.body r = .seq (Rule.lead k) q) (hmode : Rule.mode r = .spaced)
    (h : c.rest.takeWhile isIdentChar ≠ k.word.toList) :
    Derives grammar .spaced (.rule r) c .failed := by
  refine .rule_fails ?_
  show Derives grammar (Rule.mode r) (Rule.body r) c .failed
  rw [hr, hmode]
  exact .seq_fails (lead_fails h)

/-- A construct that begins with a text fails where the text does not stand. -/
theorem bracketed_fails {r : Rule} {s : String} {q : Pattern Rule} (hr : Rule.body r = .seq (.text s) q)
    (h : Derives grammar (Rule.mode r) (.text s) c .failed) :
    Derives grammar .spaced (.rule r) c .failed := by
  refine .rule_fails ?_
  show Derives grammar _ (Rule.body r) _ .failed
  rw [hr]
  exact .seq_fails h

/-! ## Names -/

/-- A name is read whole. -/
theorem ident_matches (x : Name) (ks : List Token) (pos : Nat) :
    Derives grammar .spaced (.rule .ident) ⟨line style (.name x :: ks), pos⟩
      (.matched [.leaf .ident ⟨pos, pos + x.val.toList.length⟩ x.val.toList]
        ⟨tail style ks, pos + x.val.toList.length⟩) := by
  obtain ⟨y, ys, hx, hy, hys, hfree⟩ := x.exists_cons
  have hall : ∀ z ∈ x.val.toList, isIdentChar z = true := by
    rw [hx]
    exact List.forall_mem_cons.mpr ⟨isIdentChar_of_isIdentStart hy, hys⟩
  -- the name is none of the reserved words
  have hwords : Derives grammar .atomic (.seq (.oneOf (reservedWords.map .text)) Rule.wordEnd)
      ⟨x.val.toList ++ tail style ks, pos⟩ .failed := by
    refine words_fail _ (fun w hw => hw) fun w hw heq => ?_
    rw [takeWhile_tail style hall] at heq
    exact hfree (String.toList_inj.mp heq ▸ hw)
  have hmany : Derives grammar .atomic (.many (.char isIdentChar)) ⟨ys ++ tail style ks, pos + 1⟩
      (.matched [] ⟨tail style ks, pos + 1 + ys.length⟩) := by
    refine .many_char nofun hys fun z more hz => ?_
    rw [tail_first style hz]
    decide
  have hbody : Derives grammar .atomic (Rule.body .ident) ⟨x.val.toList ++ tail style ks, pos⟩
      (.matched [] ⟨tail style ks, pos + x.val.toList.length⟩) := by
    rw [hx] at hwords ⊢
    rw [List.length_cons, Nat.add_comm ys.length, ← Nat.add_assoc]
    exact .seq (.notAhead hwords) (.seq (.char hy) hmany)
  exact .token rfl hbody

/-- A character that begins no name. -/
theorem ident_fails_of_first {x : Char} {rest : List Char} (hx : isIdentStart x = false) :
    Derives grammar .spaced (.rule .ident) ⟨x :: rest, pos⟩ .failed := by
  have hstart : Derives grammar .atomic (.seq (.char isIdentStart) (.many (.char isIdentChar)))
      ⟨x :: rest, pos⟩ .failed := .seq_fails (.char_ne hx)
  obtain ⟨r, hends, hwords⟩ := exists_derives .atomic
    (p := .seq (.oneOf (reservedWords.map .text)) Rule.wordEnd) (by decide) ⟨x :: rest, pos⟩
  refine .rule_fails ?_
  -- a reserved word may stand there or not
  cases r with
  | matched ts next => exact .seq_fails (.notAhead_fails hwords)
  | failed => exact .seq (r := .failed) (.notAhead hwords) hstart
  | exhausted => exact absurd rfl hends

/-! ## Numbers -/

/-- Digits are read up to the first character that is none. -/
theorem digits_read {d rest : List Char} (hne : d ≠ []) (hd : ∀ x ∈ d, x.isDigit = true)
    (hrest : ∀ x more, rest = x :: more → x.isDigit = false) (pos : Nat) :
    Derives grammar .atomic (.some (.char Char.isDigit)) ⟨d ++ rest, pos⟩
      (.matched [] ⟨rest, pos + d.length⟩) := by
  obtain ⟨y, ys, rfl⟩ := List.exists_cons_of_ne_nil hne
  obtain ⟨hy, hys⟩ := List.forall_mem_cons.mp hd
  have hmany : Derives grammar .atomic (.many (.char Char.isDigit)) ⟨ys ++ rest, pos + 1⟩
      (.matched [] ⟨rest, pos + 1 + ys.length⟩) := .many_char nofun hys hrest
  rw [List.length_cons, Nat.add_comm ys.length, ← Nat.add_assoc]
  exact .seq (.char hy) hmany

/-- A natural number is read back. -/
theorem number_matches (n : Nat) (ks : List Token) (pos : Nat) :
    Derives grammar .spaced (.rule .number) ⟨line style (.number n :: ks), pos⟩
      (.matched [.leaf .number ⟨pos, pos + (toString n).toList.length⟩ (toString n).toList]
        ⟨tail style ks, pos + (toString n).toList.length⟩) := by
  obtain ⟨y, ys, hn, -⟩ := exists_digits_cons n
  have hdigits : Derives grammar .atomic (.some (.char Char.isDigit)) ⟨(toString n).toList ++ tail style ks, pos⟩
      (.matched [] ⟨tail style ks, pos + (toString n).toList.length⟩) := by
    refine digits_read (hn ▸ List.cons_ne_nil y ys) (fun z hz => isDigit_of_mem_digits hz) ?_ pos
    intro z more hz
    rw [tail_first style hz]
    decide
  have hpoint : ∀ pos, Derives grammar .atomic (.text ".") ⟨tail style ks, pos⟩ .failed := by
    intro pos
    cases ks with
    | nil => exact .text_fails rfl
    | cons k ks => exact .text_ne (by decide : ".".toList = ['.']) (by decide)
  have hbody : Derives grammar .atomic (Rule.body .number) ⟨(toString n).toList ++ tail style ks, pos⟩
      (.matched [] ⟨tail style ks, pos + (toString n).toList.length⟩) :=
    .seq hdigits (.second (.seq_fails (hpoint _)) .empty)
  exact .token rfl hbody

theorem reduced_one (n : Int) : Fraction.reduced n 1 (by decide) = .ofInt n := by
  simp only [Fraction.reduced, Fraction.ofInt, Int.gcd_one, Int.sign_one, Int.one_mul, Int.natAbs_one,
    Nat.div_self Nat.one_pos, Int.natCast_one, Int.ediv_one]

theorem readNumber_digits (n : Nat) : readNumber (toString n).toList = .ofNat n := by
  have hpoint : ∀ c ∈ (toString n).toList, (c != '.') = true := fun c hc =>
    bne_iff_ne.mpr (ne_of_class (by decide) (isDigit_of_mem_digits hc)).symm
  have hbefore : (toString n).toList.takeWhile (· != '.') = (toString n).toList := by
    rw [← List.append_nil (toString n).toList, List.takeWhile_append_of_pos hpoint,
      List.takeWhile_nil]
  have hafter : (toString n).toList.dropWhile (· != '.') = [] := by
    rw [← List.append_nil (toString n).toList, List.dropWhile_append_of_pos hpoint,
      List.dropWhile_nil]
  have hvalue : (toString n).toList.foldl (fun n c => 10 * n + (c.toNat - '0'.toNat)) 0 = n := by
    rw [digits_eq, ← Nat.ofDigitChars_eq_foldl]
    exact Nat.ofDigitChars_ten_toDigits
  unfold readNumber Fraction.ofDecimal
  rw [hbefore, hafter]
  simp only [List.drop_nil, List.append_nil, hvalue]
  exact reduced_one n

/-! ## Operators -/

namespace Level

/-- The rule of the expressions that bind at least so tight. -/
def rule : Level → Rule
  | or => .orExpr
  | and => .andExpr
  | equality => .equality
  | comparison => .comparison
  | concat => .concat
  | sum => .sum
  | product => .product
  | unary => .unary
  | power => .power
  | atom => .postfix_

/-- The pattern of the operators between operands of a level. -/
def operator : Level → Pattern Rule
  | or => .rule .orOp
  | and => .rule .andOp
  | equality => .rule .eqOp
  | comparison => .rule .cmpOp
  | concat => .text "++"
  | sum => .rule .sumOp
  | product => .rule .productOp
  | power => .rule .powOp
  | unary | atom => .oneOf []

end Level

/-- The expression that an operator makes of its operands. -/
def Infix.node : Infix → Surface → Surface → Surface
  | binary op, l, r => .binary op l r
  | logical op, l, r => .logical op l r
  | join, l, r => .concat [l, r]

/-- What stands behind a token is nothing or a blank. -/
theorem tail_cases (ks : List Token) : tail style ks = [] ∨ ∃ more, tail style ks = ' ' :: more := by
  cases ks with
  | nil => exact .inl rfl
  | cons k ks => exact .inr ⟨_, rfl⟩

/-- Of the operators, those of another level fail at a sign. -/
theorem sign_fails {op : Infix} {s : String} (hs : s ∈ op.signs) {ℓ : Level} (h : op.level ≠ ℓ)
    {rest : List Char} (hrest : rest = [] ∨ ∃ more, rest = ' ' :: more) :
    Derives grammar .spaced ℓ.operator ⟨s.toList ++ rest, pos⟩ .failed := by
  suffices hrun : (grammar.run 8 .spaced .plain ℓ.operator ⟨s.toList ++ rest, pos⟩).reply = .failed from
    derives_of_failed _ _ hrun
  rcases hrest with rfl | ⟨more, rfl⟩ <;>
  cases op with
  | binary op =>
    cases op <;> simp only [Infix.signs, BinaryOp.symbol, List.mem_cons, List.not_mem_nil, or_false] at hs
    case pow => rcases hs with rfl | rfl <;> cases ℓ <;> first | exact absurd rfl h | rfl
    all_goals
      subst hs
      cases ℓ <;> first | exact absurd rfl h | rfl
  | logical op =>
    cases op <;> simp only [Infix.signs, List.mem_cons, List.not_mem_nil, or_false] at hs <;>
    rcases hs with rfl | rfl <;> cases ℓ <;> first | exact absurd rfl h | rfl
  | join =>
    simp only [Infix.signs, List.mem_singleton] at hs
    subst hs
    cases ℓ <;> first | exact absurd rfl h | rfl

/-- The rule of an operator that is recorded, which a joint is not. -/
def Infix.rule : Infix → Rule
  | logical .or => .orOp
  | logical .and => .andOp
  | binary .eq | binary .ne => .eqOp
  | binary .lt | binary .gt | binary .le | binary .ge => .cmpOp
  | binary .add | binary .sub | join => .sumOp
  | binary .mul | binary .div | binary .floorDiv | binary .rem => .productOp
  | binary .pow => .powOp

/-- A sign is read whole by the rule of its operator. -/
theorem sign_matches {op : Infix} {s : String} (hs : s ∈ op.signs) (hop : op ≠ .join)
    {rest : List Char} (hrest : rest = [] ∨ ∃ more, rest = ' ' :: more) (pos : Nat) :
    op.level.operator = .rule op.rule ∧ grammar.mode op.rule = .atomic ∧
    Derives grammar .atomic (grammar.body op.rule) ⟨s.toList ++ rest, pos⟩
      (.matched [] ⟨rest, pos + s.toList.length⟩) ∧
    ∀ span l r, combine (.leaf op.rule span s.toList) l r = op.node l r := by
  suffices hrun : op.level.operator = .rule op.rule ∧ grammar.mode op.rule = .atomic ∧
      (grammar.run 8 .atomic .plain (grammar.body op.rule) ⟨s.toList ++ rest, pos⟩).reply =
        .matched [] ⟨rest, pos + s.toList.length⟩ ∧
      ∀ span l r, combine (.leaf op.rule span s.toList) l r = op.node l r from
    ⟨hrun.1, hrun.2.1, derives_of_matched _ _ hrun.2.2.1, hrun.2.2.2⟩
  rcases hrest with rfl | ⟨more, rfl⟩ <;>
  cases op with
  | binary op =>
    cases op <;> simp only [Infix.signs, BinaryOp.symbol, List.mem_cons, List.not_mem_nil, or_false] at hs
    case pow => rcases hs with rfl | rfl <;> exact ⟨rfl, rfl, rfl, fun _ _ _ => rfl⟩
    all_goals
      subst hs
      exact ⟨rfl, rfl, rfl, fun _ _ _ => rfl⟩
  | logical op =>
    cases op <;> simp only [Infix.signs, List.mem_cons, List.not_mem_nil, or_false] at hs <;>
    rcases hs with rfl | rfl <;> exact ⟨rfl, rfl, rfl, fun _ _ _ => rfl⟩
  | join => exact absurd rfl hop

/-- **An operator is read** with the tree that stands for it. -/
theorem operator_matches {op : Infix} (hop : op ≠ .join) (ks : List Token) (pos : Nat) :
    ∃ t pos', Derives grammar .spaced op.level.operator ⟨line style (.operator op :: ks), pos⟩
      (.matched [t] ⟨tail style ks, pos'⟩) ∧ ∀ l r, combine t l r = op.node l r := by
  obtain ⟨hrule, hmode, hbody, hnode⟩ :=
    sign_matches (style.sign_mem op) hop (tail_cases style ks) pos
  rw [hrule]
  exact ⟨_, _, .token hmode hbody, hnode _⟩

/-- The joint of a concatenation leaves no tree. -/
theorem join_matches (ks : List Token) (pos : Nat) :
    ∃ pos', Derives grammar .spaced (.text "++") ⟨line style (.operator .join :: ks), pos⟩
      (.matched [] ⟨tail style ks, pos'⟩) := by
  have hsign : style.sign .join = "++" := List.mem_singleton.mp (style.sign_mem .join)
  refine ⟨pos + "++".toList.length, ?_⟩
  rw [line, Token.text, hsign]
  exact .text_append

/-- **Operators are told apart**: none of a level is read where the expressions of that level end. -/
theorem operator_fails {ℓ : Level} (h : EndsBelow ℓ ks) :
    Derives grammar .spaced ℓ.operator ⟨line style ks, pos⟩ .failed := by
  have hnothing : Derives grammar .spaced ℓ.operator ⟨[], pos⟩ .failed := by
    cases ℓ <;> exact derives_of_failed 8 .plain rfl
  have hclosing : ∀ rest, Derives grammar .spaced ℓ.operator ⟨")".toList ++ tail style rest, pos⟩ .failed := by
    intro rest
    cases ℓ <;> exact derives_of_failed 8 .plain rfl
  rcases h.cases with rfl | ⟨rest, rfl⟩ | ⟨op, rest, rfl, hlt⟩
  · exact hnothing
  · exact hclosing rest
  · refine sign_fails (style.sign_mem op) ?_ (tail_cases style rest)
    intro heq
    rw [heq] at hlt
    exact Nat.lt_irrefl _ hlt

/-- An operator before its operand is read. -/
theorem unaryOp_matches (op : UnaryOp) (ks : List Token) (pos : Nat) :
    ∃ span t, readUnaryOp t = op ∧ ∃ pos',
      Derives grammar .spaced (.rule .unaryOp) ⟨line style (.unary op :: ks), pos⟩
        (.matched [.leaf .unaryOp span t] ⟨tail style ks, pos'⟩) := by
  have hsign := style.unarySign_mem op
  rw [line, Token.text]
  generalize style.unarySign op = s at hsign
  suffices hrun : readUnaryOp s.toList = op ∧
      (grammar.run 8 .atomic .plain (grammar.body .unaryOp) ⟨s.toList ++ tail style ks, pos⟩).reply =
        .matched [] ⟨tail style ks, pos + s.toList.length⟩ from
    ⟨_, _, hrun.1, _, .token rfl (derives_of_matched _ _ hrun.2)⟩
  cases op with
  | neg =>
    cases List.mem_singleton.mp hsign
    rcases tail_cases style ks with htail | ⟨more, htail⟩ <;> rw [htail] <;> exact ⟨rfl, rfl⟩
  | not =>
    simp only [unarySigns, List.mem_cons, List.not_mem_nil, or_false] at hsign
    rcases tail_cases style ks with htail | ⟨more, htail⟩ <;> rw [htail] <;>
    rcases hsign with rfl | rfl <;> exact ⟨rfl, rfl⟩

end ExactScript.Source
