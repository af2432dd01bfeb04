import ExactScript.Proofs.ExactArithmetic
import ExactScript.Proofs.Precedence
import ExactScript.Proofs.Zones

/-!
# Literals

Nothing is lost or added when a literal is read. Every string can be written as a literal, by escapes for four of
its characters, and is read back from it. Any text that fits between the quotes of a literal is accepted unless it
escapes some other character. A number with decimals is the fraction that its digits stand for, in lowest terms.

A literal alone is a program. No other construct that the grammar tries begins with a digit or a quote, and
behind the literal there is nothing left, so each rule from the primary up to the file has the literal as its
only part (`Spans`).

## Contents
* `spelled`, `escapes`, `decimalValue`: how strings are written, and what digits are worth;
* `StringBody`, the texts of string literals, and `stringBody_of_derives`;
* `unescape_spelled`, `unescape_error_iff`: what string literals stand for;
* `Spans`, the constructs that take up a whole text, and `parse_of_primary`;
* `literals_exact`, the theorem.
-/

namespace ExactScript.Source

open Peg

/-! ## How literals are written -/

/-- A character as it is written in a string literal. -/
def spelled : Char → List Char
  | '\n' => ['\\', 'n']
  | '\t' => ['\\', 't']
  | '"' => ['\\', '"']
  | '\\' => ['\\', '\\']
  | c => [c]

/-- The characters that stand behind a backslash, which takes the next character whatever it is. -/
def escapes : List Char → List Char
  | '\\' :: c :: rest => c :: escapes rest
  | _ :: rest => escapes rest
  | [] => []

/-- What a character stands for behind a backslash. -/
def escapeMeaning? : Char → Option Char
  | 'n' => some '\n'
  | 't' => some '\t'
  | '"' => some '"'
  | '\\' => some '\\'
  | _ => none

/-- What decimal digits are worth, each by its position. -/
def decimalValue : List Char → Nat
  | [] => 0
  | c :: cs => (c.toNat - '0'.toNat) * 10 ^ cs.length + decimalValue cs

/-- At least one digit, and nothing else. -/
def IsDigits (cs : List Char) : Prop := cs ≠ [] ∧ ∀ c ∈ cs, c.isDigit = true

/-- A text between double quotes. -/
def inQuotes (cs : List Char) : List Char := '"' :: (cs ++ ['"'])

/-! ## The texts of string literals -/

/-- The texts that fit between the quotes: every backslash has a character behind it, and there is no quote
but behind a backslash. -/
inductive StringBody : List Char → Prop
  | nil : StringBody []
  | plain {c : Char} {cs : List Char} (hquote : c ≠ '"') (hslash : c ≠ '\\') (h : StringBody cs) :
      StringBody (c :: cs)
  | escape {c : Char} {cs : List Char} (h : StringBody cs) : StringBody ('\\' :: c :: cs)

/-- One more item in front of a text. -/
theorem StringBody.of_item {c next : Cursor} {ts : List (ParseTree Rule)}
    (h : Derives grammar .atomic literalItem c (.matched ts next)) (hnext : StringBody next.rest) :
    StringBody c.rest := by
  obtain ⟨cs, pos⟩ := c
  cases cs with
  | nil => cases derives_unique rfl h item_end
  | cons x cs =>
    by_cases hquote : x = '"'
    · subst hquote
      cases derives_unique rfl h item_quote
    by_cases hslash : x = '\\'
    · subst hslash
      cases cs with
      | nil => cases derives_unique rfl h item_slash
      | cons y cs =>
        cases derives_unique rfl h item_escape
        exact .escape hnext
    · cases derives_unique rfl h (item_char hquote hslash)
      exact .plain hquote hslash hnext

/-- A text that the grammar takes for the inside of a string literal, as a whole. -/
theorem stringBody_of_derives {r : List Char} {ts : List (ParseTree Rule)} {n : Nat}
    (h : Derives grammar .spaced (.rule .stringBody) ⟨r, 0⟩ (.matched ts ⟨[], n⟩)) : StringBody r := by
  obtain ⟨us, hmany, -⟩ := h.of_rule
  have hitems : Derives grammar .atomic (.many literalItem) ⟨r, 0⟩ (.matched us ⟨[], n⟩) := hmany
  exact hitems.of_many (P := fun c _ => StringBody c.rest) (fun _ => .nil) fun hitem h => .of_item hitem h

/-- The text is read up to the quote behind it. -/
theorem StringBody.reads {r : List Char} (h : StringBody r) (rest : List Char) (pos : Nat) :
    Derives grammar .atomic (.many literalItem) ⟨r ++ '"' :: rest, pos⟩
      (.matched [] ⟨'"' :: rest, pos + r.length⟩) := by
  induction h generalizing pos with
  | nil => exact .no_more item_quote
  | @plain c cs hquote hslash _ ih =>
    rw [List.length_cons, Nat.add_comm cs.length, ← Nat.add_assoc]
    exact .once_more (item_char hquote hslash) (ih (pos + 1))
  | @escape c cs _ ih =>
    have hlength : pos + ('\\' :: c :: cs).length = pos + 1 + 1 + cs.length := by
      simp only [List.length_cons]
      omega
    rw [hlength]
    exact .once_more item_escape (ih (pos + 1 + 1))

/-! ## What string literals stand for -/

theorem escapes_cons {c : Char} (hc : c ≠ '\\') (rest : List Char) : escapes (c :: rest) = escapes rest := by
  cases rest <;> simp [escapes, hc]

theorem escapes_slash (c : Char) (rest : List Char) : escapes ('\\' :: c :: rest) = c :: escapes rest := by
  simp [escapes]

theorem unescape_cons {c : Char} (hc : c ≠ '\\') (rest : List Char) :
    unescape (c :: rest) = (c :: ·) <$> unescape rest := by
  cases rest <;> simp [unescape, hc]

theorem unescape_slash (c : Char) (rest : List Char) :
    unescape ('\\' :: c :: rest) = match escapeMeaning? c with
      | some x => (x :: ·) <$> unescape rest
      | none => .error (.unknownEscape c) := by
  fun_cases escapeMeaning? c with
  | case5 _ hn ht hquote hslash =>
    unfold unescape
    split
    case h_7 heq =>
      cases heq
      rfl
    all_goals simp_all
  | _ => rfl

/-- A character is written as itself or as an escape that stands for it. -/
theorem spelled_cases (c : Char) :
    (c ≠ '"' ∧ c ≠ '\\' ∧ spelled c = [c]) ∨
    ∃ e, spelled c = ['\\', e] ∧ escapeMeaning? e = some c := by
  unfold spelled
  split
  · exact .inr ⟨'n', rfl, rfl⟩
  · exact .inr ⟨'t', rfl, rfl⟩
  · exact .inr ⟨'"', rfl, rfl⟩
  · exact .inr ⟨'\\', rfl, rfl⟩
  · next hquote hslash => exact .inl ⟨hquote, hslash, rfl⟩

theorem escapeMeaning?_eq_none_iff {c : Char} : escapeMeaning? c = none ↔ c ∉ ['n', 't', '"', '\\'] := by
  unfold escapeMeaning?
  split <;> simp_all

/-- Every string, written out, fits between the quotes. -/
theorem stringBody_spelled (s : List Char) : StringBody (s.flatMap spelled) := by
  induction s with
  | nil => exact .nil
  | cons c s ih =>
    rw [List.flatMap_cons]
    rcases spelled_cases c with ⟨hquote, hslash, hc⟩ | ⟨e, hc, -⟩ <;> rw [hc]
    · exact .plain hquote hslash ih
    · exact .escape ih

/-- And it is read back. -/
theorem unescape_spelled (s : List Char) : unescape (s.flatMap spelled) = .ok s := by
  induction s with
  | nil => rfl
  | cons c s ih =>
    rw [List.flatMap_cons]
    rcases spelled_cases c with ⟨-, hslash, hc⟩ | ⟨e, hc, hmeaning⟩ <;> rw [hc]
    · rw [List.singleton_append, unescape_cons hslash, ih]
      rfl
    · show unescape ('\\' :: e :: s.flatMap spelled) = _
      rw [unescape_slash, hmeaning, ih]
      rfl

/-- **A text is at fault** when one of its escapes has no meaning. -/
theorem unescape_error_iff {r : List Char} (h : StringBody r) :
    (∃ p, unescape r = .error p) ↔ ∃ c ∈ escapes r, escapeMeaning? c = none := by
  have hmap : ∀ (x : Char) (cs : List Char), (∃ p, (x :: ·) <$> unescape cs = .error p) ↔
      ∃ p, unescape cs = .error p := by
    intro x cs
    cases unescape cs with
    | ok t => exact ⟨nofun, nofun⟩
    | error p => exact ⟨fun _ => ⟨p, rfl⟩, fun _ => ⟨p, rfl⟩⟩
  induction h with
  | nil => exact ⟨nofun, nofun⟩
  | plain _ hslash _ ih =>
    rw [unescape_cons hslash, escapes_cons hslash, hmap]
    exact ih
  | @escape c cs _ ih =>
    rw [unescape_slash, escapes_slash, List.exists_mem_cons_iff]
    cases hc : escapeMeaning? c with
    | none => exact ⟨fun _ => .inl rfl, fun _ => ⟨_, rfl⟩⟩
    | some x => simp only [hmap, ih, reduceCtorEq, false_or]

/-! ## What numbers stand for -/

/-- Reading from left to right gives the same as the positions do. -/
theorem foldl_digits (cs : List Char) (n : Nat) :
    cs.foldl (fun n c => 10 * n + (c.toNat - '0'.toNat)) n = n * 10 ^ cs.length + decimalValue cs := by
  induction cs generalizing n with
  | nil => rw [List.foldl_nil, List.length_nil, Nat.pow_zero, Nat.mul_one, decimalValue, Nat.add_zero]
  | cons c cs ih =>
    rw [List.foldl_cons, ih, decimalValue, List.length_cons]
    ring

/-- No digit is a point. -/
theorem IsDigits.ne_point {d : List Char} (hd : IsDigits d) : ∀ c ∈ d, (c != '.') = true := fun c hc =>
  bne_iff_ne.mpr (ne_of_class (by decide) (hd.2 c hc)).symm

theorem readNumber_integer {d : List Char} (hd : IsDigits d) : readNumber d = .ofNat (decimalValue d) := by
  have hbefore : d.takeWhile (· != '.') = d := by
    rw [← List.append_nil d, List.takeWhile_append_of_pos hd.ne_point, List.takeWhile_nil]
  have hbehind : d.dropWhile (· != '.') = [] := by
    rw [← List.append_nil d, List.dropWhile_append_of_pos hd.ne_point, List.dropWhile_nil]
  unfold readNumber Fraction.ofDecimal
  simp only [hbefore, hbehind, List.drop_nil, List.append_nil, foldl_digits, Nat.zero_mul, Nat.zero_add]
  exact reduced_one _

theorem readNumber_decimals {d : List Char} (hd : IsDigits d) (f : List Char) :
    (readNumber (d ++ '.' :: f)).value = decimalValue (d ++ f) / 10 ^ f.length := by
  have hbefore : (d ++ '.' :: f).takeWhile (· != '.') = d := by
    rw [List.takeWhile_append_of_pos hd.ne_point, List.takeWhile_cons_of_neg (by decide), List.append_nil]
  have hbehind : (d ++ '.' :: f).dropWhile (· != '.') = '.' :: f := by
    rw [List.dropWhile_append_of_pos hd.ne_point, List.dropWhile_cons_of_neg (by decide)]
  unfold readNumber Fraction.ofDecimal
  rw [hbefore, hbehind, Fraction.value_reduced, foldl_digits, Nat.zero_mul, Nat.zero_add]
  norm_num

/-! ## Constructs up to the end of the text -/

/-- The whole text is a construct of the rule, which is read as `e`. -/
def Spans (cs : List Char) (r : Rule) (e : Reading Surface) : Prop :=
  ∃ span parts n, Derives grammar .spaced (.rule r) ⟨cs, 0⟩ (.matched [.node r span parts] ⟨[], n⟩) ∧
    readExpr (.node r span parts) = e

namespace Spans

variable {cs : List Char} {a r : Rule} {e : Reading Surface} {p : Pattern Rule} {ℓ : Level}

/-- A rule that has a construct of another one as its only part. -/
theorem around (h : Spans cs a e) (hmode : grammar.mode r = .spaced)
    (hbody : ∀ {t n}, Derives grammar .spaced (.rule a) ⟨cs, 0⟩ (.matched [t] ⟨[], n⟩) →
      Derives grammar .spaced (Rule.body r) ⟨cs, 0⟩ (.matched [t] ⟨[], n⟩))
    (hread : ∀ span span' parts, readExpr (.node r span [.node a span' parts]) =
      readExpr (.node a span' parts)) : Spans cs r e := by
  obtain ⟨span, parts, n, hderives, rfl⟩ := h
  exact ⟨_, _, n, .node hmode (hbody hderives), hread _ _ _⟩

/-- The first part of a repetition that has no other. -/
theorem alone (h : Spans cs a e) (hmode : grammar.mode r = .spaced)
    (hr : Rule.body r = .seq (.rule a) (.many p))
    (hp : p.productive Rule.nullable = true) (hnull : p.nullable Rule.nullable = false)
    (hread : ∀ span span' parts, readExpr (.node r span [.node a span' parts]) =
      readExpr (.node a span' parts)) : Spans cs r e := by
  refine h.around hmode (fun {t n} ht => ?_) hread
  rw [hr]
  have hnone : Derives grammar .spaced (.many p) ⟨[], n⟩ (.matched [] ⟨[], n⟩) :=
    .no_more (fails_at_end hp hnull)
  exact .seq (r := .matched [] _) ht hnone

theorem chain (hℓ : ℓ.IsChain) (h : Spans cs ℓ.next.rule e) : Spans cs ℓ.rule e := by
  refine h.alone ℓ.mode_rule hℓ.body ?_ ?_ fun span span' parts => ?_
  · cases hℓ <;> rfl
  · cases hℓ <;> rfl
  · rw [hℓ.readExpr]
    cases readExpr (.node ℓ.next.rule span' parts) <;> rfl

/-- A construct of a level is one of the next looser level, too, if no operator stands before it. -/
theorem loosen (ℓ : Level) (hunary : Derives grammar .spaced (.rule .unaryOp) ⟨cs, 0⟩ .failed)
    (hsolid : grammar.nextElement .spaced ⟨cs, 0⟩ = ⟨cs, 0⟩) (h : Spans cs ℓ.next.rule e) :
    Spans cs ℓ.rule e := by
  cases ℓ with
  | or => exact .chain .or h
  | and => exact .chain .and h
  | equality => exact .chain .equality h
  | comparison => exact .chain .comparison h
  | concat => exact h.alone (p := .seq (.text "++") (.rule .sum)) rfl rfl rfl rfl fun _ _ _ => rfl
  | sum => exact .chain .sum h
  | product => exact .chain .product h
  | unary =>
    refine h.around rfl (fun {t n} ht => ?_) fun _ _ _ => rfl
    have hnone : Derives grammar .spaced (.many (.rule .unaryOp)) ⟨cs, 0⟩ (.matched [] ⟨cs, 0⟩) :=
      .no_more (hsolid.symm ▸ hunary)
    exact .seq (r := .matched [t] _) hnone (hsolid.symm ▸ ht)
  | power =>
    refine h.around rfl (fun {t n} ht => ?_) fun _ _ _ => rfl
    have hnone : Derives grammar .spaced (.optional (.seq (.rule .powOp) (.rule .unary))) ⟨[], n⟩
        (.matched [] ⟨[], n⟩) := .second (fails_at_end rfl rfl) .empty
    exact .seq (r := .matched [] _) ht hnone
  | atom => exact h

/-- From the primary up to the expression, level by level. -/
theorem expression (hunary : Derives grammar .spaced (.rule .unaryOp) ⟨cs, 0⟩ .failed)
    (hsolid : grammar.nextElement .spaced ⟨cs, 0⟩ = ⟨cs, 0⟩) (h : Spans cs .primary e) :
    Spans cs .expression e := by
  have hloosen : ∀ ℓ : Level, Spans cs ℓ.next.rule e → Spans cs ℓ.rule e := fun ℓ h => h.loosen ℓ hunary hsolid
  have hpostfix : Spans cs .postfix_ e := by
    refine h.alone (p := .rule .suffix) rfl rfl rfl rfl fun span span' parts => ?_
    show (readExpr (.node .primary span' parts) >>= fun e => readSuffixes e []) = _
    cases readExpr (.node .primary span' parts) <;> rfl
  have hsum : Spans cs .sum e :=
    hloosen .sum (hloosen .product (hloosen .unary (hloosen .power hpostfix)))
  have hequality : Spans cs .equality e :=
    hloosen .equality (hloosen .comparison (hloosen .concat hsum))
  have hor : Spans cs .orExpr e := hloosen .or (hloosen .and hequality)
  exact hor.around rfl id fun _ _ _ => rfl

end Spans

/-! ## Where a literal begins -/

/-- A digit or a quote. -/
def isLiteralStart (c : Char) : Bool := c.isDigit || c == '"'

theorem isLiteralStart_cases {x : Char} (hx : isLiteralStart x = true) : x.isDigit = true ∨ x = '"' := by
  rwa [isLiteralStart, Bool.or_eq_true, beq_iff_eq] at hx

section Beginning

variable {x : Char} {rest : List Char} {e : Reading Surface}

/-- No name and no keyword begins so. -/
theorem isIdentStart_of_literal (hx : isLiteralStart x = true) : isIdentStart x = false := by
  rcases isLiteralStart_cases hx with hdigit | rfl
  · exact isIdentStart_of_isDigit hdigit
  · decide

theorem isSolid_of_literal (hx : isLiteralStart x = true) : isSolid x = true := by
  rcases isLiteralStart_cases hx with hdigit | rfl
  · exact isSolid_of_isIdentChar (isIdentChar_of_isDigit hdigit)
  · decide

/-- A sign that begins no literal does not stand there. -/
theorem text_at_literal {mode : Mode} (hx : isLiteralStart x = true) {s : String} {y : Char} {ys : List Char}
    (hs : s.toList = y :: ys) (hy : isLiteralStart y = false) :
    Derives grammar mode (.text s) ⟨x :: rest, 0⟩ .failed := .text_ne hs (ne_of_class hy hx)

/-- **A literal alone is a program**: the constructs that are tried before expressions fail. -/
theorem file_of_primary (hx : isLiteralStart x = true) (h : Spans (x :: rest) .primary e) :
    ∃ t ts next, Derives grammar .spaced (.rule .file) ⟨x :: rest, 0⟩ (.matched (t :: ts) next) ∧
      readFile t = ([·]) <$> e := by
  have hstart := isIdentStart_of_literal hx
  have hsolid := skip_solid (isSolid_of_literal hx) rest 0
  have hwords : ∀ w ∈ reservedWords, (x :: rest).takeWhile isIdentChar ≠ w.toList := fun w hw =>
    reserved_of_first hstart rest hw
  have hident : Derives grammar .spaced (.rule .ident) ⟨x :: rest, 0⟩ .failed := ident_fails_of_first hstart
  have hunary : Derives grammar .spaced (.rule .unaryOp) ⟨x :: rest, 0⟩ .failed :=
    unaryOp_fails_of (text_at_literal hx (by decide : "-".toList = ['-']) (by decide))
      (text_at_literal hx (by decide : "!".toList = ['!']) (by decide)) (hwords "not" (by decide))
  have hstatement : Spans (x :: rest) .statement e := by
    refine (h.expression hunary hsolid).around rfl (statement_of_expression ?_ ?_ ?_ ?_) fun _ _ _ => rfl
    · exact fun k => hwords k.word (word_mem_reserved k)
    · exact text_at_literal hx (by decide : "\x7b".toList = ['\x7b']) (by decide)
    · exact .node_fails rfl (.seq_fails hident)
    · exact .node_fails rfl (.seq_fails hident)
  obtain ⟨span, parts, n, hderives, hread⟩ := hstatement
  obtain ⟨t, ts, next, hfile, hreadFile⟩ := file_of_statement hsolid
    (text_at_literal hx (by decide : ";".toList = [';']) (by decide)) hderives
  refine ⟨t, ts, next, hfile, ?_⟩
  rw [hreadFile, readExprs, hread]
  cases e <;> rfl

end Beginning

/-! ## Literals as primaries -/

/-- A text between quotes, with what its escapes stand for. -/
theorem spans_string {r : List Char} (h : StringBody r) : Spans (inQuotes r) .primary
    ((fun s => Expr.literal (.str (String.ofList s))) <$> located ⟨1, 1 + r.length⟩ (unescape r)) := by
  have hnumber : Derives grammar .spaced (.rule .number) ⟨inQuotes r, 0⟩ .failed :=
    .rule_fails (.seq_fails (.seq_fails (.char_ne (by decide))))
  have hreads : ∀ rest pos, Derives grammar .atomic (.many literalItem) ⟨r ++ '"' :: [] ++ rest, pos⟩
      (.matched [] ⟨'"' :: [] ++ rest, pos + r.length⟩) := by
    intro rest pos
    rw [List.append_assoc]
    exact h.reads rest pos
  have hbody := string_closed hreads [] 0
  rw [List.append_nil, List.append_nil] at hbody
  have hstring : Derives grammar .spaced (.rule .string) ⟨inQuotes r, 0⟩
      (.matched (grammar.ruleTrees .spaced .string _ _ _) _) := .rule hbody
  refine ⟨_, _, _, .node rfl (.second hnumber (.first hstring)), ?_⟩
  show (do return Expr.literal (.str (String.ofList (← located _ (unescape r))))) = _
  rw [Nat.zero_add]
  cases located ⟨1, 1 + r.length⟩ (unescape r) <;> rfl

/-- A text of the rule of numbers. -/
theorem spans_number {t : List Char}
    (h : Derives grammar .atomic (Rule.body .number) ⟨t, 0⟩ (.matched [] ⟨[], t.length⟩)) :
    Spans t .primary (.ok (.literal (.num (readNumber t)))) := by
  have hbody : Derives grammar .atomic (Rule.body .number) ⟨t ++ [], 0⟩ (.matched [] ⟨[], 0 + t.length⟩) := by
    rwa [List.append_nil, Nat.zero_add]
  have hnumber := Derives.token (g := grammar) (a := Rule.number) rfl hbody
  rw [List.append_nil] at hnumber
  exact ⟨_, _, _, .node rfl (.first hnumber), rfl⟩

/-- Digits are read up to the end of the text. -/
theorem IsDigits.read {d : List Char} (hd : IsDigits d) (pos : Nat) :
    Derives grammar .atomic (.some (.char Char.isDigit)) ⟨d, pos⟩ (.matched [] ⟨[], pos + d.length⟩) := by
  have hend : ∀ (x : Char) (more : List Char), [] = x :: more → x.isDigit = false := nofun
  have hdigits := digits_read hd.1 hd.2 hend pos
  rwa [List.append_nil] at hdigits

theorem spans_integer {d : List Char} (hd : IsDigits d) :
    Spans d .primary (.ok (.literal (.num (.ofNat (decimalValue d))))) := by
  have hdigits := hd.read 0
  rw [Nat.zero_add] at hdigits
  rw [← readNumber_integer hd]
  exact spans_number (.seq hdigits (.second (.seq_fails (.text_fails rfl)) .empty))

theorem spans_decimals {d f : List Char} (hd : IsDigits d) (hf : IsDigits f) :
    Spans (d ++ '.' :: f) .primary (.ok (.literal (.num (readNumber (d ++ '.' :: f))))) := by
  have hpoint : ∀ x more, '.' :: f = x :: more → x.isDigit = false := by
    intro x more h
    cases h
    decide
  have hdigits := digits_read hd.1 hd.2 hpoint 0
  have hdecimals := hf.read (0 + d.length + 1)
  have hlength : (d ++ '.' :: f).length = 0 + d.length + 1 + f.length := by
    rw [List.length_append, List.length_cons]
    omega
  refine spans_number ?_
  rw [hlength]
  exact .seq hdigits (.first (.seq (.text rfl) hdecimals))

/-! ## The theorem -/

/-- The whole text is parsed as the one literal that it spans. -/
theorem parse_of_primary {cs : List Char} {x : Char} {rest : List Char} {e : Surface} (hcs : cs = x :: rest)
    (hx : isLiteralStart x = true) (h : Spans cs .primary (.ok e)) : parseChars cs = .ok [e] := by
  subst hcs
  obtain ⟨t, ts, next, hfile, hread⟩ := file_of_primary hx h
  exact parseChars_of_derives hfile hread

theorem parse_spelled (s : List Char) :
    parseChars (inQuotes (s.flatMap spelled)) = .ok [.literal (.str (String.ofList s))] := by
  have hspans := spans_string (stringBody_spelled s)
  rw [unescape_spelled] at hspans
  exact parse_of_primary rfl (by decide) hspans

theorem parse_inQuotes_error_iff {r : List Char} (h : StringBody r) :
    (∃ e, parseChars (inQuotes r) = .error e) ↔ ∃ c ∈ escapes r, escapeMeaning? c = none := by
  rw [← unescape_error_iff h]
  obtain ⟨t, ts, next, hfile, hread⟩ := file_of_primary (by decide : isLiteralStart '"' = true) (spans_string h)
  cases hr : unescape r with
  | ok s =>
    rw [hr] at hread
    have hparse : parseChars (inQuotes r) = .ok _ := parseChars_of_derives hfile hread
    rw [hparse]
    exact ⟨nofun, nofun⟩
  | error p =>
    rw [hr] at hread
    exact ⟨fun _ => ⟨p, rfl⟩, fun _ => parseChars_error_of_derives hfile hread⟩

theorem IsDigits.exists_start {d : List Char} (hd : IsDigits d) :
    ∃ y ys, d = y :: ys ∧ isLiteralStart y = true := by
  obtain ⟨y, ys, hcons⟩ := List.exists_cons_of_ne_nil hd.1
  have hy : y.isDigit = true := hd.2 y (hcons ▸ List.mem_cons_self)
  exact ⟨y, ys, hcons, by rw [isLiteralStart, hy, Bool.true_or]⟩

theorem parse_integer {d : List Char} (hd : IsDigits d) :
    parseChars d = .ok [.literal (.num (.ofNat (decimalValue d)))] := by
  obtain ⟨y, ys, hcons, hy⟩ := hd.exists_start
  exact parse_of_primary hcons hy (spans_integer hd)

theorem parse_decimals {d f : List Char} (hd : IsDigits d) (hf : IsDigits f) :
    parseChars (d ++ '.' :: f) = .ok [.literal (.num (readNumber (d ++ '.' :: f)))] := by
  obtain ⟨y, ys, hcons, hy⟩ := hd.exists_start
  have hpoint : d ++ '.' :: f = y :: (ys ++ '.' :: f) := by rw [hcons, List.cons_append]
  exact parse_of_primary hpoint hy (spans_decimals hd hf)

/-- **Literals are read exactly.** A string that is written with an escape for each quote, backslash, line end
and tab, and with every other character as it is, is parsed as that string. A text that is a string body is
rejected between quotes when it escapes any other character, and only then. And digits are parsed as the
integer that they stand for, with decimals as the fraction, in lowest terms. -/
theorem literals_exact :
    (∀ s : String, parse (String.ofList (inQuotes (s.toList.flatMap spelled))) = .ok [.literal (.str s)]) ∧
    (∀ (r : List Char) (ts : List (ParseTree Rule)) (n : Nat),
      Derives grammar .spaced (.rule .stringBody) ⟨r, 0⟩ (.matched ts ⟨[], n⟩) →
      ((∃ e, parse (String.ofList (inQuotes r)) = .error e) ↔ ∃ c ∈ escapes r, c ∉ ['n', 't', '"', '\\'])) ∧
    ∀ d f : List Char, IsDigits d → IsDigits f →
      parse (String.ofList d) = .ok [.literal (.num (.ofNat (decimalValue d)))] ∧
      ∃ q : Fraction, parse (String.ofList (d ++ '.' :: f)) = .ok [.literal (.num q)] ∧ q.IsReduced ∧
        q.value = decimalValue (d ++ f) / 10 ^ f.length := by
  unfold parse
  simp only [String.toList_ofList]
  refine ⟨fun s => ?_, fun r ts n h => ?_, fun d f hd hf => ⟨parse_integer hd, ?_⟩⟩
  · have hparse := parse_spelled s.toList
    rwa [String.ofList_toList] at hparse
  · rw [parse_inQuotes_error_iff (stringBody_of_derives h)]
    simp only [escapeMeaning?_eq_none_iff]
  · exact ⟨_, parse_decimals hd hf, Fraction.isReduced_readNumber _, readNumber_decimals hd f⟩

/-- All four escapes in one string; a text with an escape that has no meaning and one that has; and digits with
zeros at both ends. -/
theorem literals_exact_samples :
    parse (String.ofList (inQuotes ("\t#\"\\\n".toList.flatMap spelled))) = .ok [.literal (.str "\t#\"\\\n")] ∧
    (∃ e, parse (String.ofList (inQuotes ['a', '\\', 'q'])) = .error e) ∧
    (¬∃ e, parse (String.ofList (inQuotes ['\\', 't', 'q'])) = .error e) ∧
    parse (String.ofList ['0', '7']) = .ok [.literal (.num (.ofNat 7))] ∧
    ∃ q : Fraction, parse (String.ofList ['0', '7', '.', '5', '0']) = .ok [.literal (.num q)] ∧ q.IsReduced ∧
      q.value = 15 / 2 := by
  have hbody : ∀ r : List Char, (grammar.run 20 .spaced .plain (.rule .stringBody) ⟨r, 0⟩).reply =
      .matched [.leaf .stringBody ⟨0, 3⟩ r] ⟨[], 3⟩ → Derives grammar .spaced (.rule .stringBody) ⟨r, 0⟩
        (.matched [.leaf .stringBody ⟨0, 3⟩ r] ⟨[], 3⟩) := fun r h => derives_of_matched _ _ h
  have hunknown := literals_exact.2.1 ['a', '\\', 'q'] _ _ (hbody _ rfl)
  have hknown := literals_exact.2.1 ['\\', 't', 'q'] _ _ (hbody _ rfl)
  have hd : IsDigits ['0', '7'] := ⟨nofun, List.all_eq_true.mp (by decide)⟩
  have hf : IsDigits ['5', '0'] := ⟨nofun, List.all_eq_true.mp (by decide)⟩
  obtain ⟨hinteger, q, hdecimals, hreduced, hvalue⟩ := literals_exact.2.2 _ _ hd hf
  refine ⟨literals_exact.1 _, hunknown.mpr ⟨'q', by decide, by decide⟩, ?_, hinteger, q, hdecimals,
    hreduced, ?_⟩
  · rw [hknown]
    rintro ⟨c, hc, hunknown⟩
    have hescapes : escapes ['\\', 't', 'q'] = ['t'] := rfl
    rw [hescapes] at hc
    cases List.mem_singleton.mp hc
    exact hunknown (by decide)
  · have hdigits : decimalValue (['0', '7'] ++ ['5', '0']) = 750 := rfl
    rw [hvalue, hdigits]
    norm_num

end ExactScript.Source
