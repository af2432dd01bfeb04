import ExactScript.Proofs.Operands

/-!
# Precedence

A formula that is written out is read back as the same expression. The grammar has one rule for each level of
the table, which looks for operands of the next tighter one. So the proof goes through the levels as the
parser does. What the rule of a level reads is also what the looser rules read, as long as none of their
operators stands behind it (`ReadsAs.loosen`). An expression in parentheses is an atom. A chain of operators of
one level is read from left to right: the left operand is read by the rule of the level itself, and the rule
goes on with whatever the chain continues with (`Continues`), which is how operators of a level group to the
left. A formula is `Parsable` when it can be read at every level, with parentheses where they are demanded.

## Contents
* `ReadsAs`, `Continues`, and the rules for each level;
* `begins_tokens`: how the tokens of a formula begin;
* `Parsable` and `parsable`, by induction over formulas;
* `parse_text`, the theorem.
-/

namespace ExactScript.Source

open Peg

variable (style : Style)

/-! ## Reading at a level -/

/-- At the row `ks` the rule reads the expression `e`, up to the row `rest`. -/
def ReadsAs (r : Rule) (ks : List Token) (e : Surface) (rest : List Token) : Prop :=
  ∀ pos, ∃ parts pos', Derives grammar .spaced (Rule.body r) ⟨line style ks, pos⟩
    (.matched parts ⟨line style rest, pos'⟩) ∧ ∀ span, readExpr (.node r span parts) = .ok e

/-- After the operand `e` of a level, operators of the level and further operands make `e'` of it. -/
def Continues (ℓ : Level) (ks : List Token) (e e' : Surface) (rest : List Token) : Prop :=
  ∀ pos, ∃ parts pos', Derives grammar .spaced (.many (.seq ℓ.operator (.rule ℓ.next.rule)))
    ⟨line style ks, pos⟩ (.matched parts ⟨line style rest, pos'⟩) ∧ readChain e parts = .ok e'

namespace Level

theorem mode_rule (ℓ : Level) : grammar.mode ℓ.rule = .spaced := by
  cases ℓ <;> rfl

/-- The levels whose operators group to the left. -/
inductive IsChain : Level → Prop where
  | or : IsChain or
  | and : IsChain and
  | equality : IsChain equality
  | comparison : IsChain comparison
  | sum : IsChain sum
  | product : IsChain product

/-- Powers are the only ones that do not. -/
theorem isChain_or_pow (op : BinaryOp) : IsChain (Infix.binary op).level ∨ op = .pow := by
  cases op <;> first | exact .inr rfl | exact .inl (by constructor)

variable {ℓ : Level}

theorem IsChain.body (h : IsChain ℓ) :
    Rule.body ℓ.rule = .seq (.rule ℓ.next.rule) (.many (.seq ℓ.operator (.rule ℓ.next.rule))) := by
  cases h <;> rfl

theorem IsChain.readExpr (h : IsChain ℓ) (span : Span) (first : ParseTree Rule)
    (rest : List (ParseTree Rule)) :
    readExpr (.node ℓ.rule span (first :: rest)) = readExpr first >>= fun e => readChain e rest := by
  cases h <;> rfl

end Level

variable {style} {ks mid rest : List Token} {e e' l r : Surface} {ℓ : Level}

theorem EndsBelow.mono {ℓ' : Level} (h : EndsBelow ℓ ks) (hle : ℓ.rank ≤ ℓ'.rank) : EndsBelow ℓ' ks := by
  rcases h.cases with rfl | ⟨rest, rfl⟩ | ⟨op, rest, rfl, hlt⟩
  · trivial
  · trivial
  · exact Nat.lt_of_lt_of_le hlt hle

/-- No operator between operands binds as the unary ones do. -/
theorem EndsBelow.of_power (h : EndsBelow .power ks) : EndsBelow .unary ks := by
  rcases h.cases with rfl | ⟨rest, rfl⟩ | ⟨op, rest, rfl, hlt⟩
  · trivial
  · trivial
  · show op.level.rank < Level.unary.rank
    cases op with
    | binary op => cases op <;> first | decide | exact absurd hlt (by decide)
    | logical op => cases op <;> decide
    | join => decide

namespace ReadsAs

theorem node {a : Rule} (h : ReadsAs style a ks e rest) (ha : grammar.mode a = .spaced) (pos : Nat) :
    ∃ span parts pos', Derives grammar .spaced (.rule a) ⟨line style ks, pos⟩
      (.matched [.node a span parts] ⟨line style rest, pos'⟩) ∧ readExpr (.node a span parts) = .ok e := by
  obtain ⟨parts, pos', hbody, hread⟩ := h pos
  exact ⟨_, parts, pos', .node ha hbody, hread _⟩

/-- A primary without suffixes. -/
theorem atom (h : ReadsPrimary style ks e rest) (hend : EndsBelow .atom rest) :
    ReadsAs style .postfix_ ks e rest := by
  intro pos
  obtain ⟨t, pos₁, hprimary, hread⟩ := h pos
  obtain ⟨pos₂, hskip⟩ := skip_tail style rest pos₁
  have hsuffixes : Derives grammar .spaced (.many (.rule .suffix)) ⟨line style rest, pos₂⟩
      (.matched [] ⟨line style rest, pos₂⟩) := none_at_line style (suffix_fails style hend)
  refine ⟨[t], pos₂, .seq (r := .matched [] _) hprimary (hskip.symm ▸ hsuffixes), fun span => ?_⟩
  show (readExpr t >>= fun e => readSuffixes e []) = _
  rw [hread]
  rfl

/-- An expression in parentheses is an atom. -/
theorem parens (h : ReadsAs style .orExpr ks e (.closing :: rest)) (hend : EndsBelow .atom rest) :
    ReadsAs style .postfix_ (.opening :: ks) e rest := by
  refine .atom (primary_parens style fun pos => ?_) hend
  obtain ⟨span, parts, pos', hor, hread⟩ := h.node rfl pos
  exact ⟨_, pos', .node rfl hor, hread⟩

/-- Operators of a level before the operand. -/
theorem unary (op : UnaryOp) (h : ReadsAs style .unary ks e rest) :
    ReadsAs style .unary (.unary op :: ks) (.unary op e) rest := by
  intro pos
  obtain ⟨span, t, ht, pos₁, hop⟩ := unaryOp_matches style op ks pos
  obtain ⟨pos₂, hskip⟩ := skip_tail style ks pos₁
  obtain ⟨parts, pos₃, hbody, hread⟩ := h pos₂
  -- the operators of the operand are read by the same repetition
  have hmore := Derives.seq_many_of_skipped hskip (skip_line style ks pos₂) hbody
  have hall := Derives.seq_many_cons (c := ⟨line style (.unary op :: ks), pos⟩)
    (by rw [skip_line]; exact hop) hmore
  refine ⟨_, pos₃, hall, fun span' => ?_⟩
  show (readUnary parts >>= fun e => pure (Expr.unary (readUnaryOp t) e)) = _
  rw [show readUnary parts = readExpr (.node .unary span' parts) from rfl, hread, ht]
  rfl

/-- A power, with a unary exponent. -/
theorem power (hbase : ReadsAs style .postfix_ ks l (.operator (.binary .pow) :: mid))
    (hexponent : ReadsAs style .unary mid r rest) : ReadsAs style .power ks (.binary .pow l r) rest := by
  intro pos
  obtain ⟨span, parts, pos₁, hleft, hreadLeft⟩ := hbase.node rfl pos
  have hpow : Infix.binary .pow ≠ .join := nofun
  obtain ⟨t, pos₂, hop, -⟩ := operator_matches style hpow mid pos₁
  obtain ⟨pos₃, hskip⟩ := skip_tail style mid pos₂
  obtain ⟨span', parts', pos₄, hright, hreadRight⟩ := hexponent.node rfl pos₃
  have htail : Derives grammar .spaced (.seq (.rule .powOp) (.rule .unary))
      ⟨line style (.operator (.binary .pow) :: mid), pos₁⟩
      (.matched [t, .node .unary span' parts'] ⟨line style rest, pos₄⟩) :=
    .seq (r := .matched _ _) hop (hskip.symm ▸ hright)
  have hbody : Derives grammar .spaced (Rule.body .power) ⟨line style ks, pos⟩
      (.matched [.node .postfix_ span parts, t, .node .unary span' parts'] ⟨line style rest, pos₄⟩) :=
    seq_at_line style hleft (.first htail)
  refine ⟨_, pos₄, hbody, fun _ => ?_⟩
  show (readExpr (.node .postfix_ span parts) >>= fun base =>
    readExpr (.node .unary span' parts') >>= fun exponent => pure (Expr.binary .pow base exponent)) = _
  rw [hreadLeft, hreadRight]
  rfl

/-- The first operand of a chain, and what the chain goes on with. -/
theorem chain (hℓ : ℓ.IsChain) (h : ReadsAs style ℓ.next.rule ks e mid)
    (hmore : Continues style ℓ mid e e' rest) : ReadsAs style ℓ.rule ks e' rest := by
  intro pos
  obtain ⟨span, parts, pos₁, hfirst, hread⟩ := h.node ℓ.next.mode_rule pos
  obtain ⟨parts', pos₂, hmany, hchain⟩ := hmore pos₁
  refine ⟨.node ℓ.next.rule span parts :: parts', pos₂, ?_, fun span' => ?_⟩
  · rw [hℓ.body]
    exact seq_at_line style hfirst hmany
  · rw [hℓ.readExpr, hread]
    exact hchain

end ReadsAs

namespace Continues

/-- The chain ends where no operator of the level follows. -/
theorem done (h : EndsBelow ℓ ks) : Continues style ℓ ks e e ks := by
  intro pos
  exact ⟨[], pos, none_at_line style (.seq_fails (operator_fails style h)), by cases ℓ <;> rfl⟩

/-- One more operator, with its right operand. -/
theorem more {op : Infix} (hop : op ≠ .join) (h : ReadsAs style op.level.next.rule ks r mid)
    (hmore : Continues style op.level mid (op.node l r) e' rest) :
    Continues style op.level (.operator op :: ks) l e' rest := by
  intro pos
  obtain ⟨t, pos₁, hoperator, hnode⟩ := operator_matches style hop ks pos
  obtain ⟨pos₂, hskip⟩ := skip_tail style ks pos₁
  obtain ⟨span, parts, pos₃, hright, hread⟩ := h.node op.level.next.mode_rule pos₂
  obtain ⟨parts', pos₄, hmany, hchain⟩ := hmore pos₃
  have hpair : Derives grammar .spaced (.seq op.level.operator (.rule op.level.next.rule))
      ⟨line style (.operator op :: ks), pos⟩
      (.matched [t, .node op.level.next.rule span parts] ⟨line style mid, pos₃⟩) :=
    .seq (r := .matched _ _) hoperator (hskip.symm ▸ hright)
  refine ⟨t :: .node op.level.next.rule span parts :: parts', pos₄,
    once_more_at_line style hpair hmany, ?_⟩
  show (readExpr (.node op.level.next.rule span parts) >>= fun right =>
    readChain (combine t l right) parts') = _
  rw [hread]
  show readChain (combine t l r) parts' = _
  rw [hnode]
  exact hchain

end Continues

/-! ## Concatenations -/

/-- After a part of a concatenation, joints and further parts. -/
def Joins (style : Style) (ks : List Token) (es : List Surface) (rest : List Token) : Prop :=
  ∀ pos, ∃ parts pos', Derives grammar .spaced (.many (.seq (.text "++") (.rule .sum)))
    ⟨line style ks, pos⟩ (.matched parts ⟨line style rest, pos'⟩) ∧ readExprs parts = .ok es

namespace Joins

variable {es : List Surface}

theorem done (h : EndsBelow .concat ks) : Joins style ks [] ks := by
  intro pos
  exact ⟨[], pos, none_at_line style (.seq_fails (operator_fails style h)), rfl⟩

theorem more (h : ReadsAs style .sum ks e mid) (hmore : Joins style mid es rest) :
    Joins style (.operator .join :: ks) (e :: es) rest := by
  intro pos
  obtain ⟨pos₁, hjoint⟩ := join_matches style ks pos
  obtain ⟨pos₂, hskip⟩ := skip_tail style ks pos₁
  obtain ⟨span, parts, pos₃, hpart, hread⟩ := h.node rfl pos₂
  obtain ⟨parts', pos₄, hmany, hreads⟩ := hmore pos₃
  have hpair : Derives grammar .spaced (.seq (.text "++") (.rule .sum))
      ⟨line style (.operator .join :: ks), pos⟩ (.matched [.node .sum span parts] ⟨line style mid, pos₃⟩) :=
    .seq (r := .matched _ _) hjoint (hskip.symm ▸ hpart)
  refine ⟨.node .sum span parts :: parts', pos₄, once_more_at_line style hpair hmany, ?_⟩
  show (readExpr (.node .sum span parts) >>= fun e => readExprs parts' >>= fun es => pure (e :: es)) = _
  rw [hread, hreads]
  rfl

end Joins

/-- At least two parts are one concatenation. -/
theorem ReadsAs.concat {second : Surface} {more : List Surface} (h : ReadsAs style .sum ks e mid)
    (hmore : Joins style mid (second :: more) rest) :
    ReadsAs style .concat ks (.concat (e :: second :: more)) rest := by
  intro pos
  obtain ⟨span, parts, pos₁, hfirst, hread⟩ := h.node rfl pos
  obtain ⟨parts', pos₂, hmany, hreads⟩ := hmore pos₁
  have hbody : Derives grammar .spaced (Rule.body .concat) ⟨line style ks, pos⟩
      (.matched (.node .sum span parts :: parts') ⟨line style rest, pos₂⟩) :=
    seq_at_line style hfirst hmany
  refine ⟨_, pos₂, hbody, fun span' => ?_⟩
  -- a single part would be read as itself
  cases parts' with
  | nil => cases hreads
  | cons t ts =>
    show (readExprs (.node .sum span parts :: t :: ts) >>= fun es => pure (Expr.concat es)) = _
    rw [readExprs, hread, hreads]
    rfl

/-! ## From tight to loose -/

namespace ReadsAs

/-- One part is no concatenation. -/
theorem onePart (h : ReadsAs style .sum ks e rest) (hend : EndsBelow .concat rest) :
    ReadsAs style .concat ks e rest := by
  intro pos
  obtain ⟨span, parts, pos₁, hfirst, hread⟩ := h.node rfl pos
  have hmany : Derives grammar .spaced (.many (.seq (.text "++") (.rule .sum))) ⟨line style rest, pos₁⟩
      (.matched [] ⟨line style rest, pos₁⟩) := none_at_line style (.seq_fails (operator_fails style hend))
  exact ⟨_, pos₁, seq_at_line style hfirst hmany, fun _ => hread⟩

/-- No operator stands before the operand. -/
theorem noUnary (h : ReadsAs style .power ks e rest) (hatom : BeginsAtom ks) :
    ReadsAs style .unary ks e rest := by
  intro pos
  obtain ⟨span, parts, pos₁, hpower, hread⟩ := h.node rfl pos
  have hmany : Derives grammar .spaced (.many (.rule .unaryOp)) ⟨line style ks, pos⟩
      (.matched [] ⟨line style ks, pos⟩) := none_at_line style (unaryOp_fails style hatom)
  exact ⟨[.node .power span parts], pos₁, seq_at_line style hmany hpower, fun _ => hread⟩

/-- No exponent follows. -/
theorem noExponent (h : ReadsAs style .postfix_ ks e rest) (hend : EndsBelow .power rest) :
    ReadsAs style .power ks e rest := by
  intro pos
  obtain ⟨span, parts, pos₁, hbase, hread⟩ := h.node rfl pos
  have hnone : Derives grammar .spaced (.optional (.seq (.rule .powOp) (.rule .unary)))
      ⟨line style rest, pos₁⟩ (.matched [] ⟨line style rest, pos₁⟩) :=
    .second (.seq_fails (operator_fails style hend)) .empty
  exact ⟨_, pos₁, seq_at_line style hbase hnone, fun _ => hread⟩

/-- What the rule of the next tighter level reads, the rule of the level reads too when none of its
operators follows. -/
theorem loosen (h : ReadsAs style ℓ.next.rule ks e rest) (hend : EndsBelow ℓ rest)
    (hatom : ℓ = .unary → BeginsAtom ks) : ReadsAs style ℓ.rule ks e rest := by
  cases ℓ with
  | or => exact .chain .or h (.done hend)
  | and => exact .chain .and h (.done hend)
  | equality => exact .chain .equality h (.done hend)
  | comparison => exact .chain .comparison h (.done hend)
  | concat => exact .onePart h hend
  | sum => exact .chain .sum h (.done hend)
  | product => exact .chain .product h (.done hend)
  | unary => exact .noUnary h (hatom rfl)
  | power => exact .noExponent h hend
  | atom => exact h

end ReadsAs

namespace Level

theorem rank_le_atom (ℓ : Level) : ℓ.rank ≤ atom.rank := by
  cases ℓ <;> decide

theorem rank_next (h : ℓ ≠ .atom) : ℓ.next.rank = ℓ.rank + 1 := by
  cases ℓ <;> first | exact absurd rfl h | rfl

theorem rank_inj {ℓ ℓ' : Level} (h : ℓ.rank = ℓ'.rank) : ℓ = ℓ' := by
  cases ℓ <;> cases ℓ' <;> first | rfl | exact absurd h (by decide)

end Level

/-- From a tight level to any looser one. -/
theorem ReadsAs.loosen_to {ℓ' : Level} (hle : ℓ.rank ≤ ℓ'.rank) (h : ReadsAs style ℓ'.rule ks e rest)
    (hend : EndsBelow ℓ rest) (hatom : Level.unary.rank < ℓ'.rank → BeginsAtom ks) :
    ReadsAs style ℓ.rule ks e rest := by
  generalize hd : ℓ'.rank - ℓ.rank = d
  -- one level at a time, from the tight end
  induction d generalizing ℓ with
  | zero =>
    have heq : ℓ = ℓ' := Level.rank_inj (by omega)
    rw [heq]
    exact h
  | succ d ih =>
    have hlt : ℓ.rank < ℓ'.rank := by omega
    have hne : ℓ ≠ .atom := by
      intro heq
      rw [heq] at hlt
      exact absurd (ℓ'.rank_le_atom) (by omega)
    have hnext := Level.rank_next hne
    refine .loosen (ih (by omega) (hend.mono (by omega)) (by omega)) hend ?_
    intro heq
    rw [heq] at hlt
    exact hatom hlt

/-! ## How formulas begin -/

namespace Formula

theorem endsBelow_atom (op : Infix) (ks : List Token) : EndsBelow .atom (.operator op :: ks) := by
  show op.level.rank < Level.atom.rank
  cases op with
  | binary op => cases op <;> decide
  | logical op => cases op <;> decide
  | join => decide

/-- In its place, a formula begins as it does or with a parenthesis. -/
theorem placed_cases (demanded : Level) (f : Formula) :
    (demanded.rank ≤ f.level.rank ∧ f.placed demanded = f.tokens) ∨
    (f.level.rank < demanded.rank ∧ f.placed demanded = .opening :: (f.tokens ++ [.closing])) := by
  unfold placed enclose
  split
  · case isTrue h => exact .inl ⟨h, rfl⟩
  · case isFalse h => exact .inr ⟨Nat.lt_of_not_le h, rfl⟩

/-- A formula begins as an operand, without an operator in front if it is a power or an atom. -/
def Begins (ks : List Token) (level : Level) : Prop :=
  ∀ rest, EndsBelow .atom rest →
    BeginsOperand (ks ++ rest) ∧ (Level.unary.rank < level.rank → BeginsAtom (ks ++ rest))

theorem begins_placed {f : Formula} (h : Begins f.tokens f.level) (demanded : Level) :
    Begins (f.placed demanded) demanded := by
  intro rest hend
  rcases f.placed_cases demanded with ⟨hle, heq⟩ | ⟨-, heq⟩
  · rw [heq]
    exact ⟨(h rest hend).1, fun hlt => (h rest hend).2 (Nat.lt_of_lt_of_le hlt hle)⟩
  · rw [heq]
    exact ⟨trivial, fun _ => trivial⟩

/-- The beginning of two operands is that of the left one. -/
theorem begins_operands (op : Infix) {left : List Token} (h : Begins left op.left) (right : List Token) :
    Begins (left ++ .operator op :: right) op.level := by
  intro rest hend
  rw [List.append_assoc, List.cons_append]
  have hleft := h (.operator op :: (right ++ rest)) (endsBelow_atom op _)
  refine ⟨hleft.1, fun hlt => hleft.2 ?_⟩
  cases op with
  | binary op => cases op <;> first | exact hlt | decide
  | logical op => cases op <;> exact hlt
  | join => exact Nat.lt_succ_of_lt hlt

theorem begins_tokens (f : Formula) : Begins f.tokens f.level := by
  induction f using Formula.induct with
  | number n => exact fun rest _ => ⟨trivial, fun _ => trivial⟩
  | name x => exact fun rest hend => ⟨hend, fun _ => hend⟩
  | unary op f _ => exact fun rest _ => ⟨trivial, fun hlt => absurd hlt (Nat.lt_irrefl _)⟩
  | binary op l r ihl _ => exact begins_operands (.binary op) (begins_placed ihl _) _
  | logical op l r ihl _ => exact begins_operands (.logical op) (begins_placed ihl _) _
  | concat first second more ihfirst _ _ => exact begins_operands .join (begins_placed ihfirst _) _

end Formula

/-! ## Every formula can be read -/

/-- Where a level is demanded, the formula is read by the rule of the level. At a level whose operators
group to the left, it is also read as the left operand of what follows. -/
structure Parsable (style : Style) (f : Formula) : Prop where
  reads : ∀ demanded rest, EndsBelow demanded rest →
    ReadsAs style demanded.rule (f.placed demanded ++ rest) f.tree rest
  continues : ∀ ℓ, ℓ.IsChain → ∀ mid e' rest, EndsBelow ℓ.next mid →
    Continues style ℓ mid f.tree e' rest → ReadsAs style ℓ.rule (f.placed ℓ ++ mid) e' rest

namespace Parsable

variable {f left right : Formula}

/-- It is enough to know how the formula is read at its own level. -/
theorem of_own
    (hown : ∀ rest, EndsBelow f.level rest → ReadsAs style f.level.rule (f.tokens ++ rest) f.tree rest)
    (hchain : f.level.IsChain → ∀ mid e' rest, EndsBelow f.level.next mid →
      Continues style f.level mid f.tree e' rest → ReadsAs style f.level.rule (f.tokens ++ mid) e' rest) :
    Parsable style f := by
  have hreads : ∀ demanded rest, EndsBelow demanded rest →
      ReadsAs style demanded.rule (f.placed demanded ++ rest) f.tree rest := by
    intro demanded rest hend
    rcases f.placed_cases demanded with ⟨hle, heq⟩ | ⟨-, heq⟩
    · rw [heq]
      exact .loosen_to hle (hown rest (hend.mono hle)) hend
        (f.begins_tokens rest (hend.mono demanded.rank_le_atom)).2
    · -- in parentheses any formula will do, and what they enclose is an atom
      rw [heq, List.cons_append, List.append_assoc]
      have hclosing : ∀ ℓ, EndsBelow ℓ (.closing :: rest) := fun _ => trivial
      have hinner : ReadsAs style Level.or.rule (f.tokens ++ .closing :: rest) f.tree (.closing :: rest) :=
        .loosen_to (Nat.zero_le _) (hown _ (hclosing _)) (hclosing _)
          (f.begins_tokens _ (hclosing _)).2
      have hatom : ReadsAs style Level.atom.rule (.opening :: (f.tokens ++ .closing :: rest)) f.tree rest :=
        .parens hinner (hend.mono demanded.rank_le_atom)
      exact .loosen_to demanded.rank_le_atom hatom hend fun _ => trivial
  refine ⟨hreads, ?_⟩
  intro ℓ hℓ mid e' rest hend hmore
  by_cases heq : f.level = ℓ
  · subst heq
    rcases f.placed_cases f.level with ⟨-, htokens⟩ | ⟨hlt, -⟩
    · rw [htokens]
      exact hchain hℓ mid e' rest hend hmore
    · exact absurd hlt (Nat.lt_irrefl _)
  · -- a formula of another level stands in parentheses here when it does at the next tighter level
    have hplaced : f.placed ℓ = f.placed ℓ.next := by
      have hne : f.level.rank ≠ ℓ.rank := fun h => heq (Level.rank_inj h)
      have hnext : ℓ.next.rank = ℓ.rank + 1 := Level.rank_next (by rintro rfl; cases hℓ)
      unfold Formula.placed Formula.enclose
      rw [hnext]
      simp only [show (ℓ.rank ≤ f.level.rank) = (ℓ.rank + 1 ≤ f.level.rank) from
        propext ⟨fun h => by omega, fun h => by omega⟩]
    rw [hplaced]
    exact .chain hℓ (hreads ℓ.next mid hend) hmore

/-- Two operands of an operator that groups to the left. -/
theorem grouped {op : Infix} (hop : op.level.IsChain) (hlevel : f.level = op.level)
    (htokens : f.tokens = left.placed op.left ++ .operator op :: right.placed op.right)
    (htree : f.tree = op.node left.tree right.tree) (hleft : Parsable style left)
    (hright : Parsable style right) : Parsable style f := by
  have hjoin : op ≠ .join := by
    rintro rfl
    cases hop
  have hsides : op.left = op.level ∧ op.right = op.level.next := by
    cases op with
    | binary op => cases op <;> first | exact ⟨rfl, rfl⟩ | cases hop
    | logical op => exact ⟨rfl, rfl⟩
    | join => exact absurd rfl hjoin
  have hlt : op.level.rank < op.level.next.rank := by
    rw [Level.rank_next (by intro h; rw [h] at hop; cases hop)]
    exact Nat.lt_succ_self _
  have hcontinues : ∀ mid e' rest, EndsBelow op.level.next mid →
      Continues style op.level mid f.tree e' rest → ReadsAs style op.level.rule (f.tokens ++ mid) e' rest := by
    intro mid e' rest hend hmore
    rw [htree] at hmore
    rw [htokens, hsides.1, hsides.2, List.append_assoc, List.cons_append]
    exact hleft.continues op.level hop _ e' rest hlt (.more hjoin (hright.reads _ mid hend) hmore)
  refine .of_own ?_ ?_
  · intro rest hend
    rw [hlevel] at hend ⊢
    exact hcontinues rest _ rest (hend.mono (Nat.le_of_lt hlt)) (.done hend)
  · intro _ mid e' rest hend hmore
    rw [hlevel] at hend hmore ⊢
    exact hcontinues mid e' rest hend hmore

/-- A power groups to the right: its exponent may be a power. -/
theorem power (hleft : Parsable style left) (hright : Parsable style right) :
    Parsable style (.binary .pow left right) := by
  refine .of_own (fun rest hend => ?_) nofun
  have hunary : EndsBelow .unary rest := .of_power hend
  have hbase := hleft.reads .atom (.operator (.binary .pow) :: (right.placed .unary ++ rest))
    (Formula.endsBelow_atom _ _)
  show ReadsAs style .power ((left.placed .atom ++ .operator (.binary .pow) :: right.placed .unary) ++ rest)
    (.binary .pow left.tree right.tree) rest
  rw [List.append_assoc, List.cons_append]
  exact .power hbase (hright.reads .unary rest hunary)

/-- The parts of a concatenation, each after its joint. -/
theorem joins {fs : List Formula} (hfs : ∀ f ∈ fs, Parsable style f) {rest : List Token}
    (hend : EndsBelow .concat rest) :
    Joins style (Formula.joinedTokens fs ++ rest) (Formula.trees fs) rest ∧
      EndsBelow .sum (Formula.joinedTokens fs ++ rest) := by
  induction fs with
  | nil => exact ⟨.done hend, hend.mono (by decide)⟩
  | cons f fs ih =>
    obtain ⟨hjoins, hends⟩ := ih fun f' hf' => hfs f' (List.mem_cons_of_mem f hf')
    refine ⟨?_, (by decide : Level.concat.rank < Level.sum.rank)⟩
    show Joins style (.operator .join :: (f.placed .sum ++ Formula.joinedTokens fs) ++ rest)
      (f.tree :: Formula.trees fs) rest
    rw [List.cons_append, List.append_assoc]
    exact .more ((hfs f List.mem_cons_self).reads .sum _ hends) hjoins

theorem concat {more : List Formula} (hleft : Parsable style left) (hright : Parsable style right)
    (hmore : ∀ f ∈ more, Parsable style f) : Parsable style (.concat left right more) := by
  refine .of_own (fun rest hend => ?_) nofun
  obtain ⟨hjoins, hends⟩ := joins (List.forall_mem_cons.mpr ⟨hright, hmore⟩) hend
  show ReadsAs style .concat ((left.placed .sum ++ Formula.joinedTokens (right :: more)) ++ rest)
    (.concat (left.tree :: right.tree :: Formula.trees more)) rest
  rw [List.append_assoc]
  exact .concat (hleft.reads .sum _ hends) hjoins

end Parsable

theorem parsable (style : Style) (f : Formula) : Parsable style f := by
  induction f using Formula.induct with
  | number n => exact .of_own (fun rest hend => .atom (primary_number style n rest) hend) nofun
  | name x => exact .of_own (fun rest hend => .atom (primary_name style x hend) hend) nofun
  | unary op f ih => exact .of_own (fun rest hend => .unary op (ih.reads .unary rest hend)) nofun
  | binary op l r ihl ihr =>
    rcases Level.isChain_or_pow op with hop | rfl
    · exact .grouped hop rfl rfl rfl ihl ihr
    · exact .power ihl ihr
  | logical op l r ihl ihr =>
    have hop : (Infix.logical op).level.IsChain := by
      cases op
      · exact .and
      · exact .or
    exact .grouped hop rfl rfl rfl ihl ihr
  | concat first second more ihfirst ihsecond ihmore => exact .concat ihfirst ihsecond ihmore

/-! ## The theorem -/

/-- A row that is one expression is a program of one statement. -/
theorem parse_of_expression (hbegins : BeginsOperand ks) (h : ReadsAs style .orExpr ks e []) :
    parseChars (line style ks) = .ok [e] := by
  obtain ⟨span, parts, pos, hor, hread⟩ := h.node rfl 0
  have hexpression := Derives.node (a := Rule.expression) rfl hor
  have hstatement := Derives.node (a := Rule.statement) rfl (statement_at_operand style hbegins hexpression)
  generalize hs : ParseTree.node Rule.statement _ _ = s at hstatement
  have hreadStatement : readExpr s = .ok e := by
    rw [← hs]
    exact hread
  have hsemicolon : Derives grammar .spaced (.text ";") ⟨line style ks, 0⟩ .failed :=
    text_at_operand style hbegins (by decide : ";".toList = [';']) (by decide) (by decide)
  obtain ⟨t, ts, next, hfile, hreadFile⟩ := file_of_statement (skip_line style ks 0) hsemicolon hstatement
  refine parseChars_of_derives hfile ?_
  rw [hreadFile, readExprs, hreadStatement]
  rfl

/-- **Precedence**: a formula that is written with parentheses only where the levels demand them is parsed
into one expression, the formula itself, in whichever way its operators are spelled. -/
theorem parse_text (style : Style) (f : Formula) : parse (f.text style) = .ok [f.tree] := by
  unfold parse
  rw [f.toList_text]
  have hreads := (parsable style f).reads .or [] trivial
  have hplaced : f.placed .or = f.tokens := by
    rcases f.placed_cases .or with ⟨-, heq⟩ | ⟨hlt, -⟩
    · exact heq
    · exact absurd hlt (Nat.not_lt_zero _)
  rw [hplaced, List.append_nil] at hreads
  have hbegins := (f.begins_tokens [] trivial).1
  rw [List.append_nil] at hbegins
  exact parse_of_expression hbegins hreads

end ExactScript.Source
