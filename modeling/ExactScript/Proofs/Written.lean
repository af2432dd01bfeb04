import ExactScript.Proofs.Derivations
import ExactScript.Proofs.Linking
import ExactScript.Proofs.Placement
import ExactScript.Source.Parse

/-!
# What can be written

Not every tree is the tree of a source text. In text, declarations and function definitions are statements and
never operands, which the grammar says by its rules. An element that is set belongs to a variable, or to an
element of one, since the grammar has nothing but a name before the keys. And every number is one that digits
spell. All of this is followed from the rules to the trees that are read, in one walk through the reader.

## Contents
* `Expr.Written`, what a node of a source text is, and `Expr.Legible`, the same of all nodes of a tree;
* `Expr.Textual` and `Expr.Operand`, the trees of statements and of operands;
* `Grammar.Conforms`, a tree whose parts are those that its rules mention, and `conforms_of_derives`;
* `Reads`, and `readable`, the trees that the reader builds;
* `placed_of_parse` and `legible_of_parse`, the trees of source text.
-/

namespace ExactScript

namespace Expr

/-- What the node itself has to satisfy. -/
def Written : Expr String → Prop
  | literal (.num n) => ∃ digits, n = Source.readNumber digits
  | put target _ _ => target.IsPlace
  | _ => True

/-- Every node of the tree can be written. -/
def Legible (e : Expr String) : Prop := e.Everywhere Written

variable {e : Expr String}

theorem Legible.of_children (h : e.Written) (hc : ∀ c ∈ e.children, c.Legible) : e.Legible :=
  everywhere_iff.mpr ⟨h, hc⟩

/-- Every element that is set belongs to a place. -/
theorem Legible.assignable (h : e.Legible) : e.Assignable := by
  intro t ht
  have hwritten := h t ht
  cases t with
  | put => exact hwritten
  | _ => trivial

/-- A tree that text can have as a statement. -/
structure Textual (e : Expr String) : Prop where
  placed : e.Placed
  legible : e.Legible

/-- A tree that text can have as an operand. -/
structure Operand (e : Expr String) : Prop extends Textual e where
  not_declaration : ¬e.IsDeclaration

theorem Operand.plain (h : e.Operand) : e.Plain := ⟨h.placed, h.not_declaration⟩

theorem Textual.of_parts (hw : e.Written) (hoperands : ∀ c ∈ e.operands, c.Operand)
    (hstatements : ∀ c ∈ e.statements, c.Textual) : e.Textual where
  placed := .of_parts (fun c hc => (hoperands c hc).plain) fun c hc => (hstatements c hc).placed
  legible := .of_children hw fun c hc => (mem_children.mp hc).elim
    (fun hc => (hoperands c hc).legible) fun hc => (hstatements c hc).legible

/-- A node without statements of its own, over operands. -/
theorem Operand.of_operands (hw : e.Written) (hd : ¬e.IsDeclaration) (hs : e.statements = [])
    (h : ∀ c ∈ e.operands, c.Operand) : e.Operand :=
  ⟨.of_parts hw h (by rw [hs]; simp), hd⟩

end Expr

/-! ## Trees of a grammar -/

namespace Peg

variable {ρ : Type}

/-- The rules whose trees a match of the pattern gives. -/
def Pattern.rules : Pattern ρ → List ρ
  | empty => []
  | text _ => []
  | char _ => []
  | seq first second => first.rules ++ second.rules
  | choice first second => first.rules ++ second.rules
  | many p => p.rules
  | ahead _ => []
  | notAhead _ => []
  | rule r => [r]

def ParseTree.rule : ParseTree ρ → ρ
  | leaf r _ _ => r
  | node r _ _ => r

def ParseTree.parts : ParseTree ρ → List (ParseTree ρ)
  | leaf _ _ _ => []
  | node _ _ parts => parts

theorem sizeOf_lt_of_mem_parts [SizeOf ρ] {t u : ParseTree ρ} (h : u ∈ t.parts) : sizeOf u < sizeOf t := by
  cases t with
  | leaf => cases h
  | node r span parts =>
    have hmem : sizeOf u < sizeOf parts := List.sizeOf_lt_of_mem h
    simp only [ParseTree.node.sizeOf_spec]
    omega

/-- The parts of every node are of rules that its own rule mentions. -/
inductive Grammar.Conforms (g : Grammar ρ) : ParseTree ρ → Prop
  | leaf (r : ρ) (span : Span) (t : List Char) : g.Conforms (.leaf r span t)
  | node {r : ρ} {span : Span} {parts : List (ParseTree ρ)}
      (hrules : ∀ t ∈ parts, t.rule ∈ (g.body r).rules) (hparts : ∀ t ∈ parts, g.Conforms t) :
      g.Conforms (.node r span parts)

variable {g : Grammar ρ} {t u : ParseTree ρ}

theorem Grammar.Conforms.rule_mem (h : g.Conforms t) (hu : u ∈ t.parts) : u.rule ∈ (g.body t.rule).rules := by
  cases h with
  | leaf => cases hu
  | node hrules _ => exact hrules u hu

theorem Grammar.Conforms.part (h : g.Conforms t) (hu : u ∈ t.parts) : g.Conforms u := by
  cases h with
  | leaf => cases hu
  | node _ hparts => exact hparts u hu

/-- **Matches give conforming trees**, of rules that the pattern mentions. -/
theorem conforms_of_derives {mode : Mode} {p : Pattern ρ} {c next : Cursor} {r : Reply ρ}
    {ts : List (ParseTree ρ)} (h : Derives g mode p c r) (hr : r = .matched ts next) :
    ∀ t ∈ ts, t.rule ∈ p.rules ∧ g.Conforms t := by
  induction h generalizing ts next with
  | empty | text _ | char _ | no_more _ _ | ahead _ _ | notAhead _ _ =>
    cases hr
    exact fun t ht => nomatch ht
  | seq hp hq ihp ihq =>
    obtain ⟨vs, rfl, rfl⟩ := Reply.matched_of_withTrees hr
    intro t ht
    rcases List.mem_append.mp ht with ht | ht
    · exact ⟨List.mem_append_left _ (ihp rfl t ht).1, (ihp rfl t ht).2⟩
    · exact ⟨List.mem_append_right _ (ihq rfl t ht).1, (ihq rfl t ht).2⟩
  | first hp ih =>
    intro t ht
    exact ⟨List.mem_append_left _ (ih hr t ht).1, (ih hr t ht).2⟩
  | second hp hq ihp ihq =>
    intro t ht
    exact ⟨List.mem_append_right _ (ihq hr t ht).1, (ihq hr t ht).2⟩
  | once_more hp hmore ihp ihmore =>
    obtain ⟨vs, rfl, rfl⟩ := Reply.matched_of_withTrees hr
    intro t ht
    rcases List.mem_append.mp ht with ht | ht
    · exact ihp rfl t ht
    · exact ihmore rfl t ht
  | rule h ih =>
    cases hr
    intro t ht
    unfold Grammar.ruleTrees at ht
    split at ht
    · obtain rfl := List.mem_singleton.mp ht
      unfold Grammar.treeOf
      split
      · exact ⟨List.mem_singleton.mpr rfl, .leaf ..⟩
      · exact ⟨List.mem_singleton.mpr rfl,
          .node (fun t ht => (ih rfl t ht).1) fun t ht => (ih rfl t ht).2⟩
    · cases ht
  | text_fails _ | char_fails _ | seq_fails _ _ | ahead_fails _ _ | notAhead_fails _ _ | rule_fails _ _ =>
    cases hr

end Peg

/-! ## Rules without declarations -/

namespace Source

open Peg

/-- Trees of the rule are read as what may be an operand. -/
def Rule.Quiet (r : Rule) : Prop := r ≠ statement ∧ r ≠ declaration ∧ r ≠ functionDef

instance : DecidablePred Rule.Quiet := fun r =>
  inferInstanceAs (Decidable (r ≠ .statement ∧ r ≠ .declaration ∧ r ≠ .functionDef))

/-- So are all parts of trees of the rule. -/
def Rule.Calm (r : Rule) : Prop := ∀ c ∈ (Rule.body r).rules, c.Quiet

instance : DecidablePred Rule.Calm := fun r =>
  inferInstanceAs (Decidable (∀ c ∈ (Rule.body r).rules, c.Quiet))

/-- A tree that is read as what may be an operand. -/
structure Tame (t : ParseTree Rule) : Prop where
  conforms : grammar.Conforms t
  quiet : t.rule.Quiet

/-- The trees of the operands that a suffix mentions. -/
def suffixOperands : ParseTree Rule → List (ParseTree Rule)
  | .node _ _ [.node .method _ [_, .node _ _ args]] => args
  | .node _ _ [.node .slice _ bounds] => bounds
  | .node _ _ [.node .index _ key] => key
  | _ => []

section Conforms

variable {r : Rule} {span : Span} {parts : List (ParseTree Rule)} {q t u : ParseTree Rule}

theorem tame_of_calm (h : grammar.Conforms t) (hr : t.rule.Calm) : ∀ u ∈ t.parts, Tame u :=
  fun _ hu => ⟨h.part hu, hr _ (h.rule_mem hu)⟩

theorem tame_parts (h : grammar.Conforms (.node r span parts)) (hr : r.Calm) : ∀ u ∈ parts, Tame u :=
  tame_of_calm h hr

/-- Parts of a part. -/
theorem tame_inner (h : grammar.Conforms (.node r span parts)) (hr : ∀ s ∈ (Rule.body r).rules, s.Calm)
    (hq : q ∈ parts) : ∀ u ∈ q.parts, Tame u :=
  tame_of_calm (h.part hq) (hr _ (h.rule_mem hq))

theorem tame_of_mem_suffixOperands (h : grammar.Conforms t) (hu : u ∈ suffixOperands t) : Tame u := by
  unfold suffixOperands at hu
  split at hu
  · have hmethod := h.part List.mem_cons_self
    exact tame_inner hmethod (by decide) (List.mem_cons_of_mem _ List.mem_cons_self) u hu
  · exact tame_parts (h.part List.mem_cons_self) (by decide) u hu
  · exact tame_parts (h.part List.mem_cons_self) (by decide) u hu
  · cases hu

theorem sizeOf_lt_of_mem_suffixOperands (hu : u ∈ suffixOperands t) : sizeOf u < sizeOf t := by
  unfold suffixOperands at hu
  split at hu
  iterate 3
    · have hmem := List.sizeOf_lt_of_mem hu
      simp only [ParseTree.node.sizeOf_spec, List.cons.sizeOf_spec]
      omega
  · cases hu

end Conforms

/-! ## Reading -/

/-- What is read satisfies `P`. -/
def Reads {α : Type} (P : α → Prop) (r : Reading α) : Prop := ∀ a, r = .ok a → P a

namespace Reads

variable {α β : Type} {P : α → Prop} {Q : β → Prop}

theorem ok {a : α} (h : P a) : Reads P (.ok a) := by
  intro b hb
  cases hb
  exact h

theorem error {f : Fault} : Reads P (.error f) := fun _ h => by cases h

theorem bind {m : Reading α} {k : α → Reading β} (h : Reads P m) (hk : ∀ a, P a → Reads Q (k a)) :
    Reads Q (m >>= k) := by
  cases m with
  | ok a => exact hk a (h a rfl)
  | error f => exact .error

theorem imp {P' : α → Prop} {m : Reading α} (h : Reads P m) (hP : ∀ a, P a → P' a) : Reads P' m :=
  fun a ha => hP a (h a ha)

theorem located {span : Span} {m : Except Problem α} (h : ∀ a, m = .ok a → P a) :
    Reads P (located span m) := by
  cases m with
  | ok a => exact .ok (h a rfl)
  | error p => exact .error

end Reads

/-- What may be an operand may stand anywhere. -/
theorem Reads.of_operand {m : Reading Surface} {P : Prop} (h : Reads Expr.Operand m) :
    Reads (fun e => e.Textual ∧ (P → ¬e.IsDeclaration)) m :=
  h.imp fun _ he => ⟨he.toTextual, fun _ => he.not_declaration⟩

theorem operand_var (x : String) : (Expr.var x).Operand :=
  .of_operands trivial id rfl (by simp [Expr.operands, Expr.children])

theorem operand_combine {op : ParseTree Rule} {l r : Surface} (hl : l.Operand) (hr : r.Operand) :
    (combine op l r).Operand := by
  unfold combine
  split <;> exact .of_operands trivial id rfl (by simp [Expr.operands, Expr.children, hl, hr])

/-- An element of an element is indexed down to the place whose element is set. -/
theorem operand_putAt {target value : Surface} {keys : List Surface} (hplace : target.IsPlace)
    (ht : target.Operand) (hv : value.Operand) (hk : ∀ k ∈ keys, k.Operand) :
    (putAt target value keys).Operand := by
  induction keys generalizing target with
  | nil => exact ht
  | cons key keys ih =>
    obtain ⟨hkey, hkeys⟩ := List.forall_mem_cons.mp hk
    cases keys with
    | nil =>
      have hput : (Expr.put target key value).Operand :=
        .of_operands hplace id rfl (by simp [Expr.operands, Expr.children, ht, hkey, hv])
      exact hput
    | cons other keys =>
      have hindex : (Expr.index target key).Operand :=
        .of_operands trivial id rfl (by simp [Expr.operands, Expr.children, ht, hkey])
      exact ih hplace hindex hkeys

theorem operand_applyMethod {target e : Surface} {name : String} {args : Option (List Surface)}
    (h : applyMethod target name args = .ok e) (ht : target.Operand)
    (ha : ∀ es ∈ args, ∀ a ∈ es, a.Operand) : e.Operand := by
  have hquery : ∀ op, (Expr.query op target).Operand := fun _ =>
    .of_operands trivial id rfl (by simp [Expr.operands, Expr.children, ht])
  unfold applyMethod at h
  split at h
  · split at h
    · cases h
      exact hquery _
    · cases h
      exact hquery _
    · cases h
  · split at h
    · cases h
    · split at h
      · next arg =>
        cases h
        have harg := ha [arg] rfl arg (by simp)
        exact .of_operands trivial id rfl (by simp [Expr.operands, Expr.children, ht, harg])
      · cases h

section Lists

/- What is read of the parts is a hypothesis here: the parts are smaller than the tree that they belong to. -/
variable {ts : List (ParseTree Rule)}

/-- Trees in a row are read one by one. -/
theorem reads_readExprs {P : Surface → Prop} (h : ∀ t ∈ ts, Reads P (readExpr t)) :
    Reads (fun es => ∀ e ∈ es, P e) (readExprs ts) := by
  induction ts with
  | nil => exact .ok (by simp)
  | cons t ts ih =>
    obtain ⟨ht, hts⟩ := List.forall_mem_cons.mp h
    exact ht.bind fun e he => (ih hts).bind fun es hes => .ok (List.forall_mem_cons.mpr ⟨he, hes⟩)

theorem operand_readChain {left : Surface} {rest : List (ParseTree Rule)} (hl : left.Operand)
    (h : ∀ t ∈ rest, Reads Expr.Operand (readExpr t)) : Reads Expr.Operand (readChain left rest) := by
  match rest, h with
  | [], _ => exact .ok hl
  | [_], _ => exact .ok hl
  | op :: operand :: rest, h =>
    obtain ⟨-, h⟩ := List.forall_mem_cons.mp h
    obtain ⟨hoperand, hrest⟩ := List.forall_mem_cons.mp h
    exact hoperand.bind fun r hr => operand_readChain (operand_combine hl hr) hrest

theorem operand_readUnary (h : ∀ t ∈ ts, Reads Expr.Operand (readExpr t)) :
    Reads Expr.Operand (readUnary ts) := by
  induction ts with
  | nil => exact .error
  | cons t ts ih =>
    obtain ⟨ht, hts⟩ := List.forall_mem_cons.mp h
    cases t with
    | leaf r span t =>
      exact (ih hts).bind fun e he =>
        .ok (.of_operands trivial id rfl (by simp [Expr.operands, Expr.children, he]))
    | node r span us => exact ht

theorem operand_readSuffixes {target : Surface} (ht : target.Operand)
    (h : ∀ t ∈ ts, ∀ u ∈ suffixOperands t, Reads Expr.Operand (readExpr u)) :
    Reads Expr.Operand (readSuffixes target ts) := by
  induction ts generalizing target with
  | nil => exact .ok ht
  | cons t ts ih =>
    obtain ⟨hparts, hts⟩ := List.forall_mem_cons.mp h
    unfold readSuffixes
    split
    · next heq => cases heq
    · next heq =>
      cases heq
      exact .bind (.located fun e he => operand_applyMethod he ht (by simp)) fun e he => ih he hts
    · next heq =>
      cases heq
      refine (reads_readExprs hparts).bind fun args ha => ?_
      refine .bind (.located fun e he => operand_applyMethod he ht ?_) fun e he => ih he hts
      rintro es ⟨rfl⟩
      exact ha
    · next heq =>
      cases heq
      refine (hparts _ (by simp [suffixOperands])).bind fun e₁ h₁ =>
        (hparts _ (by simp [suffixOperands])).bind fun e₂ h₂ => ih ?_ hts
      exact .of_operands trivial id rfl (by simp [Expr.operands, Expr.children, ht, h₁, h₂])
    · next heq =>
      cases heq
      refine (hparts _ (by simp [suffixOperands])).bind fun e₁ h₁ =>
        (hparts _ (by simp [suffixOperands])).bind fun e₂ h₂ =>
          (hparts _ (by simp [suffixOperands])).bind fun e₃ h₃ => ih ?_ hts
      exact .of_operands trivial id rfl (by simp [Expr.operands, Expr.children, ht, h₁, h₂, h₃])
    · next heq =>
      cases heq
      refine (hparts _ (by simp [suffixOperands])).bind fun e he => ih ?_ hts
      exact .of_operands trivial id rfl (by simp [Expr.operands, Expr.children, ht, he])
    · exact .error

theorem operand_readEntries (h : ∀ t ∈ ts, ∀ u ∈ t.parts, Reads Expr.Operand (readExpr u)) :
    Reads (fun es => ∀ kv ∈ es, kv.1.Operand ∧ kv.2.Operand) (readEntries ts) := by
  induction ts with
  | nil => exact .ok (by simp)
  | cons t ts ih =>
    obtain ⟨hparts, hts⟩ := List.forall_mem_cons.mp h
    unfold readEntries
    split
    · next heq => cases heq
    · next heq =>
      cases heq
      exact (hparts _ (by simp [ParseTree.parts])).bind fun k hk =>
        (hparts _ (by simp [ParseTree.parts])).bind fun v hv =>
          (ih hts).bind fun es hes => .ok (List.forall_mem_cons.mpr ⟨⟨hk, hv⟩, hes⟩)
    · exact .error
    · exact .error

theorem operand_cond {test : Surface} {yes : List Surface} {no : Option (List Surface)} (ht : test.Operand)
    (hy : ∀ e ∈ yes, e.Textual) (hno : ∀ body ∈ no, ∀ e ∈ body, e.Textual) :
    (Expr.cond test yes no).Operand := by
  refine ⟨.of_parts trivial (by simp [Expr.operands, ht]) fun e he => ?_, id⟩
  rcases List.mem_append.mp he with h | h
  · exact hy e h
  · cases no with
    | none => cases h
    | some body => exact hno body rfl e h

theorem operand_readCond (h : ∀ t ∈ ts, Reads Expr.Operand (readExpr t))
    (hbody : ∀ t ∈ ts, ∀ u ∈ t.parts, ∀ s ∈ u.parts, Reads Expr.Textual (readExpr s)) :
    Reads Expr.Operand (readCond ts) := by
  unfold readCond
  split
  · have hyes := hbody _ (List.mem_cons_of_mem _ List.mem_cons_self) _ List.mem_cons_self
    exact (h _ (by simp)).bind fun test ht => (reads_readExprs hyes).bind fun yes hy =>
      .ok (operand_cond ht hy (by simp))
  · have hyes := hbody _ (List.mem_cons_of_mem _ List.mem_cons_self) _ List.mem_cons_self
    have hno := hbody _ (List.mem_cons_of_mem _ (List.mem_cons_of_mem _ List.mem_cons_self)) _ List.mem_cons_self
    refine (h _ (by simp)).bind fun test ht => (reads_readExprs hyes).bind fun yes hy =>
      (reads_readExprs hno).bind fun no hn => .ok (operand_cond ht hy ?_)
    rintro body ⟨rfl⟩
    exact hn
  · have hyes := hbody _ (List.mem_cons_of_mem _ List.mem_cons_self) _ List.mem_cons_self
    refine (h _ (by simp)).bind fun test ht => (reads_readExprs hyes).bind fun yes hy =>
      (h _ (by simp)).bind fun other ho => .ok (operand_cond ht hy ?_)
    rintro body ⟨rfl⟩
    simpa using ho.toTextual
  · exact .error

/-- The only put that is read has a variable before the keys. -/
theorem operand_readPut {name : String} {keys : List Surface} (hk : ∀ k ∈ keys, k.Operand)
    (h : ∀ t ∈ ts, Reads Expr.Operand (readExpr t) ∧ ∀ u ∈ t.parts, Reads Expr.Operand (readExpr u)) :
    Reads Expr.Operand (readPut name keys ts) := by
  induction ts generalizing keys with
  | nil => exact .error
  | cons t ts ih =>
    obtain ⟨⟨ht, hparts⟩, hts⟩ := List.forall_mem_cons.mp h
    unfold readPut
    split
    · next heq =>
      cases heq
      have hplace : (Expr.var name).IsPlace := trivial
      exact ht.bind fun v hv => .ok (operand_putAt hplace (operand_var name) hv hk)
    · next heq =>
      cases heq
      refine (hparts _ List.mem_cons_self).bind fun k hkey => ih ?_ hts
      exact List.forall_mem_append.mpr ⟨hk, by simpa using hkey⟩
    · exact .error

theorem textual_readFunctionBody (h : ∀ t ∈ ts, Reads Expr.Textual (readExpr t))
    (hreturn : ∀ t ∈ ts, t.rule.Calm → ∀ u ∈ t.parts, Reads Expr.Operand (readExpr u)) :
    Reads (fun b => (∀ e ∈ b.1, e.Textual) ∧ b.2.Operand) (readFunctionBody ts) := by
  induction ts with
  | nil =>
    have hunit : (Expr.block [] : Surface).Operand :=
      ⟨.of_parts trivial (by simp [Expr.operands]) (by simp [Expr.statements]), id⟩
    exact .ok ⟨by simp, hunit⟩
  | cons t ts ih =>
    obtain ⟨ht, hts⟩ := List.forall_mem_cons.mp h
    obtain ⟨hparts, hreturns⟩ := List.forall_mem_cons.mp hreturn
    have hcalm : Rule.Calm .returnStatement := by decide
    unfold readFunctionBody
    split
    · next heq => cases heq
    · next heq =>
      cases heq
      exact (hparts hcalm _ List.mem_cons_self).bind fun e he => (ih hts hreturns).bind fun b hb =>
        .ok ⟨hb.1, he⟩
    · next heq =>
      cases heq
      exact ht.bind fun e he => (ih hts hreturns).bind fun b hb =>
        .ok ⟨List.forall_mem_cons.mpr ⟨he, hb.1⟩, hb.2⟩

end Lists

/-! ## The walk -/

/-- What is read of the tree can stand in its place. -/
def Readable (t : ParseTree Rule) : Prop :=
  grammar.Conforms t → Reads (fun e => e.Textual ∧ (t.rule.Quiet → ¬e.IsDeclaration)) (readExpr t)

namespace Readable

variable {t : ParseTree Rule}

theorem textual (h : Readable t) (hc : grammar.Conforms t) : Reads Expr.Textual (readExpr t) :=
  (h hc).imp fun _ he => he.1

theorem operand (h : Readable t) (ht : Tame t) : Reads Expr.Operand (readExpr t) :=
  (h ht.conforms).imp fun _ he => ⟨he.1, he.2 ht.quiet⟩

end Readable

section Parts

variable {r : Rule} {span : Span} {parts : List (ParseTree Rule)} {p q u : ParseTree Rule}
  (ih : ∀ u, sizeOf u < sizeOf (ParseTree.node r span parts) → Readable u)

include ih

theorem readable_inner (hq : q ∈ parts) (hu : u ∈ q.parts) : Readable u :=
  ih u (Nat.lt_trans (sizeOf_lt_of_mem_parts hu) (sizeOf_lt_of_mem_parts hq))

theorem readable_innermost (hq : q ∈ parts) (hp : p ∈ q.parts) (hu : u ∈ p.parts) : Readable u := by
  have hlt : sizeOf u < sizeOf q := Nat.lt_trans (sizeOf_lt_of_mem_parts hu) (sizeOf_lt_of_mem_parts hp)
  exact ih u (Nat.lt_trans hlt (sizeOf_lt_of_mem_parts hq))

theorem readable_suffix (hq : q ∈ parts) (hu : u ∈ suffixOperands q) : Readable u :=
  ih u (Nat.lt_trans (sizeOf_lt_of_mem_suffixOperands hu) (sizeOf_lt_of_mem_parts hq))

variable (hc : grammar.Conforms (.node r span parts))

include hc

theorem operand_parts (hr : r.Calm) : ∀ u ∈ parts, Reads Expr.Operand (readExpr u) :=
  fun u hu => (ih u (sizeOf_lt_of_mem_parts hu)).operand (tame_parts hc hr u hu)

theorem operand_inner (hr : ∀ s ∈ (Rule.body r).rules, s.Calm) (hq : q ∈ parts) :
    ∀ u ∈ q.parts, Reads Expr.Operand (readExpr u) :=
  fun u hu => (readable_inner ih hq hu).operand (tame_inner hc hr hq u hu)

theorem operand_innermost (hq : q ∈ parts) (hp : p ∈ q.parts) (hr : p.rule.Calm) :
    ∀ u ∈ p.parts, Reads Expr.Operand (readExpr u) :=
  fun u hu => (readable_innermost ih hq hp hu).operand (tame_of_calm ((hc.part hq).part hp) hr u hu)

theorem operand_suffix (hq : q ∈ parts) : ∀ u ∈ suffixOperands q, Reads Expr.Operand (readExpr u) :=
  fun _ hu => (readable_suffix ih hq hu).operand (tame_of_mem_suffixOperands (hc.part hq) hu)

theorem textual_inner (hq : q ∈ parts) : ∀ u ∈ q.parts, Reads Expr.Textual (readExpr u) :=
  fun _ hu => (readable_inner ih hq hu).textual ((hc.part hq).part hu)

theorem textual_innermost (hq : q ∈ parts) (hp : p ∈ q.parts) :
    ∀ u ∈ p.parts, Reads Expr.Textual (readExpr u) :=
  fun _ hu => (readable_innermost ih hq hp hu).textual (((hc.part hq).part hp).part hu)

end Parts

/-- **Conforming trees are read as what can stand in their place**, if this is so of all smaller ones. -/
theorem readable_of_smaller {t : ParseTree Rule} (ih : ∀ u, sizeOf u < sizeOf t → Readable u) :
    Readable t := by
  intro hc
  unfold readExpr
  split
  -- tokens, and strings
  · next digits =>
    exact .of_operand (.ok (.of_operands ⟨digits, rfl⟩ id rfl (by simp [Expr.operands, Expr.children])))
  · exact .of_operand (.ok (.of_operands trivial id rfl (by simp [Expr.operands, Expr.children])))
  · exact .of_operand (.ok (operand_var _))
  · exact .error
  · exact .of_operand (.bind (.located (P := fun _ => True) fun _ _ => trivial) fun _ _ =>
      .ok (.of_operands trivial id rfl (by simp [Expr.operands, Expr.children])))
  -- lists and maps
  · refine .of_operand ((reads_readExprs (operand_parts ih hc (by decide))).bind fun es hes => ?_)
    exact .ok (.of_operands trivial id rfl hes)
  · have hparts := operand_parts ih hc (by decide)
    refine .of_operand ((hparts _ (by simp)).bind fun e₁ h₁ => (hparts _ (by simp)).bind fun e₂ h₂ => ?_)
    exact .ok (.of_operands trivial id rfl (by simp [Expr.operands, Expr.children, h₁, h₂]))
  · have hparts := fun t ht => operand_inner (q := t) ih hc (by decide) ht
    refine .of_operand ((operand_readEntries hparts).bind fun es hes => ?_)
    refine .ok (.of_operands trivial id rfl fun c hmem => ?_)
    obtain ⟨kv, hkv, hc⟩ := List.mem_flatMap.mp hmem
    simp only [List.mem_cons, List.not_mem_nil, or_false] at hc
    rcases hc with rfl | rfl
    · exact (hes kv hkv).1
    · exact (hes kv hkv).2
  -- what is printed or called, conditionals and bindings
  · have hargs := operand_inner ih hc (by decide) List.mem_cons_self
    exact .of_operand ((reads_readExprs hargs).bind fun es hes => .ok (.of_operands trivial id rfl hes))
  · have hargs := operand_inner ih hc (by decide) (List.mem_cons_of_mem _ List.mem_cons_self)
    exact .of_operand ((reads_readExprs hargs).bind fun es hes => .ok (.of_operands trivial id rfl hes))
  · exact .of_operand (operand_readCond (operand_parts ih hc (by decide)) fun _ ht _ hu =>
      textual_innermost ih hc ht hu)
  · have hparts := operand_parts ih hc (by decide)
    refine .of_operand ((hparts _ (by simp)).bind fun e₁ h₁ => (hparts _ (by simp)).bind fun e₂ h₂ => ?_)
    exact .ok (.of_operands trivial id rfl (by simp [Expr.operands, Expr.children, h₁, h₂]))
  -- operators that take their operands in other ways
  · exact .of_operand (operand_parts ih hc (by decide) _ List.mem_cons_self)
  · refine .of_operand ((reads_readExprs (operand_parts ih hc (by decide))).bind fun es hes => ?_)
    exact .ok (.of_operands trivial id rfl hes)
  · exact .of_operand (operand_readUnary (operand_parts ih hc (by decide)))
  · have hparts := operand_parts ih hc (by decide)
    refine .of_operand ((hparts _ (by simp)).bind fun e₁ h₁ => (hparts _ (by simp)).bind fun e₂ h₂ => ?_)
    exact .ok (.of_operands trivial id rfl (by simp [Expr.operands, Expr.children, h₁, h₂]))
  · have hfirst := operand_parts ih hc (by decide) _ List.mem_cons_self
    exact .of_operand (hfirst.bind fun e he => operand_readSuffixes he fun t ht =>
      operand_suffix ih hc (List.mem_cons_of_mem _ ht))
  -- statements; only these can declare something
  · -- a statement is read as what it consists of
    have hpart := (ih _ (sizeOf_lt_of_mem_parts List.mem_cons_self)).textual (hc.part List.mem_cons_self)
    exact hpart.imp fun e he => ⟨he, fun hquiet => absurd rfl hquiet.1⟩
  · exact .of_operand (operand_parts ih hc (by decide) _ List.mem_cons_self)
  · have hvalue := operand_parts ih hc (by decide) _ (List.mem_cons_of_mem _ List.mem_cons_self)
    refine hvalue.bind fun e he => .ok ⟨?_, fun h => absurd rfl h.2.1⟩
    exact .of_parts trivial (by simp [Expr.operands, Expr.children, he]) (by simp [Expr.statements])
  · have hvalue := operand_parts ih hc (by decide) _ (List.mem_cons_of_mem _ List.mem_cons_self)
    refine .of_operand (hvalue.bind fun e he => ?_)
    exact .ok (.of_operands trivial id rfl (by simp [Expr.operands, Expr.children, he]))
  · have hparts := fun t ht => And.intro (operand_parts ih hc (by decide) t ht)
      (operand_inner ih hc (by decide) ht)
    exact .of_operand (operand_readPut (by simp) (List.forall_mem_cons.mp hparts).2)
  · have hbody := textual_inner ih hc List.mem_cons_self
    exact .of_operand ((reads_readExprs hbody).bind fun es hes =>
      .ok ⟨.of_parts trivial (by simp [Expr.operands]) hes, id⟩)
  · have htest := operand_parts ih hc (by decide) _ List.mem_cons_self
    have hbody := textual_innermost ih hc (List.mem_cons_of_mem _ List.mem_cons_self) List.mem_cons_self
    exact .of_operand (htest.bind fun e he => (reads_readExprs hbody).bind fun es hes =>
      .ok ⟨.of_parts trivial (by simp [Expr.operands, he]) hes, id⟩)
  · next span name init test advance outer r inner body =>
    have hparts := operand_parts ih hc (by decide)
    have hblock : .node .block outer [.node r inner body] ∈
      [name, init, test, advance, .node .block outer [.node r inner body]] := by simp
    have hbody := textual_innermost ih hc hblock List.mem_cons_self
    refine .of_operand ((hparts _ (by simp)).bind fun e₁ h₁ => (hparts _ (by simp)).bind fun e₂ h₂ =>
      (hparts _ (by simp)).bind fun e₃ h₃ => (reads_readExprs hbody).bind fun es hes => ?_)
    exact .ok ⟨.of_parts trivial (by simp [Expr.operands, h₁, h₂, h₃]) hes, id⟩
  · next span name listing outer params rule inner body =>
    have hlast : .node rule inner body ∈ [name, .node listing outer params, .node rule inner body] := by simp
    refine (textual_readFunctionBody (textual_inner ih hc hlast) fun t ht hr =>
      operand_innermost ih hc hlast ht hr).bind fun b hb => .ok ⟨?_, fun h => absurd rfl h.2.2⟩
    exact .of_parts trivial (by simp [Expr.operands, hb.2]) hb.1
  · exact .of_operand (operand_parts ih hc (by decide) _ List.mem_cons_self)
  · exact .of_operand (operand_parts ih hc (by decide) _ List.mem_cons_self)
  -- operators that group to the left
  iterate 6
    · obtain ⟨hfirst, hrest⟩ := List.forall_mem_cons.mp (operand_parts ih hc (by decide))
      exact .of_operand (hfirst.bind fun e he => operand_readChain he hrest)
  · exact .of_operand (operand_parts ih hc (by decide) _ List.mem_cons_self)
  · exact .error

theorem readable (t : ParseTree Rule) : Readable t :=
  readable_of_smaller fun u _ => readable u
termination_by sizeOf t

/-! ## Source text -/

section Texts

variable {src : String} {tree : List Surface}

theorem textual_of_parse (h : parse src = .ok tree) : ∀ e ∈ tree, e.Textual := by
  unfold parse parseChars at h
  dsimp only at h
  split at h
  · next t ts next hrun =>
    have hconforms : grammar.Conforms t :=
      (conforms_of_derives (derives_of_matched _ _ hrun) rfl t List.mem_cons_self).2
    split at h
    · next tree' hread =>
      cases h
      unfold readFile at hread
      split at hread
      · have hbody := hconforms.part List.mem_cons_self
        exact reads_readExprs (fun t ht => (readable t).textual (hbody.part ht)) _ hread
      · cases hread
      · cases hread
    · cases h
  · cases h

/-- **Trees of source text have their declarations in their places.** -/
theorem placed_of_parse (h : parse src = .ok tree) : ∀ e ∈ tree, e.Placed :=
  fun e he => (textual_of_parse h e he).placed

/-- **Trees of source text** have no node that cannot be written. -/
theorem legible_of_parse (h : parse src = .ok tree) : ∀ e ∈ tree, e.Legible :=
  fun e he => (textual_of_parse h e he).legible

end Texts

end Source

end ExactScript
