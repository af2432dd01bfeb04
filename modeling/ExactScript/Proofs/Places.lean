import ExactScript.Proofs.Lockstep
import ExactScript.Source.Parse

/-!
# Places of trees

The places of a syntax tree are there for error messages. Trees that differ in places only are read as the same
expressions, or both have a fault.

## Contents
* `Repeats`, a reading that succeeds whenever another one does;
* `RereadAs`, and `rereadAs`, for trees; `readFile_same`, for whole texts.
-/

namespace ExactScript.Source

open Peg

/-- What `m` reads, `m'` reads too. -/
def Repeats {α : Type} (m m' : Reading α) : Prop := ∀ a, m = .ok a → m' = .ok a

namespace Repeats

variable {α β : Type} {m m' : Reading α}

theorem refl (m : Reading α) : Repeats m m := fun _ h => h

theorem error {f : Fault} : Repeats (.error f) m := fun _ h => nomatch h

theorem bind {k k' : α → Reading β} (h : Repeats m m') (hk : ∀ a, Repeats (k a) (k' a)) :
    Repeats (m >>= k) (m' >>= k') := by
  intro b hb
  cases hm : m with
  | error f =>
    rw [hm] at hb
    cases hb
  | ok a =>
    rw [hm] at hb
    rw [h a hm]
    exact hk a b hb

theorem located {span span' : Span} {m : Except Problem α} : Repeats (located span m) (located span' m) := by
  cases m with
  | ok a => exact refl _
  | error p => exact error

end Repeats

/-- A tree that differs in places only is read as the same expression. -/
def RereadAs (t : ParseTree Rule) : Prop := ∀ t', t.Same t' → Repeats (readExpr t) (readExpr t')

theorem readName_same {t t' : ParseTree Rule} (h : t.Same t') : readName t = readName t' := by
  cases h <;> rfl

theorem map_readName_same {ts ts' : List (ParseTree Rule)} (h : SameAll ts ts') :
    ts.map readName = ts'.map readName := by
  induction ts generalizing ts' with
  | nil =>
    cases h
    rfl
  | cons t ts ih =>
    cases h with
    | cons ht hts => rw [List.map_cons, List.map_cons, readName_same ht, ih hts]

theorem combine_same {t t' : ParseTree Rule} (h : t.Same t') (l r : Surface) : combine t l r = combine t' l r := by
  cases h with
  | @leaf r => cases r <;> rfl
  | node h => rfl

section Parts

/- The induction is on the size of trees; here `n` bounds the trees that were dealt with. -/
variable {n : Nat} (ih : ∀ t, sizeOf t < n → RereadAs t)

include ih

theorem repeats_readExprs {ts ts' : List (ParseTree Rule)} (hn : sizeOf ts ≤ n) (h : SameAll ts ts') :
    Repeats (readExprs ts) (readExprs ts') := by
  induction ts generalizing ts' with
  | nil =>
    cases h
    exact .refl _
  | cons t ts ihs =>
    cases h with
    | cons ht hts =>
      simp only [List.cons.sizeOf_spec] at hn
      exact (ih t (by omega) _ ht).bind fun e => (ihs (by omega) hts).bind fun es => .refl _

theorem repeats_readChain {left : Surface} {ts ts' : List (ParseTree Rule)} (hn : sizeOf ts ≤ n)
    (h : SameAll ts ts') : Repeats (readChain left ts) (readChain left ts') := by
  match ts, ts', hn, h with
  | [], _, _, .nil => exact .refl _
  | [_], _, _, .cons _ .nil => exact .refl _
  | op :: operand :: rest, _, hn, .cons hop (.cons hoperand hrest) =>
    simp only [List.cons.sizeOf_spec] at hn
    refine (ih operand (by omega) _ hoperand).bind fun r => ?_
    rw [combine_same hop]
    exact repeats_readChain (by omega) hrest

theorem repeats_readUnary {ts ts' : List (ParseTree Rule)} (hn : sizeOf ts ≤ n) (h : SameAll ts ts') :
    Repeats (readUnary ts) (readUnary ts') := by
  induction ts generalizing ts' with
  | nil => exact .error
  | cons t ts ihs =>
    simp only [List.cons.sizeOf_spec] at hn
    cases h with
    | cons ht hts =>
      cases ht with
      | leaf => exact (ihs (by omega) hts).bind fun e => .refl _
      | node hparts => exact ih _ (by omega) _ (.node hparts)

theorem repeats_readSuffixes {target : Surface} {ts ts' : List (ParseTree Rule)} (hn : sizeOf ts ≤ n)
    (h : SameAll ts ts') : Repeats (readSuffixes target ts) (readSuffixes target ts') := by
  induction ts generalizing target ts' with
  | nil =>
    cases h
    exact .refl _
  | cons t ts ihs =>
    have hts : ∀ {target ts'}, SameAll ts ts' → Repeats (readSuffixes target ts) (readSuffixes target ts') := by
      intro target ts' hts
      simp only [List.cons.sizeOf_spec] at hn
      exact ihs (by omega) hts
    rw [readSuffixes.eq_def target (t :: ts)]
    split
    · next heq => cases heq
    -- a method without parentheses, and one with them
    · next heq =>
      cases heq
      obtain ⟨_, _, rfl, hsuffix, hrest⟩ := h.of_cons
      obtain ⟨_, _, _, rfl, hparts⟩ := hsuffix.of_inner
      obtain ⟨_, rfl, hname⟩ := hparts.of_one
      rw [readName_same hname]
      simp only [readSuffixes]
      exact Repeats.located.bind fun e => hts hrest
    · next heq =>
      cases heq
      obtain ⟨_, _, rfl, hsuffix, hrest⟩ := h.of_cons
      obtain ⟨_, _, _, rfl, hparts⟩ := hsuffix.of_inner
      obtain ⟨_, _, rfl, hname, hlist⟩ := hparts.of_two
      obtain ⟨_, _, rfl, hargs⟩ := hlist.of_node
      rw [readName_same hname]
      simp only [readSuffixes]
      simp only [ParseTree.node.sizeOf_spec, List.cons.sizeOf_spec] at hn
      exact (repeats_readExprs ih (by omega) hargs).bind fun args => Repeats.located.bind fun e => hts hrest
    -- slices and elements
    · next heq =>
      cases heq
      obtain ⟨_, _, rfl, hsuffix, hrest⟩ := h.of_cons
      obtain ⟨_, _, _, rfl, hparts⟩ := hsuffix.of_inner
      obtain ⟨_, _, rfl, hstart, hstop⟩ := hparts.of_two
      simp only [readSuffixes]
      simp only [ParseTree.node.sizeOf_spec, List.cons.sizeOf_spec] at hn
      exact (ih _ (by omega) _ hstart).bind fun start => (ih _ (by omega) _ hstop).bind fun stop => hts hrest
    · next heq =>
      cases heq
      obtain ⟨_, _, rfl, hsuffix, hrest⟩ := h.of_cons
      obtain ⟨_, _, _, rfl, hparts⟩ := hsuffix.of_inner
      obtain ⟨_, _, _, rfl, hstart, hstop, hstep⟩ := hparts.of_three
      simp only [readSuffixes]
      simp only [ParseTree.node.sizeOf_spec, List.cons.sizeOf_spec] at hn
      exact (ih _ (by omega) _ hstart).bind fun start => (ih _ (by omega) _ hstop).bind fun stop =>
        (ih _ (by omega) _ hstep).bind fun step => hts hrest
    · next heq =>
      cases heq
      obtain ⟨_, _, rfl, hsuffix, hrest⟩ := h.of_cons
      obtain ⟨_, _, _, rfl, hparts⟩ := hsuffix.of_inner
      obtain ⟨_, rfl, hkey⟩ := hparts.of_one
      simp only [readSuffixes]
      simp only [ParseTree.node.sizeOf_spec, List.cons.sizeOf_spec] at hn
      exact (ih _ (by omega) _ hkey).bind fun key => hts hrest
    · exact .error

theorem repeats_readEntries {ts ts' : List (ParseTree Rule)} (hn : sizeOf ts ≤ n) (h : SameAll ts ts') :
    Repeats (readEntries ts) (readEntries ts') := by
  induction ts generalizing ts' with
  | nil =>
    cases h
    exact .refl _
  | cons t ts ihs =>
    simp only [List.cons.sizeOf_spec] at hn
    match h with
    | .cons .leaf hts => exact .error
    | .cons (.node .nil) hts => exact .error
    | .cons (.node (.cons hk .nil)) hts => exact .error
    | .cons (.node (.cons hk (.cons hv .nil))) hts =>
      simp only [ParseTree.node.sizeOf_spec, List.cons.sizeOf_spec] at hn
      exact (ih _ (by omega) _ hk).bind fun k => (ih _ (by omega) _ hv).bind fun v =>
        (ihs (by omega) hts).bind fun es => .refl _
    | .cons (.node (.cons hk (.cons hv (.cons _ _)))) hts => exact .error

theorem repeats_readCond {ts ts' : List (ParseTree Rule)} (hn : sizeOf ts ≤ n) (h : SameAll ts ts') :
    Repeats (readCond ts) (readCond ts') := by
  rw [readCond.eq_def ts]
  split
  · obtain ⟨_, _, rfl, htest, hblock⟩ := h.of_two
    obtain ⟨_, _, _, rfl, hyes⟩ := hblock.of_inner
    simp only [readCond]
    simp only [ParseTree.node.sizeOf_spec, List.cons.sizeOf_spec] at hn
    exact (ih _ (by omega) _ htest).bind fun test => (repeats_readExprs ih (by omega) hyes).bind fun yes => .refl _
  · obtain ⟨_, _, _, rfl, htest, hblock, helse⟩ := h.of_three
    obtain ⟨_, _, _, rfl, hyes⟩ := hblock.of_inner
    obtain ⟨_, _, _, rfl, hno⟩ := helse.of_inner
    simp only [readCond]
    simp only [ParseTree.node.sizeOf_spec, List.cons.sizeOf_spec] at hn
    exact (ih _ (by omega) _ htest).bind fun test => (repeats_readExprs ih (by omega) hyes).bind fun yes =>
      (repeats_readExprs ih (by omega) hno).bind fun no => .refl _
  · next hother =>
    obtain ⟨_, _, _, rfl, htest, hblock, helse⟩ := h.of_three
    obtain ⟨_, _, _, rfl, hyes⟩ := hblock.of_inner
    rw [readCond.eq_3]
    · simp only [ParseTree.node.sizeOf_spec, List.cons.sizeOf_spec] at hn
      exact (ih _ (by omega) _ htest).bind fun test => (repeats_readExprs ih (by omega) hyes).bind fun yes =>
        (ih _ (by omega) _ helse).bind fun no => .refl _
    · -- the other tree has no block there either
      rintro _ _ _ _ rfl
      obtain ⟨_, _, _, rfl, -⟩ := helse.symm.of_inner
      exact hother _ _ _ _ rfl
  · exact .error

theorem repeats_readPut {name : String} {keys : List Surface} {ts ts' : List (ParseTree Rule)}
    (hn : sizeOf ts ≤ n) (h : SameAll ts ts') : Repeats (readPut name keys ts) (readPut name keys ts') := by
  induction ts generalizing keys ts' with
  | nil => exact .error
  | cons t ts ihs =>
    rw [readPut.eq_def name keys (t :: ts)]
    split
    · next heq =>
      cases heq
      obtain ⟨_, rfl, hvalue⟩ := h.of_one
      simp only [readPut]
      simp only [List.cons.sizeOf_spec] at hn
      exact (ih _ (by omega) _ hvalue).bind fun value => .refl _
    · next hrest heq =>
      cases heq
      obtain ⟨_, _, rfl, ht, hts⟩ := h.of_cons
      obtain ⟨_, _, rfl, hinner⟩ := ht.of_node
      obtain ⟨_, rfl, hkey⟩ := hinner.of_one
      rw [readPut.eq_2]
      · simp only [ParseTree.node.sizeOf_spec, List.cons.sizeOf_spec] at hn
        exact (ih _ (by omega) _ hkey).bind fun key => ihs (by omega) hts
      · rintro rfl
        obtain rfl := hts.symm.of_nil
        exact hrest rfl
    · exact .error

theorem repeats_readFunctionBody {ts ts' : List (ParseTree Rule)} (hn : sizeOf ts ≤ n) (h : SameAll ts ts') :
    Repeats (readFunctionBody ts) (readFunctionBody ts') := by
  induction ts generalizing ts' with
  | nil =>
    cases h
    exact .refl _
  | cons t ts ihs =>
    obtain ⟨_, _, rfl, ht, hts⟩ := h.of_cons
    rw [readFunctionBody.eq_def (t :: ts)]
    split
    · next heq => cases heq
    · next heq =>
      cases heq
      obtain ⟨_, _, rfl, hinner⟩ := ht.of_node
      obtain ⟨_, rfl, he⟩ := hinner.of_one
      simp only [readFunctionBody]
      simp only [ParseTree.node.sizeOf_spec, List.cons.sizeOf_spec] at hn
      exact (ih _ (by omega) _ he).bind fun e => (ihs (by omega) hts).bind fun body => .refl _
    · next hother heq =>
      cases heq
      rw [readFunctionBody.eq_3]
      · simp only [List.cons.sizeOf_spec] at hn
        exact (ih _ (by omega) _ ht).bind fun s => (ihs (by omega) hts).bind fun body => .refl _
      · rintro _ _ rfl
        obtain ⟨_, _, rfl, hinner⟩ := ht.symm.of_node
        obtain ⟨_, rfl, -⟩ := hinner.of_one
        exact hother _ _ rfl

/-- A rule that only passes its part on. -/
theorem repeats_only {r : Rule} {span : Span} {part t' : ParseTree Rule}
    (hr : ∀ span part, readExpr (.node r span [part]) = readExpr part) (hn : sizeOf part < n)
    (h : (ParseTree.node r span [part]).Same t') : Repeats (readExpr part) (readExpr t') := by
  obtain ⟨_, _, rfl, hparts⟩ := h.of_node
  obtain ⟨_, rfl, hpart⟩ := hparts.of_one
  rw [hr]
  exact ih part hn _ hpart

/-- A rule with operators between its operands. -/
theorem repeats_operands {r : Rule} {span : Span} {first t' : ParseTree Rule} {rest : List (ParseTree Rule)}
    (hr : ∀ span first rest, readExpr (.node r span (first :: rest)) =
      readExpr first >>= fun left => readChain left rest)
    (hn : sizeOf (first :: rest) ≤ n) (h : (ParseTree.node r span (first :: rest)).Same t') :
    Repeats (readExpr first >>= fun left => readChain left rest) (readExpr t') := by
  obtain ⟨_, _, rfl, hparts⟩ := h.of_node
  obtain ⟨_, _, rfl, hfirst, hrest⟩ := hparts.of_cons
  rw [hr]
  simp only [List.cons.sizeOf_spec] at hn
  exact (ih first (by omega) _ hfirst).bind fun left => repeats_readChain ih (by omega) hrest

end Parts

/-! ## Trees -/

/-- The parts of a tree are read alike, so the tree is. -/
theorem rereadAs_of_smaller {t : ParseTree Rule} (ih : ∀ u, sizeOf u < sizeOf t → RereadAs u) : RereadAs t := by
  intro t' h
  rw [readExpr.eq_def t]
  split
  -- tokens, and strings
  · obtain ⟨_, rfl⟩ := h.of_leaf
    exact .refl _
  · obtain ⟨_, rfl⟩ := h.of_leaf
    exact .refl _
  · obtain ⟨_, rfl⟩ := h.of_leaf
    exact .refl _
  · exact .error
  · obtain ⟨_, _, rfl, hparts⟩ := h.of_node
    obtain ⟨_, rfl, hbody⟩ := hparts.of_one
    obtain ⟨_, rfl⟩ := hbody.of_leaf
    simp only [readExpr]
    exact Repeats.located.bind fun s => .refl _
  -- lists and maps
  · obtain ⟨_, _, rfl, helems⟩ := h.of_node
    simp only [readExpr]
    exact (repeats_readExprs ih (by simp) helems).bind fun es => .refl _
  · obtain ⟨_, _, rfl, hparts⟩ := h.of_node
    obtain ⟨_, _, rfl, hvalue, hsize⟩ := hparts.of_two
    simp only [readExpr]
    exact (ih _ (by simp; omega) _ hvalue).bind fun value => (ih _ (by simp; omega) _ hsize).bind fun size => .refl _
  · obtain ⟨_, _, rfl, hentries⟩ := h.of_node
    simp only [readExpr]
    exact (repeats_readEntries ih (by simp) hentries).bind fun es => .refl _
  -- what is printed or called, conditionals and bindings
  · obtain ⟨_, _, _, rfl, hargs⟩ := h.of_inner
    simp only [readExpr]
    exact (repeats_readExprs ih (by simp; omega) hargs).bind fun es => .refl _
  · obtain ⟨_, _, rfl, hparts⟩ := h.of_node
    obtain ⟨_, _, rfl, hname, hlist⟩ := hparts.of_two
    obtain ⟨_, _, rfl, hargs⟩ := hlist.of_node
    simp only [readExpr]
    rw [readName_same hname]
    exact (repeats_readExprs ih (by simp; omega) hargs).bind fun es => .refl _
  · obtain ⟨_, _, rfl, hparts⟩ := h.of_node
    simp only [readExpr]
    exact repeats_readCond ih (by simp) hparts
  · obtain ⟨_, _, rfl, hparts⟩ := h.of_node
    obtain ⟨_, _, _, rfl, hname, hvalue, hbody⟩ := hparts.of_three
    simp only [readExpr]
    rw [readName_same hname]
    exact (ih _ (by simp; omega) _ hvalue).bind fun value => (ih _ (by simp; omega) _ hbody).bind fun body => .refl _
  -- operators that take their operands in other ways
  · exact repeats_only ih (fun _ _ => by simp only [readExpr]) (by simp; omega) h
  · next hmany =>
    obtain ⟨_, _, rfl, hparts⟩ := h.of_node
    rw [readExpr.eq_14]
    · exact (repeats_readExprs ih (by simp) hparts).bind fun es => .refl _
    · rintro _ rfl
      obtain ⟨_, rfl, -⟩ := hparts.symm.of_one
      exact hmany _ rfl
  · obtain ⟨_, _, rfl, hparts⟩ := h.of_node
    simp only [readExpr]
    exact repeats_readUnary ih (by simp) hparts
  · obtain ⟨_, _, rfl, hparts⟩ := h.of_node
    obtain ⟨_, _, _, rfl, hbase, -, hexponent⟩ := hparts.of_three
    simp only [readExpr]
    exact (ih _ (by simp; omega) _ hbase).bind fun base =>
      (ih _ (by simp; omega) _ hexponent).bind fun exponent => .refl _
  · obtain ⟨_, _, rfl, hparts⟩ := h.of_node
    obtain ⟨_, _, rfl, hfirst, hsuffixes⟩ := hparts.of_cons
    simp only [readExpr]
    exact (ih _ (by simp; omega) _ hfirst).bind fun first => repeats_readSuffixes ih (by simp; omega) hsuffixes
  -- statements
  · exact repeats_only ih (fun _ _ => by simp only [readExpr]) (by simp; omega) h
  · exact repeats_only ih (fun _ _ => by simp only [readExpr]) (by simp; omega) h
  · obtain ⟨_, _, rfl, hparts⟩ := h.of_node
    obtain ⟨_, _, rfl, hname, hvalue⟩ := hparts.of_two
    simp only [readExpr]
    rw [readName_same hname]
    exact (ih _ (by simp; omega) _ hvalue).bind fun value => .refl _
  · obtain ⟨_, _, rfl, hparts⟩ := h.of_node
    obtain ⟨_, _, rfl, hname, hvalue⟩ := hparts.of_two
    simp only [readExpr]
    rw [readName_same hname]
    exact (ih _ (by simp; omega) _ hvalue).bind fun value => .refl _
  · obtain ⟨_, _, rfl, hparts⟩ := h.of_node
    obtain ⟨_, _, rfl, hname, hrest⟩ := hparts.of_cons
    simp only [readExpr]
    rw [readName_same hname]
    exact repeats_readPut ih (by simp; omega) hrest
  · obtain ⟨_, _, _, rfl, hbody⟩ := h.of_inner
    simp only [readExpr]
    exact (repeats_readExprs ih (by simp; omega) hbody).bind fun es => .refl _
  -- loops and functions
  · obtain ⟨_, _, rfl, hparts⟩ := h.of_node
    obtain ⟨_, _, rfl, htest, hblock⟩ := hparts.of_two
    obtain ⟨_, _, _, rfl, hbody⟩ := hblock.of_inner
    simp only [readExpr]
    exact (ih _ (by simp; omega) _ htest).bind fun test =>
      (repeats_readExprs ih (by simp; omega) hbody).bind fun body => .refl _
  · obtain ⟨_, _, rfl, hparts⟩ := h.of_node
    obtain ⟨_, _, rfl, hname, hparts'⟩ := hparts.of_cons
    obtain ⟨_, _, rfl, hinit, hparts''⟩ := hparts'.of_cons
    obtain ⟨_, _, _, rfl, htest, hadvance, hblock⟩ := hparts''.of_three
    obtain ⟨_, _, _, rfl, hbody⟩ := hblock.of_inner
    simp only [readExpr]
    rw [readName_same hname]
    exact (ih _ (by simp; omega) _ hinit).bind fun init => (ih _ (by simp; omega) _ htest).bind fun test =>
      (ih _ (by simp; omega) _ hadvance).bind fun advance =>
      (repeats_readExprs ih (by simp; omega) hbody).bind fun body => .refl _
  · obtain ⟨_, _, rfl, hparts⟩ := h.of_node
    obtain ⟨_, _, _, rfl, hname, hnames, hlist⟩ := hparts.of_three
    obtain ⟨_, _, rfl, hparams⟩ := hnames.of_node
    obtain ⟨_, _, rfl, hbody⟩ := hlist.of_node
    simp only [readExpr]
    rw [readName_same hname, map_readName_same hparams]
    exact (repeats_readFunctionBody ih (by simp; omega) hbody).bind fun body => .refl _
  -- operands, and operators between them
  · exact repeats_only ih (fun _ _ => by simp only [readExpr]) (by simp; omega) h
  · exact repeats_only ih (fun _ _ => by simp only [readExpr]) (by simp; omega) h
  · exact repeats_operands ih (fun _ _ _ => by simp only [readExpr]) (by simp) h
  · exact repeats_operands ih (fun _ _ _ => by simp only [readExpr]) (by simp) h
  · exact repeats_operands ih (fun _ _ _ => by simp only [readExpr]) (by simp) h
  · exact repeats_operands ih (fun _ _ _ => by simp only [readExpr]) (by simp) h
  · exact repeats_operands ih (fun _ _ _ => by simp only [readExpr]) (by simp) h
  · exact repeats_operands ih (fun _ _ _ => by simp only [readExpr]) (by simp) h
  · exact repeats_only ih (fun _ _ => by simp only [readExpr]) (by simp; omega) h
  · exact .error

/-- **The places of a tree do not matter** to the expression it is read as. -/
theorem rereadAs (t : ParseTree Rule) : RereadAs t := rereadAs_of_smaller fun u _ => rereadAs u
termination_by sizeOf t

theorem readExprs_same {ts ts' : List (ParseTree Rule)} (h : SameAll ts ts') :
    Repeats (readExprs ts) (readExprs ts') :=
  repeats_readExprs (fun t _ => rereadAs t) (Nat.le_refl _) h

theorem readFile_same {t t' : ParseTree Rule} (h : t.Same t') : Repeats (readFile t) (readFile t') := by
  unfold readFile
  split
  · obtain ⟨_, _, rfl, hparts⟩ := h.of_node
    obtain ⟨_, _, rfl, hstatements, -⟩ := hparts.of_cons
    obtain ⟨_, _, rfl, hbody⟩ := hstatements.of_node
    exact readExprs_same hbody
  · exact .error
  · exact .error

end ExactScript.Source
