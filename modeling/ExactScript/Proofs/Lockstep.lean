import ExactScript.Proofs.Derivations

/-!
# Two runs side by side

When do two inputs get the same trees? The parts of a pattern are run on both of them, and as long as every
character that decides something is the same in both, the runs take the same way. What the inputs have in
common at a position is a relation of their cursors; it may depend on a number that tells what the run is
inside of. A *walk* follows that number through a pattern, without any input. If the relation survives the
words, the characters and the layout that the walk admits, it survives every pattern, and the answers are
alike: both fail, or both match with trees that differ in places only.

## Contents
* `ParseTree.Same`, for trees that differ in places only; `Cursor.Passes`, what is read between two cursors;
* `Walk`, `Pattern.exit`;
* `Alike`, answers that differ in places only;
* `Grammar.Lockstep`, and `Lockstep.derives`, the theorem;
* `Grammar.Keeps` and `Keeps.derives`: the same for one run and a property of its cursors;
* `lockstep_rest`: the answer to a text is the same wherever it stands.
-/

namespace ExactScript.Peg

variable {ρ : Type}

/-! ## Trees at other places -/

mutual

/-- The trees differ in places only. -/
inductive ParseTree.Same : ParseTree ρ → ParseTree ρ → Prop
  | leaf {r s s' t} : ParseTree.Same (.leaf r s t) (.leaf r s' t)
  | node {r s s' parts parts'} (h : SameAll parts parts') :
    ParseTree.Same (.node r s parts) (.node r s' parts')

inductive SameAll : List (ParseTree ρ) → List (ParseTree ρ) → Prop
  | nil : SameAll [] []
  | cons {t t' ts ts'} (h : t.Same t') (hs : SameAll ts ts') : SameAll (t :: ts) (t' :: ts')

end

mutual

theorem ParseTree.Same.symm {t t' : ParseTree ρ} : t.Same t' → t'.Same t
  | .leaf => .leaf
  | .node h => .node h.symm

theorem SameAll.symm {ts ts' : List (ParseTree ρ)} : SameAll ts ts' → SameAll ts' ts
  | .nil => .nil
  | .cons h hs => .cons h.symm hs.symm

end

theorem ParseTree.Same.of_leaf {r : ρ} {s : Span} {x : List Char} {t : ParseTree ρ}
    (h : (ParseTree.leaf r s x).Same t) : ∃ s', t = .leaf r s' x := by
  cases h with
  | @leaf _ _ s' => exact ⟨s', rfl⟩

theorem ParseTree.Same.of_node {r : ρ} {s : Span} {parts : List (ParseTree ρ)} {t : ParseTree ρ}
    (h : (ParseTree.node r s parts).Same t) : ∃ s' parts', t = .node r s' parts' ∧ SameAll parts parts' := by
  cases h with
  | @node _ _ s' _ parts' h => exact ⟨s', parts', rfl, h⟩

namespace SameAll

variable {t : ParseTree ρ} {ts ts' us us' : List (ParseTree ρ)}

theorem of_nil (h : SameAll [] us) : us = [] := by
  cases h
  rfl

theorem of_cons (h : SameAll (t :: ts) us) : ∃ u us', us = u :: us' ∧ t.Same u ∧ SameAll ts us' := by
  cases h with
  | @cons _ u _ us' ht hts => exact ⟨u, us', rfl, ht, hts⟩

theorem of_one (h : SameAll [t] us) : ∃ u, us = [u] ∧ t.Same u := by
  obtain ⟨u, us', rfl, ht, hnil⟩ := h.of_cons
  obtain rfl := hnil.of_nil
  exact ⟨u, rfl, ht⟩

theorem of_two {t₁ t₂ : ParseTree ρ} (h : SameAll [t₁, t₂] us) :
    ∃ u₁ u₂, us = [u₁, u₂] ∧ t₁.Same u₁ ∧ t₂.Same u₂ := by
  obtain ⟨u₁, us', rfl, h₁, hrest⟩ := h.of_cons
  obtain ⟨u₂, rfl, h₂⟩ := hrest.of_one
  exact ⟨u₁, u₂, rfl, h₁, h₂⟩

theorem of_three {t₁ t₂ t₃ : ParseTree ρ} (h : SameAll [t₁, t₂, t₃] us) :
    ∃ u₁ u₂ u₃, us = [u₁, u₂, u₃] ∧ t₁.Same u₁ ∧ t₂.Same u₂ ∧ t₃.Same u₃ := by
  obtain ⟨u₁, us', rfl, h₁, hrest⟩ := h.of_cons
  obtain ⟨u₂, u₃, rfl, h₂, h₃⟩ := hrest.of_two
  exact ⟨u₁, u₂, u₃, rfl, h₁, h₂, h₃⟩

theorem append (h : SameAll ts ts') (h' : SameAll us us') : SameAll (ts ++ us) (ts' ++ us') := by
  induction ts generalizing ts' with
  | nil =>
    cases h
    exact h'
  | cons t ts ih =>
    cases h with
    | cons ht hts => exact .cons ht (ih hts)

end SameAll

/-- The parts of the only part of a node. -/
theorem ParseTree.Same.of_inner {r r' : ρ} {s s' : Span} {parts : List (ParseTree ρ)} {t : ParseTree ρ}
    (h : (ParseTree.node r s [.node r' s' parts]).Same t) :
    ∃ s s' parts', t = .node r s [.node r' s' parts'] ∧ SameAll parts parts' := by
  obtain ⟨s, inner, rfl, hinner⟩ := h.of_node
  obtain ⟨u, rfl, hu⟩ := hinner.of_one
  obtain ⟨s', parts', rfl, hparts⟩ := hu.of_node
  exact ⟨s, s', parts', rfl, hparts⟩

/-! ## What is read -/

/-- The characters `v` stand between two cursors. -/
structure Cursor.Passes (c : Cursor) (v : List Char) (next : Cursor) : Prop where
  rest : c.rest = v ++ next.rest
  pos : next.pos = c.pos + v.length

namespace Cursor.Passes

variable {c c' c'' : Cursor} {v v' : List Char}

theorem refl (c : Cursor) : c.Passes [] c := ⟨rfl, rfl⟩

theorem trans (h : c.Passes v c') (h' : c'.Passes v' c'') : c.Passes (v ++ v') c'' where
  rest := by rw [h.rest, h'.rest, List.append_assoc]
  pos := by rw [h'.pos, h.pos, List.length_append, Nat.add_assoc]

theorem of_read? (h : c.read? v = some c') : c.Passes v c' := by
  refine ⟨append_of_read? h, ?_⟩
  induction v generalizing c with
  | nil =>
    cases h
    rfl
  | cons x v ih =>
    obtain ⟨rest, pos⟩ := c
    cases rest with
    | nil => cases h
    | cons y rest =>
      simp only [read?] at h
      split at h
      · rw [ih h, List.length_cons, Nat.add_assoc, Nat.add_comm 1]
      · cases h

theorem read? (h : c.Passes v c') : c.read? v = some c' := by
  obtain ⟨rest, pos⟩ := c
  obtain ⟨rest', pos'⟩ := c'
  obtain rfl : rest = v ++ rest' := h.rest
  obtain rfl : pos' = pos + v.length := h.pos
  exact Cursor.read?_append v rest' pos

/-- A token of the passed characters has them as its text. -/
theorem take (h : c.Passes v c') : c.rest.take (c'.pos - c.pos) = v := by
  rw [h.pos, Nat.add_sub_cancel_left, h.rest, List.take_left]

end Cursor.Passes

/-- A word is read if it stands there. -/
theorem Cursor.read?_eq_none_iff {c : Cursor} {v : List Char} : c.read? v = none ↔ ¬∃ rest, c.rest = v ++ rest := by
  rw [Option.eq_none_iff_forall_ne_some]
  constructor
  · rintro h ⟨rest, hrest⟩
    exact h ⟨rest, c.pos + v.length⟩ (Passes.read? ⟨hrest, rfl⟩)
  · rintro h next hnext
    exact h ⟨next.rest, (Passes.of_read? hnext).rest⟩

/-! ## Walks through patterns -/

/-- What may be met on the way through a pattern, and how it changes the number that is followed. -/
structure Walk (ρ : Type) where
  text : Nat → String → Option Nat
  char : (Char → Bool) → Bool
  /-- A rule that may be called. It leaves the number as it was. -/
  rule : Nat → ρ → Bool

namespace Pattern

/-- Where the walk comes to through a pattern, if all of it is admitted. -/
def exit (W : Walk ρ) (k : Nat) : Pattern ρ → Option Nat
  | empty => Option.some k
  | text s => W.text k s
  | char accepts => if W.char accepts then Option.some k else none
  | seq p q => (p.exit W k).bind fun m => q.exit W m
  | choice p q => if p.exit W k = q.exit W k then p.exit W k else none
  | many p => if p.exit W k = Option.some k then Option.some k else none
  | ahead p | notAhead p => if (p.exit W k).isSome then Option.some k else none
  | rule r => if W.rule k r then Option.some k else none

/-- No rule is called. -/
def flat : Pattern ρ → Bool
  | empty | text _ | char _ => true
  | seq p q | choice p q => p.flat && q.flat
  | many p | ahead p | notAhead p => p.flat
  | rule _ => false

end Pattern

/-! ## Answers -/

/-- The same characters are read from both cursors. -/
def Together (c c' next next' : Cursor) : Prop := ∃ v, c.Passes v next ∧ c'.Passes v next'

/-- Both answers are failures, or both are matches of trees that differ in places only. Where `flat` holds, the
same characters were read. -/
inductive Alike (R : Cursor → Cursor → Prop) (flat : Prop) (c c' : Cursor) : Reply ρ → Reply ρ → Prop
  | failed : Alike R flat c c' .failed .failed
  | matched {ts ts' next next'} (trees : SameAll ts ts') (h : R next next')
      (text : flat → Together c c' next next') : Alike R flat c c' (.matched ts next) (.matched ts' next')

namespace Alike

variable {R S : Cursor → Cursor → Prop} {flat flat' : Prop} {c c' d d' : Cursor} {a a' : Reply ρ}
  {ts ts' : List (ParseTree ρ)} {next next' : Cursor}

theorem of_matched (h : Alike R flat c c' (.matched ts next) a) :
    ∃ ts' next', a = .matched ts' next' ∧ SameAll ts ts' ∧ R next next' ∧
      (flat → Together c c' next next') := by
  cases h with
  | matched htrees h htext => exact ⟨_, _, rfl, htrees, h, htext⟩

theorem of_failed (h : Alike R flat c c' .failed a) : a = .failed := by
  cases h
  rfl

theorem withTrees (h : Alike R flat c c' a a') (htrees : SameAll ts ts')
    (hflat : flat' → flat) (hbefore : flat' → Together d d' c c') :
    Alike R flat' d d' (a.withTrees ts) (a'.withTrees ts') := by
  cases h with
  | failed => exact .failed
  | matched htrees' h htext =>
    refine .matched (htrees.append htrees') h fun hf => ?_
    obtain ⟨v, hv, hv'⟩ := hbefore hf
    obtain ⟨w, hw, hw'⟩ := htext (hflat hf)
    exact ⟨v ++ w, hv.trans hw, hv'.trans hw'⟩

theorem imp (h : Alike R flat c c' a a') (hRS : ∀ n n', R n n' → S n n') (hflat : flat' → flat) :
    Alike S flat' c c' a a' := by
  cases h with
  | failed => exact .failed
  | matched htrees h htext => exact .matched htrees (hRS _ _ h) fun hf => htext (hflat hf)

end Alike

/-! ## Lockstep -/

/-- The relation `R` survives everything that the walk admits. -/
structure Grammar.Lockstep (g : Grammar ρ) (W : Walk ρ) (R : Nat → Cursor → Cursor → Prop) : Prop where
  skip : ∀ {k c c'}, R k c c' → R k (g.skip c) (g.skip c')
  text : ∀ {k k' s c c'}, W.text k s = some k' → R k c c' →
    (c.read? s.toList = none ∧ c'.read? s.toList = none) ∨
    ∃ next next', c.read? s.toList = some next ∧ c'.read? s.toList = some next' ∧ R k' next next'
  char : ∀ {k accepts c c'}, W.char accepts = true → R k c c' →
    ((∀ x rest, c.rest = x :: rest → accepts x = false) ∧
      ∀ x rest, c'.rest = x :: rest → accepts x = false) ∨
    ∃ x rest rest', accepts x = true ∧ c.rest = x :: rest ∧ c'.rest = x :: rest' ∧
      R k ⟨rest, c.pos + 1⟩ ⟨rest', c'.pos + 1⟩
  /-- The walk goes through the body of a rule, which calls no rules if it is a token, or else the answers are
  known to be alike. -/
  rule : ∀ {k r}, W.rule k r = true →
    ((g.body r).exit W k = some k ∧ (g.mode r = .atomic → (g.body r).flat = true)) ∨
    (g.mode r ≠ .atomic ∧ ∀ c c' a, R k c c' → Derives g (g.mode r) (g.body r) c a →
      ∃ a', Derives g (g.mode r) (g.body r) c' a' ∧ Alike (R k) False c c' a a')

namespace Grammar.Lockstep

variable {g : Grammar ρ} {W : Walk ρ} {R : Nat → Cursor → Cursor → Prop} {mode : Mode} {p : Pattern ρ}
  {c c' : Cursor} {a : Reply ρ}

theorem nextElement (h : g.Lockstep W R) (mode : Mode) {k : Nat} (hR : R k c c') :
    R k (g.nextElement mode c) (g.nextElement mode c') := by
  unfold Grammar.nextElement
  split
  · exact h.skip hR
  · exact hR

/-- Where nothing is skipped, the next element begins where the last one ended. -/
theorem nextElement_eq (hmode : mode ≠ .spaced) (c : Cursor) : g.nextElement mode c = c := if_neg hmode

/-- The tree of a rule is determined by its text, or by its parts. -/
theorem same_ruleTrees (mode : Mode) (r : ρ) {next next' : Cursor} {ts ts' : List (ParseTree ρ)}
    (htrees : SameAll ts ts') (htext : g.mode r = .atomic → Together c c' next next') :
    SameAll (g.ruleTrees mode r c next ts) (g.ruleTrees mode r c' next' ts') := by
  unfold ruleTrees treeOf
  by_cases hmode : mode ≠ .atomic
  · rw [if_pos hmode, if_pos hmode]
    by_cases hr : g.mode r = .atomic
    · obtain ⟨v, hv, hv'⟩ := htext hr
      rw [if_pos hr, if_pos hr, hv.take, hv'.take]
      exact .cons .leaf .nil
    · rw [if_neg hr, if_neg hr]
      exact .cons (.node htrees) .nil
  · rw [if_neg hmode, if_neg hmode]
    exact .nil

/-- **Patterns keep step.** -/
theorem derives (h : g.Lockstep W R) (hd : Derives g mode p c a) {k k' : Nat} (hp : p.exit W k = some k')
    (hR : R k c c') : ∃ a', Derives g mode p c' a' ∧
      Alike (R k') (mode ≠ .spaced ∧ p.flat = true) c c' a a' := by
  induction hd generalizing k k' c' with
  | @empty mode c =>
    cases hp
    exact ⟨_, .empty, .matched .nil hR fun _ => ⟨[], .refl c, .refl c'⟩⟩
  | @text mode s c next hread =>
    rcases h.text hp hR with ⟨hnone, -⟩ | ⟨n, n', hn, hn', hnext⟩
    · rw [hread] at hnone
      cases hnone
    · obtain rfl : next = n := Option.some.inj (hread.symm.trans hn)
      exact ⟨_, .text hn', .matched .nil hnext fun _ => ⟨_, .of_read? hn, .of_read? hn'⟩⟩
  | text_fails hread =>
    rcases h.text hp hR with ⟨-, hnone⟩ | ⟨n, n', hn, -⟩
    · exact ⟨_, .text_fails hnone, .failed⟩
    · rw [hread] at hn
      cases hn
  | @char mode accepts x rest pos hx =>
    simp only [Pattern.exit, Option.ite_none_right_eq_some, Option.some.injEq] at hp
    obtain ⟨hchar, rfl⟩ := hp
    rcases h.char hchar hR with ⟨hfails, -⟩ | ⟨y, more, rest', -, hy, hy', hnext⟩
    · rw [hfails x rest rfl] at hx
      cases hx
    · cases hy
      obtain ⟨all, pos'⟩ := c'
      obtain rfl : all = x :: rest' := hy'
      exact ⟨_, .char hx, .matched .nil hnext fun _ => ⟨[x], ⟨rfl, rfl⟩, ⟨rfl, rfl⟩⟩⟩
  | char_fails hx =>
    simp only [Pattern.exit, Option.ite_none_right_eq_some, Option.some.injEq] at hp
    obtain ⟨hchar, rfl⟩ := hp
    rcases h.char hchar hR with ⟨-, hfails⟩ | ⟨y, rest, rest', hy, hrest, -⟩
    · exact ⟨_, .char_fails hfails, .failed⟩
    · rw [hx y rest hrest] at hy
      cases hy
  | @seq mode p q c next r ts _ _ ihp ihq =>
    obtain ⟨m, hm, hq⟩ := Option.bind_eq_some_iff.mp hp
    obtain ⟨a', hp', halike⟩ := ihp hm hR
    obtain ⟨ts', next', rfl, htrees, hnext, htext⟩ := halike.of_matched
    obtain ⟨b', hq', halike'⟩ := ihq hq (h.nextElement mode hnext)
    refine ⟨_, .seq hp' hq', halike'.withTrees htrees (fun hf => ?_) fun hf => ?_⟩
    · exact ⟨hf.1, (Bool.and_eq_true_iff.mp hf.2).2⟩
    · rw [nextElement_eq hf.1, nextElement_eq hf.1]
      exact htext ⟨hf.1, (Bool.and_eq_true_iff.mp hf.2).1⟩
  | seq_fails _ ih =>
    obtain ⟨m, hm, -⟩ := Option.bind_eq_some_iff.mp hp
    obtain ⟨a', hp', halike⟩ := ih hm hR
    obtain rfl := halike.of_failed
    exact ⟨_, .seq_fails hp', .failed⟩
  | first _ ih =>
    simp only [Pattern.exit, Option.ite_none_right_eq_some] at hp
    obtain ⟨a', hp', halike⟩ := ih hp.2 hR
    obtain ⟨ts', next', rfl, -⟩ := halike.of_matched
    exact ⟨_, .first hp', halike.imp (fun _ _ h => h) fun hf => ⟨hf.1, (Bool.and_eq_true_iff.mp hf.2).1⟩⟩
  | second _ _ ihp ihq =>
    simp only [Pattern.exit, Option.ite_none_right_eq_some] at hp
    obtain ⟨a', hp', halike⟩ := ihp hp.2 hR
    obtain rfl := halike.of_failed
    obtain ⟨b', hq', halike'⟩ := ihq (hp.1 ▸ hp.2) hR
    exact ⟨_, .second hp' hq', halike'.imp (fun _ _ h => h) fun hf => ⟨hf.1, (Bool.and_eq_true_iff.mp hf.2).2⟩⟩
  | @once_more mode p c next r ts _ _ ihp ihmore =>
    have hwhole := hp
    simp only [Pattern.exit, Option.ite_none_right_eq_some, Option.some.injEq] at hp
    obtain ⟨hbody, rfl⟩ := hp
    obtain ⟨a', hp', halike⟩ := ihp hbody (h.nextElement mode hR)
    obtain ⟨ts', next', rfl, htrees, hnext, htext⟩ := halike.of_matched
    obtain ⟨b', hmore', halike'⟩ := ihmore hwhole hnext
    refine ⟨_, .once_more hp' hmore', halike'.withTrees htrees (fun hf => hf) fun hf => ?_⟩
    rw [nextElement_eq hf.1, nextElement_eq hf.1] at htext
    exact htext hf
  | @no_more mode p c _ ih =>
    simp only [Pattern.exit, Option.ite_none_right_eq_some, Option.some.injEq] at hp
    obtain ⟨hbody, rfl⟩ := hp
    obtain ⟨a', hp', halike⟩ := ih hbody (h.nextElement mode hR)
    obtain rfl := halike.of_failed
    exact ⟨_, .no_more hp', .matched .nil hR fun _ => ⟨[], .refl c, .refl c'⟩⟩
  | @ahead mode p c ts next _ ih =>
    simp only [Pattern.exit, Option.ite_none_right_eq_some, Option.some.injEq] at hp
    obtain ⟨hbody, rfl⟩ := hp
    obtain ⟨m, hm⟩ := Option.isSome_iff_exists.mp hbody
    obtain ⟨a', hp', halike⟩ := ih hm hR
    obtain ⟨ts', next', rfl, -⟩ := halike.of_matched
    exact ⟨_, .ahead hp', .matched .nil hR fun _ => ⟨[], .refl c, .refl c'⟩⟩
  | ahead_fails _ ih =>
    simp only [Pattern.exit, Option.ite_none_right_eq_some, Option.some.injEq] at hp
    obtain ⟨m, hm⟩ := Option.isSome_iff_exists.mp hp.1
    obtain ⟨a', hp', halike⟩ := ih hm hR
    obtain rfl := halike.of_failed
    exact ⟨_, .ahead_fails hp', .failed⟩
  | @notAhead mode p c _ ih =>
    simp only [Pattern.exit, Option.ite_none_right_eq_some, Option.some.injEq] at hp
    obtain ⟨hbody, rfl⟩ := hp
    obtain ⟨m, hm⟩ := Option.isSome_iff_exists.mp hbody
    obtain ⟨a', hp', halike⟩ := ih hm hR
    obtain rfl := halike.of_failed
    exact ⟨_, .notAhead hp', .matched .nil hR fun _ => ⟨[], .refl c, .refl c'⟩⟩
  | notAhead_fails _ ih =>
    simp only [Pattern.exit, Option.ite_none_right_eq_some, Option.some.injEq] at hp
    obtain ⟨m, hm⟩ := Option.isSome_iff_exists.mp hp.1
    obtain ⟨a', hp', halike⟩ := ih hm hR
    obtain ⟨ts', next', rfl, -⟩ := halike.of_matched
    exact ⟨_, .notAhead_fails hp', .failed⟩
  | @rule mode r c next ts hbody ih =>
    simp only [Pattern.exit, Option.ite_none_right_eq_some, Option.some.injEq] at hp
    obtain ⟨hrule, rfl⟩ := hp
    rcases h.rule hrule with ⟨hexit, hflat⟩ | ⟨hmode, hknown⟩
    · obtain ⟨a', hbody', halike⟩ := ih hexit hR
      obtain ⟨ts', next', rfl, htrees, hnext, htext⟩ := halike.of_matched
      refine ⟨_, .rule hbody', .matched (same_ruleTrees mode r htrees fun hr => ?_) hnext nofun⟩
      exact htext ⟨by rw [hr]; decide, hflat hr⟩
    · obtain ⟨a', hbody', halike⟩ := hknown _ _ _ hR hbody
      obtain ⟨ts', next', rfl, htrees, hnext, -⟩ := halike.of_matched
      exact ⟨_, .rule hbody', .matched (same_ruleTrees mode r htrees fun hr => absurd hr hmode) hnext nofun⟩
  | rule_fails hbody ih =>
    simp only [Pattern.exit, Option.ite_none_right_eq_some, Option.some.injEq] at hp
    obtain ⟨hrule, rfl⟩ := hp
    rcases h.rule hrule with ⟨hexit, -⟩ | ⟨-, hknown⟩
    · obtain ⟨a', hbody', halike⟩ := ih hexit hR
      obtain rfl := halike.of_failed
      exact ⟨_, .rule_fails hbody', .failed⟩
    · obtain ⟨a', hbody', halike⟩ := hknown _ _ _ hR hbody
      obtain rfl := halike.of_failed
      exact ⟨_, .rule_fails hbody', .failed⟩

end Grammar.Lockstep

/-! ## One run -/

/-- The property `P` of cursors survives everything that the walk admits. -/
structure Grammar.Keeps (g : Grammar ρ) (W : Walk ρ) (P : Nat → Cursor → Prop) : Prop where
  skip : ∀ {k c}, P k c → P k (g.skip c)
  text : ∀ {k k' s c next}, W.text k s = some k' → P k c → c.read? s.toList = some next → P k' next
  char : ∀ {k accepts x rest pos}, W.char accepts = true → P k ⟨x :: rest, pos⟩ → accepts x = true →
    P k ⟨rest, pos + 1⟩
  rule : ∀ {k r}, W.rule k r = true → (g.body r).exit W k = some k ∨
    ∀ c ts next, P k c → Derives g (g.mode r) (g.body r) c (.matched ts next) → P k next

/-- **A match keeps the property.** -/
theorem Grammar.Keeps.derives {g : Grammar ρ} {W : Walk ρ} {P : Nat → Cursor → Prop} (h : g.Keeps W P)
    {mode : Mode} {p : Pattern ρ} {c next : Cursor} {a : Reply ρ} {ts : List (ParseTree ρ)}
    (hd : Derives g mode p c a) (ha : a = .matched ts next) {k k' : Nat} (hp : p.exit W k = some k')
    (hP : P k c) : P k' next := by
  have hnext : ∀ mode {k c}, P k c → P k (g.nextElement mode c) := by
    intro mode k c hc
    unfold Grammar.nextElement
    split
    · exact h.skip hc
    · exact hc
  induction hd generalizing k k' ts next with
  | empty =>
    cases ha
    cases hp
    exact hP
  | text hread =>
    cases ha
    exact h.text hp hP hread
  | char hx =>
    cases ha
    simp only [Pattern.exit, Option.ite_none_right_eq_some, Option.some.injEq] at hp
    exact hp.2 ▸ h.char hp.1 hP hx
  | seq _ _ ihp ihq =>
    obtain ⟨m, hm, hq⟩ := Option.bind_eq_some_iff.mp hp
    obtain ⟨us, hr, -⟩ := Reply.matched_of_withTrees ha
    exact ihq hr hq (hnext _ (ihp rfl hm hP))
  | first _ ih =>
    simp only [Pattern.exit, Option.ite_none_right_eq_some] at hp
    exact ih ha hp.2 hP
  | second _ _ _ ihq =>
    simp only [Pattern.exit, Option.ite_none_right_eq_some] at hp
    exact ihq ha (hp.1 ▸ hp.2) hP
  | once_more _ _ ihp ihmore =>
    have hwhole := hp
    simp only [Pattern.exit, Option.ite_none_right_eq_some, Option.some.injEq] at hp
    obtain ⟨hbody, rfl⟩ := hp
    obtain ⟨us, hr, -⟩ := Reply.matched_of_withTrees ha
    exact ihmore hr hwhole (ihp rfl hbody (hnext _ hP))
  | no_more | ahead | notAhead =>
    cases ha
    simp only [Pattern.exit, Option.ite_none_right_eq_some, Option.some.injEq] at hp
    exact hp.2 ▸ hP
  | rule hbody ih =>
    cases ha
    simp only [Pattern.exit, Option.ite_none_right_eq_some, Option.some.injEq] at hp
    obtain ⟨hrule, rfl⟩ := hp
    rcases h.rule hrule with hexit | hknown
    · exact ih rfl hexit hP
    · exact hknown _ _ _ hP hbody
  | text_fails | char_fails | seq_fails | ahead_fails | notAhead_fails | rule_fails => cases ha

/-! ## Other places -/

/-- Everything is admitted, and no number is followed. -/
def Walk.free : Walk ρ := ⟨fun k _ => some k, fun _ => true, fun _ _ => true⟩

theorem Pattern.exit_free (p : Pattern ρ) (k : Nat) : p.exit .free k = Option.some k := by
  induction p generalizing k with
  | empty | text | char | rule => rfl
  | seq p q ihp ihq => rw [exit, ihp, Option.bind_some, ihq]
  | choice p q ihp ihq => rw [exit, ihp, ihq, if_pos rfl]
  | many p ih => rw [exit, ih, if_pos rfl]
  | ahead p ih | notAhead p ih => rw [exit, ih, Option.isSome_some, if_pos rfl]

/-- The characters that are left decide everything. -/
theorem Grammar.lockstep_rest {g : Grammar ρ}
    (hskip : ∀ c c', c.rest = c'.rest → (g.skip c).rest = (g.skip c').rest)
    (hflat : ∀ r, g.mode r = .atomic → (g.body r).flat = true) :
    g.Lockstep .free fun _ c c' => c.rest = c'.rest where
  skip h := hskip _ _ h
  text {k k' s c c'} _ h := by
    cases hread : c.read? s.toList with
    | none =>
      refine .inl ⟨rfl, Cursor.read?_eq_none_iff.mpr ?_⟩
      rw [← h]
      exact Cursor.read?_eq_none_iff.mp hread
    | some next =>
      have hpass : c'.Passes s.toList ⟨next.rest, c'.pos + s.toList.length⟩ :=
        ⟨h ▸ (Cursor.Passes.of_read? hread).rest, rfl⟩
      exact .inr ⟨next, _, rfl, hpass.read?, rfl⟩
  char {k accepts c c'} _ h := by
    cases hrest : c.rest with
    | nil => exact .inl ⟨nofun, by rw [← h, hrest]; exact nofun⟩
    | cons x rest =>
      cases hx : accepts x with
      | true => exact .inr ⟨x, rest, rest, hx, rfl, h ▸ hrest, rfl⟩
      | false =>
        have hfails : ∀ y more, x :: rest = y :: more → accepts y = false := by
          rintro y more ⟨⟩
          exact hx
        exact .inl ⟨hfails, by rwa [← h, hrest]⟩
  rule {k r} _ := .inl ⟨(g.body r).exit_free k, hflat r⟩

end ExactScript.Peg
