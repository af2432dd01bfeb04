import ExactScript.Proofs.Correctness
import ExactScript.Proofs.TypeAgreement
import ExactScript.Proofs.TypedOperations

/-!
# Soundness of types

The evaluation of a tree that passes the check keeps to its types: its result is of the type that the check
computed, and every variable keeps holding values of the type of its declaration. One fixed typing of the
symbols carries the induction, since the run may skip branches, repeat loops and call functions in another
order than the one in which the check came by.

What is asked of the tree is that the check joins no types at a loss: what is assigned is covered by the
declaration, the second branch of a conditional by the first, and the right operand of `and` and `or` is
known to be a truth value. In the *strict* case all types are known and nothing is called; then the types
also exclude failures.

## Contents
* `Setting.Holds`, values of types in a program;
* `Setting.Safe`, evaluations that keep to types, and the rules for it;
* `Visit.Fine`, `WellTyped`, what is asked of trees;
* `Expr.safe`, the induction over trees, and `Expr.safe_eval`.
-/

namespace ExactScript

/-! ## Values of types in a program -/

namespace Setting

variable {s : Setting} {Γ : Nat → Ty} {t u : Ty} {v w : Value} {strict : Prop}

/-- The value is of the type. If it is a function, then one of the program, whose own type is at least as
precise. -/
structure Holds (s : Setting) (Γ : Nat → Ty) (t : Ty) (v : Value) : Prop where
  describes : t.Describes v
  answers : ∀ n r f, t = .function n r → v = .function f →
    ∀ site, s.site? f = some site → (Γ site.name.id).refines (.function n r)
  defined : v.Within s.Defines

namespace Holds

theorem any (h : v.Within s.Defines) : s.Holds Γ .any v := ⟨.any v, fun _ _ _ heq => (by cases heq), h⟩

theorem mono (h : s.Holds Γ t v) (htu : t.refines u) : s.Holds Γ u v := by
  cases u with
  | any => exact .any h.defined
  | function n r =>
    obtain ⟨q, rfl, hq⟩ := Ty.of_refines_function htu
    obtain ⟨hdescribes, hanswers, hdefined⟩ := h
    refine ⟨?_, ?_, hdefined⟩
    · cases hdescribes with
      | function harity => exact .function harity
    · intro n' r' f heq hv site hsite
      cases heq
      exact Ty.refines_trans (hanswers n q f rfl hv site hsite) htu
  | _ =>
    obtain rfl := Ty.eq_of_refines rfl htu
    exact h

theorem of_describes (h : t.Describes v) (ht : ∀ n r, t ≠ .function n r) (hd : v.Within s.Defines) :
    s.Holds Γ t v :=
  ⟨h, fun n r _ heq => absurd heq (ht n r), hd⟩

theorem of_resembles (h : s.Holds Γ t v) (hw : w.Resembles v) (hd : w.Within s.Defines) : s.Holds Γ t w where
  describes := h.describes.of_kind hw.1 hw.2
  answers _ _ _ _ heq := absurd (congrArg Value.kind heq) hw.2
  defined := hd

end Holds

end Setting

/-- A result of an operation is of its type, and makes no functions. -/
theorem Fulfils.and_gives {α : Type} {strict : Prop} {P Q : α → Prop} {m : Except RunError α}
    (h : Fulfils strict P m) (hg : Gives Q m) : Fulfils strict (fun a => P a ∧ Q a) m := by
  cases m with
  | ok a => exact ⟨h, hg⟩
  | error e => exact h

/-! ## Safe evaluations -/

/-- The end of an evaluation: a result satisfies `Q`, in a world that satisfies `I`; a failure is excused, if
`strict` holds. -/
def Outcome.Satisfies {α : Type} (I : World → Prop) (strict : Prop) (Q : α → Prop) : Outcome α → Prop
  | .value a w => Q a ∧ I w
  | .failure e _ => strict → e.Excused
  | .unfinished => True

namespace Setting

section Safe

variable (s : Setting) (Γ : Nat → Ty) (strict : Prop)

/-- Every variable holds a value of its type. -/
def Conforms (w : World) : Prop := w.memory.Everywhere fun id v => s.Holds Γ (Γ id) v

/-- **Evaluations that keep to types.** -/
def Safe {α : Type} (ev : Eval α) (Q : α → Prop) : Prop :=
  ∀ w, s.Conforms Γ w → (ev w).Satisfies (s.Conforms Γ) strict Q

end Safe

variable {s : Setting} {Γ : Nat → Ty} {strict : Prop} {α β : Type} {ev : Eval α} {P P' : α → Prop}
  {Q : β → Prop} {x : Symbol} {t : Ty} {v : Value}

theorem conforms_empty (output : String) : s.Conforms Γ { memory := .empty, output } := .empty

namespace Safe

theorem pure {a : α} (h : P a) : s.Safe Γ strict (pure a) P := fun _ hw => ⟨h, hw⟩

theorem unfinished : s.Safe Γ strict (Eval.unfinished : Eval α) P := fun _ _ => trivial

theorem imp (h : s.Safe Γ strict ev P) (hP : ∀ a, P a → P' a) : s.Safe Γ strict ev P' := by
  intro w hw
  have hev := h w hw
  cases hout : ev w with
  | value a w' =>
    rw [hout] at hev
    exact ⟨hP a hev.1, hev.2⟩
  | failure e w' =>
    rw [hout] at hev
    exact hev
  | unfinished => trivial

theorem bind {k : α → Eval β} (h : s.Safe Γ strict ev P) (hk : ∀ a, P a → s.Safe Γ strict (k a) Q) :
    s.Safe Γ strict (ev >>= k) Q := by
  intro w hw
  have hev := h w hw
  show Outcome.Satisfies _ _ _ (match ev w with
    | .value a w => k a w
    | .failure e w => .failure e w
    | .unfinished => .unfinished)
  cases hout : ev w with
  | value a w' =>
    rw [hout] at hev
    exact hk a hev.1 w' hev.2
  | failure e w' =>
    rw [hout] at hev
    exact hev
  | unfinished => trivial

theorem lift {m : Except RunError α} (h : Fulfils strict P m) : s.Safe Γ strict (Eval.lift m) P := by
  cases m with
  | ok a => exact pure h
  | error e => exact fun _ _ => h

theorem fail {e : RunError} (h : strict → e.Excused) : s.Safe Γ strict (Eval.fail e : Eval α) P := fun _ _ => h

theorem load : s.Safe Γ strict (Eval.load x) (s.Holds Γ (Γ x.id)) := by
  intro w hw
  unfold Eval.load
  split
  · next v hv => exact ⟨hw.load hv, hw⟩
  · exact fun _ => RunError.excused_of_namesKind rfl

theorem store (hv : s.Holds Γ (Γ x.id) v) : s.Safe Γ strict (Eval.store x v) fun _ => True :=
  fun _ hw => ⟨trivial, Memory.Everywhere.store hw hv⟩

theorem storeAll {xs : List Symbol} {vs : List Value} (hxs : ∀ x ∈ xs, Γ x.id = .any)
    (hvs : ∀ v ∈ vs, v.Within s.Defines) : s.Safe Γ strict (Eval.storeAll xs vs) fun _ => True := by
  induction xs generalizing vs with
  | nil => exact pure trivial
  | cons x xs ih =>
    cases vs with
    | nil => exact pure trivial
    | cons v vs =>
      obtain ⟨hx, hxs⟩ := List.forall_mem_cons.mp hxs
      obtain ⟨hv, hvs⟩ := List.forall_mem_cons.mp hvs
      exact bind (store (hx ▸ .any hv)) fun _ _ => ih hxs hvs

/-- The test of a branch. -/
theorem truth {sense : Bool} (hv : t.Describes v) (hc : t.compatible .bool) (hs : strict → t.ground) :
    s.Safe Γ strict (Eval.truth sense v) fun b => v = .bool b := by
  unfold Eval.truth
  split
  · exact pure rfl
  · next hno =>
    refine fail fun hstrict => ?_
    cases hv.of_compatible (hs hstrict) rfl hc
    exact absurd rfl (hno _)

theorem leave : s.Safe Γ strict Eval.leave fun _ => True := by
  intro w hw
  unfold Eval.leave
  split
  · next f memory hpop => exact ⟨trivial, Memory.Everywhere.popFrame hw hpop⟩
  · exact fun _ => RunError.excused_of_namesKind rfl

theorem enter {f : FunctionRef} {argc back : Nat} (hs : ¬strict) :
    s.Safe Γ strict (s.enter f argc back) fun _ => f.arity = argc := by
  intro w hw
  unfold Setting.enter
  split
  · exact fun hstrict => absurd hstrict hs
  · next harity =>
    split
    · exact fun hstrict => absurd hstrict hs
    · exact ⟨Decidable.not_not.mp harity, Memory.Everywhere.pushFrame hw _ _⟩

theorem print (vs : List Value) : s.Safe Γ strict (s.print vs) (s.Holds Γ .str) := by
  have hwrite : ∀ line, s.Safe Γ strict (s.write line) fun _ => True := by
    intro line w hw
    unfold Setting.write
    split
    · exact ⟨trivial, hw⟩
    · exact fun _ => RunError.excused_of_namesKind rfl
  exact bind (hwrite _) fun _ _ => pure (.of_describes (.str _) (by simp) (by simp))

/-- One round of a loop. -/
theorem round {test next : Eval Value} {body : Eval β} (htest : s.Safe Γ strict test (s.Holds Γ t))
    (hc : t.compatible .bool) (hs : strict → t.ground) (hbody : s.Safe Γ strict body Q)
    (hnext : s.Safe Γ strict next (s.Holds Γ .unit)) :
    s.Safe Γ strict (Eval.round test body next) (s.Holds Γ .unit) := by
  refine bind htest fun v hv => bind (truth hv.describes hc hs) fun b _ => ?_
  cases b with
  | true => exact bind hbody fun _ _ => hnext
  | false => exact pure (.of_describes .unit (by simp) (by simp))

end Safe

end Setting

/-! ## What is asked of trees -/

open ExactScript.Expr in
/-- What is asked at a visit: nothing is lost where the check joins types, and in the strict case the type is
known and nothing is called. -/
structure Visit.Fine (Γ : Nat → Ty) (strict : Prop) (v : Visit) : Prop where
  keeps : v.Keeps Γ
  branches : ∀ test yes no, v.expr = .cond test yes (some no) →
    ((block yes).typeAt (test.after v.index)).covers ((block no).typeAt (afterAll yes (test.after v.index)))
  operand : ∀ op left right, v.expr = .logical op left right → right.typeAt (left.after v.index) = .bool
  known : strict → v.type.ground
  no_function : strict → ∀ name params body ret, v.expr ≠ .function name params body ret
  no_call : strict → ∀ callee args, v.expr ≠ .call callee args

section Typed

variable {Γ : Nat → Ty} {strict : Prop} {e : Expr Symbol} {es : List (Expr Symbol)} {g g₁ g' : TypeIndex}
  {t : Ty} {ts : List Ty}

open ExactScript.Expr

/-- The tree passes the check with this type, from an index that agrees with the declarations. -/
def WellTyped (Γ : Nat → Ty) (strict : Prop) (e : Expr Symbol) (t : Ty) : Prop :=
  ∃ g g', Agrees Γ g ∧ Checked (Visit.Fine Γ strict) e g g' t

theorem WellTyped.ground (h : WellTyped Γ strict e t) (hs : strict) : t.ground := by
  obtain ⟨g, g', -, h⟩ := h
  have hknown := h.self.known hs
  rwa [Visit.type, h.passes.typeAt_eq] at hknown

/-- The rule of a tree, with the trees right below typed. -/
theorem Checked.typedRule (h : Checked (Visit.Fine Γ strict) e g g' t) (hg : Agrees Γ g) :
    Rule (fun e g g' t => e.Passes g g' t ∧ WellTyped Γ strict e t) e g g' t := by
  refine (rule_of_typing h.passes).imp fun w hw g₁ u hp => ?_
  obtain ⟨⟨g₂, u', hchecked⟩, hagrees⟩ := (h.agrees_and_parts (fun _ hv => hv.keeps) hg).2 w hw
  exact ⟨hp, w.index, g₁, hagrees, ⟨hp, hchecked.visits⟩⟩

theorem forall₂_of_threads {R : Expr Symbol → Ty → Prop} (h : Threads (fun e _ _ t => R e t) es g g' ts) :
    List.Forall₂ R es ts := by
  induction h with
  | nil => exact .nil
  | cons he _ ih => exact .cons he ih

theorem typed_of_threads (h : Threads (fun e g g' t => e.Passes g g' t ∧ WellTyped Γ strict e t) es g g' ts) :
    List.Forall₂ (WellTyped Γ strict) es ts :=
  forall₂_of_threads (h.mono And.right)

theorem ground_of_typed (h : List.Forall₂ (WellTyped Γ strict) es ts) (hs : strict) : ∀ t ∈ ts, t.ground := by
  induction h with
  | nil => exact fun _ h => by cases h
  | cons he _ ih => exact List.forall_mem_cons.mpr ⟨he.ground hs, ih⟩

/-- Every tree right below a typed one is typed. -/
theorem WellTyped.child (h : WellTyped Γ strict e t) {c : Expr Symbol} (hc : c ∈ e.children) :
    ∃ u, WellTyped Γ strict c u := by
  obtain ⟨g, g', hg, h⟩ := h
  obtain ⟨w, hw, rfl⟩ := exists_part hc g
  obtain ⟨⟨g₂, u, hchecked⟩, hagrees⟩ := (h.agrees_and_parts (fun _ hv => hv.keeps) hg).2 w hw
  exact ⟨u, w.index, g₂, hagrees, hchecked⟩

/-! ### Loops and bodies of functions

Where control goes back, the evaluation goes on with trees that the program does not contain: the loop that
is left of a counting loop, and the body of a function as a block. They are typed like the rest. -/

theorem typingBlock_of_threads {last : Ty} (h : Threads Passes es g g' ts) :
    typingBlock last es g = .ok (g', ts.getLastD last) := by
  induction h generalizing last with
  | nil => rfl
  | cons he _ ih =>
    rw [typingBlock, he]
    exact (ih.trans (by rw [List.getLastD_cons]))

theorem passes_block (h : Threads Passes es g g' ts) : (Expr.block es).Passes g g' (blockType ts) :=
  typingBlock_of_threads h

theorem checked_of_threads {P : Visit → Prop} (h : Threads (Checked P) es g g' ts) :
    ∀ w ∈ inTurn g es, w.Checked P := by
  induction h with
  | nil => exact fun _ h => by cases h
  | cons he _ ih =>
    refine List.forall_mem_cons.mpr ⟨⟨_, _, he⟩, ?_⟩
    rwa [he.passes.after_eq]

theorem ground_of_threads (h : Threads (Checked (Visit.Fine Γ strict)) es g g' ts) (hs : strict) :
    (blockType ts).ground := by
  refine blockType_of_forall (P := fun t => t.ground) rfl ?_
  induction h with
  | nil => exact fun _ h => by cases h
  | cons he _ ih =>
    have hknown := he.self.known hs
    rw [Visit.type, he.passes.typeAt_eq] at hknown
    exact List.forall_mem_cons.mpr ⟨hknown, ih⟩

/-- Nothing is asked of a block but what is asked of its statements. -/
theorem checked_block (h : Threads (Checked (Visit.Fine Γ strict)) es g g' ts) :
    Checked (Visit.Fine Γ strict) (.block es) g g' (blockType ts) := by
  have hpasses := passes_block (h.mono Checked.passes)
  refine .of_parts hpasses ⟨⟨by simp [Visit.declares], by simp⟩, by simp, by simp, fun hs => ?_, by simp, by simp⟩
    (checked_of_threads h)
  rw [Visit.type, hpasses.typeAt_eq]
  exact ground_of_threads h hs

/-- The same of a loop. -/
theorem checked_loop {test : Expr Symbol} (ht : Checked (Visit.Fine Γ strict) test g g₁ t)
    (hc : t.compatible .bool) (hb : Threads (Checked (Visit.Fine Γ strict)) es g₁ g' ts) :
    Checked (Visit.Fine Γ strict) (.loop test es) g g' .unit := by
  have hpasses : (Expr.loop test es).Passes g g' .unit := by
    have hcond : requireCondition t = .ok () := if_pos hc
    show (test.typing g >>= fun r => requireCondition r.2 >>= fun _ =>
      typingBlock .unit es r.1 >>= fun r => .ok (r.1, Ty.unit)) = _
    rw [ht.passes]
    show (requireCondition t >>= fun _ => typingBlock .unit es g₁ >>= fun r => .ok (r.1, Ty.unit)) = _
    rw [hcond]
    show (typingBlock .unit es g₁ >>= fun r => .ok (r.1, Ty.unit)) = _
    rw [typingBlock_of_threads (hb.mono Checked.passes)]
    rfl
  refine .of_parts hpasses ⟨⟨by simp [Visit.declares], by simp⟩, by simp, by simp, fun hs => ?_, by simp, by simp⟩ ?_
  · rw [Visit.type, hpasses.typeAt_eq]
    rfl
  · refine List.forall_mem_cons.mpr ⟨⟨g₁, t, ht⟩, ?_⟩
    rw [ht.passes.after_eq]
    exact checked_of_threads hb

theorem typed_block (hg : Agrees Γ g) (h : Threads (Checked (Visit.Fine Γ strict)) es g g' ts) :
    WellTyped Γ strict (.block es) (blockType ts) := ⟨g, g', hg, checked_block h⟩

/-- What is left of a counting loop after its first step. -/
theorem typed_loop_of_count {x : Symbol} {init test advance : Expr Symbol}
    (h : Checked (Visit.Fine Γ strict) (.count x init test advance es) g g' t) (hg : Agrees Γ g) :
    WellTyped Γ strict (.loop test [.block es, advance]) .unit := by
  obtain ⟨-, hparts⟩ := h.agrees_and_parts (fun _ hv => hv.keeps) hg
  cases h.rule with
  | count hi ht hc hb ha =>
    refine ⟨_, g', ?_, checked_loop ht hc (.cons (checked_block hb) (.cons ha .nil))⟩
    refine (hparts ⟨test, _⟩ ?_).2
    simp only [Visit.parts, hi.passes.after_eq, hi.passes.typeAt_eq, inTurn]
    exact List.mem_cons_of_mem _ List.mem_cons_self

/-- The body of a function, with the types of the symbols that it declares. -/
theorem typed_body_of_function {name : Symbol} {params : List Symbol} {body : List (Expr Symbol)}
    {ret : Expr Symbol} (h : Checked (Visit.Fine Γ strict) (.function name params body ret) g g' t)
    (hg : Agrees Γ g) : ∃ r, t = .function params.length r ∧ Γ name.id = t ∧ (∀ p ∈ params, Γ p.id = .any) ∧
      WellTyped Γ strict (.block (body ++ [ret])) r := by
  have hdeclares := h.self.keeps.declares
  simp only [Visit.declares, List.forall_mem_cons, List.forall_mem_map, Visit.type] at hdeclares
  rw [h.passes.typeAt_eq] at hdeclares
  cases h.rule with
  | @function name params body ret g g₁ g₂ ts r hb hr =>
    refine ⟨r, rfl, hdeclares.1, hdeclares.2, ?_⟩
    have hbody := typed_block (hg.bodyIndex hdeclares.1 hdeclares.2) (hb.append (.cons hr .nil))
    simpa [blockType] using hbody

end Typed

/-! ## Functions of the program -/

namespace Setting

variable {s : Setting} {q r : Piece} {i : Nat}

/-- The functions of a piece that stands at `i` are functions of the program. -/
def Hosts (s : Setting) (i : Nat) (q : Piece) : Prop := ∀ site ∈ q.sites i, site ∈ s.functions

theorem hosts_append : s.Hosts i (q ++ r) ↔ s.Hosts i q ∧ s.Hosts (i + q.width) r := by
  rw [Hosts, Piece.sites_append, List.forall_mem_append]
  rfl

@[simp] theorem hosts_ofList (is : List (Instr Nat)) : s.Hosts i (.ofList is) := fun _ h => by cases h

@[simp] theorem hosts_jumping (f : Nat → Instr Nat) : s.Hosts i (.jumping f) := fun _ h => by cases h

theorem hosts_logical {decisive : Bool} :
    s.Hosts i (.logical decisive q r) ↔ s.Hosts i q ∧ s.Hosts (i + q.width + 3) r := by
  simp [Piece.logical, hosts_append]

theorem hosts_cond {u : Piece} : s.Hosts i (.cond q r u) ↔
    s.Hosts i q ∧ s.Hosts (i + q.width + 1) r ∧ s.Hosts (i + q.width + 1 + r.width + 1) u := by
  simp [Piece.cond, hosts_append]

theorem hosts_loop : s.Hosts i (.loop q r) ↔ s.Hosts i q ∧ s.Hosts (i + q.width + 1) r := by
  simp [Piece.loop, hosts_append]

/-- A function of the program is typed, and known by its position. -/
structure TypedSite (s : Setting) (Γ : Nat → Ty) (strict : Prop) (site : FunctionSite) : Prop where
  body : ∃ r, Γ site.name.id = .function site.params.length r ∧ WellTyped Γ strict (.block site.body) r
  params : ∀ p ∈ site.params, Γ p.id = .any
  hosts : s.Hosts (site.entry + site.params.length + 2) (Expr.pieceOfBlock site.body)
  unique : ∀ site' ∈ s.functions, site'.entry = site.entry →
    site'.name.id = site.name.id ∧ site'.params.length = site.params.length

/-- The functions of the program are typed. -/
def TypedFunctions (s : Setting) (Γ : Nat → Ty) (strict : Prop) : Prop :=
  ∀ site ∈ s.functions, s.TypedSite Γ strict site

variable {Γ : Nat → Ty} {strict : Prop} {again : Nat → Expr Symbol → Eval Value} {t u : Ty} {v : Value}
  {args : List Value}

/-- What the evaluation goes on with is safe. -/
def SafeAgain (s : Setting) (Γ : Nat → Ty) (strict : Prop) (again : Nat → Expr Symbol → Eval Value) : Prop :=
  ∀ e t, WellTyped Γ strict e t → ∀ i, s.Hosts i e.piece → s.Safe Γ strict (again i e) (s.Holds Γ t)

/-- A function of the program is of the type of its name. -/
theorem holds_of_site (h : s.TypedFunctions Γ strict) {site : FunctionSite} (hsite : site ∈ s.functions) :
    s.Holds Γ (Γ site.name.id) (.function ⟨site.entry, site.params.length⟩) := by
  obtain ⟨r, hname, -⟩ := (h site hsite).body
  have hfound : ∀ found, s.site? ⟨site.entry, site.params.length⟩ = some found →
      found.name.id = site.name.id ∧ found.params.length = site.params.length := fun found hf =>
    (h site hsite).unique found (of_site? hf).1 (of_site? hf).2
  rw [hname]
  refine ⟨.function rfl, fun n q f heq hv found hf => ?_, Value.within_function.mpr ?_⟩
  · cases heq
    cases hv
    rw [(hfound found hf).1, hname]
    exact Ty.refines_refl _
  · cases hf : s.site? ⟨site.entry, site.params.length⟩ with
    | none => exact absurd (beq_self_eq_true _) (List.find?_eq_none.mp hf site hsite)
    | some found =>
      refine ⟨found, hf, ?_⟩
      rw [FunctionSite.ref, (of_site? hf).2, (hfound found hf).2]

/-- **A call of a value of a type** answers as the type says. -/
theorem safe_call (h : s.TypedFunctions Γ strict) (hagain : s.SafeAgain Γ strict again) (hs : ¬strict)
    (hv : s.Holds Γ t v) (hargs : ∀ a ∈ args, a.Within s.Defines) {back : Nat}
    (ht : t.refines (.function args.length u) ∨ u = .any) :
    s.Safe Γ strict (s.call again v args back) (s.Holds Γ u) := by
  cases v with
  | function f =>
    obtain ⟨site, hsite, rfl⟩ : s.Defines f := Value.within_function.mp hv.defined
    have hmem := (of_site? hsite).1
    obtain ⟨⟨r, hname, hbody⟩, hparams, hhosts, -⟩ := h site hmem
    -- what the type of the value promises is kept by the function that is called
    have hresult : r.refines u := by
      rcases ht with ht | rfl
      · obtain ⟨q, rfl, hq⟩ := Ty.of_refines_function ht
        have hanswer := hv.answers _ _ _ rfl rfl _ hsite
        rw [hname] at hanswer
        obtain ⟨r', heq, hr⟩ := Ty.of_refines_function hanswer
        obtain ⟨-, rfl⟩ := Ty.function.inj heq
        exact Ty.refines_trans hr hq
      · exact Ty.refines_any r
    refine .bind (.enter hs) fun _ _ => ?_
    simp only [hsite]
    refine .bind (.storeAll ?_ ?_) fun _ _ => .bind (.store (holds_of_site h hmem)) fun _ _ =>
      .bind (hagain _ _ hbody _ hhosts) fun v hv => .bind .leave fun _ _ => .pure (hv.mono hresult)
    · exact fun p hp => hparams p (List.mem_reverse.mp hp)
    · exact fun a ha => hargs a (List.mem_reverse.mp ha)
  | _ => exact .fail fun hstrict => absurd hstrict hs

end Setting

/-! ## The induction -/

namespace Setting

variable {s : Setting} {Γ : Nat → Ty} {strict known : Prop} {t : Ty} {v w : Value}

/-- The result of an operation, if that is no function. -/
theorem Safe.operation {m : Except RunError Value} (hf : Fulfils known t.Describes m)
    (hg : Gives (Value.Within s.Defines) m) (hs : strict → known) (ht : ∀ n r, t ≠ .function n r) :
    s.Safe Γ strict (Eval.lift m) (s.Holds Γ t) :=
  .lift (((hf.and_gives hg).imp hs fun _ h => .of_describes h.1 ht h.2))

/-- A collection that is changed stays of the types that it is of. -/
theorem Safe.change {m : Except RunError Value} (hf : Fulfils known (Value.Resembles · v) m)
    (hg : Gives (Value.Within s.Defines) m) (hs : strict → known) :
    s.Safe Γ strict (Eval.lift m) fun r => r.Resembles v ∧ r.Within s.Defines :=
  .lift ((hf.and_gives hg).imp hs fun _ h => h)

end Setting

theorem BinaryOp.resultType_ne_function {op : BinaryOp} {l r t : Ty} (h : op.resultType? l r = some t) (n : Nat)
    (q : Ty) : t ≠ .function n q := by
  rintro rfl
  cases op with
  | add => rcases BinaryOp.of_sumType h with h | h | h <;> cases h.1
  | eq => cases h
  | ne => cases h
  | _ =>
    simp only [resultType?] at h
    split at h <;> cases h

/-- What has elements that can be set. -/
theorem accepts_of_ne_str {t : Ty} (h : accepts [.list, .map, .str] t) (ht : t ≠ .str) :
    accepts [.list, .map] t := by
  cases t <;> first | exact absurd rfl ht | exact h

namespace Expr

section Induction

variable (s : Setting) (Γ : Nat → Ty) (strict : Prop) (again : Nat → Expr Symbol → Eval Value)

/-- What is shown of every tree: its evaluation, and its evaluation as a target whose element is set. -/
structure Safe (e : Expr Symbol) : Prop where
  value : ∀ {t}, WellTyped Γ strict e t → ∀ i, s.Hosts i e.piece →
    s.Safe Γ strict (e.evalWith s again i) (s.Holds Γ t)
  target : ∀ {t k v key value}, WellTyped Γ strict e t → accepts [.list, .map] t →
    (∀ j, s.Hosts j k → s.Safe Γ strict (key j) fun a => a.Within s.Defines) →
    (∀ j, s.Hosts j v → s.Safe Γ strict (value j) fun a => a.Within s.Defines) →
    ∀ i, s.Hosts i (e.pieceOfPut k v) → s.Safe Γ strict (e.evalPut s again i k.width key value) (s.Holds Γ t)

variable {s Γ strict again} {i : Nat} {e : Expr Symbol} {es : List (Expr Symbol)} {t : Ty} {ts : List Ty}

/-- No more than that every function in it is one of the program. -/
theorem Safe.within (h : e.Safe s Γ strict again) (he : ∃ t, WellTyped Γ strict e t) (hi : s.Hosts i e.piece) :
    s.Safe Γ strict (e.evalWith s again i) fun v => v.Within s.Defines := by
  obtain ⟨t, ht⟩ := he
  exact (h.value ht i hi).imp fun _ hv => hv.defined

section Lists

theorem safe_all (h : ∀ e ∈ es, e.Safe s Γ strict again) (ht : ∀ e ∈ es, ∃ t, WellTyped Γ strict e t)
    (hi : s.Hosts i (pieceOfAll es)) :
    s.Safe Γ strict (evalAll s again i es) fun vs => vs.length = es.length ∧ ∀ v ∈ vs, v.Within s.Defines := by
  induction es generalizing i with
  | nil => exact .pure ⟨rfl, by simp⟩
  | cons e es ih =>
    obtain ⟨he, hes⟩ := List.forall_mem_cons.mp h
    obtain ⟨hte, htes⟩ := List.forall_mem_cons.mp ht
    obtain ⟨hie, hies⟩ := Setting.hosts_append.mp hi
    refine .bind (he.within hte hie) fun v hv => .bind (ih hes htes hies) fun vs hvs => .pure ⟨?_, ?_⟩
    · rw [List.length_cons, List.length_cons, hvs.1]
    · exact List.forall_mem_cons.mpr ⟨hv, hvs.2⟩

theorem safe_reversed (h : ∀ e ∈ es, e.Safe s Γ strict again) (ht : List.Forall₂ (WellTyped Γ strict) es ts)
    (hi : s.Hosts i (pieceOfReversed es)) :
    s.Safe Γ strict (evalReversed s again i es) (List.Forall₂ (s.Holds Γ) ts) := by
  induction ht with
  | nil => exact .pure .nil
  | cons hte _ ih =>
    obtain ⟨he, hes⟩ := List.forall_mem_cons.mp h
    obtain ⟨hies, hie⟩ := Setting.hosts_append.mp hi
    exact .bind (ih hes hies) fun vs hvs => .bind (he.value hte _ hie) fun v hv => .pure (.cons hv hvs)

theorem safe_entries {es : List (Expr Symbol × Expr Symbol)}
    (h : ∀ kv ∈ es, kv.1.Safe s Γ strict again ∧ kv.2.Safe s Γ strict again)
    (ht : ∀ kv ∈ es, (∃ t, WellTyped Γ strict kv.1 t) ∧ ∃ t, WellTyped Γ strict kv.2 t)
    (hi : s.Hosts i (pieceOfEntries es)) :
    s.Safe Γ strict (evalEntries s again i es) fun vs => ∀ v ∈ vs, v.Within s.Defines := by
  induction es generalizing i with
  | nil => exact .pure (by simp)
  | cons kv es ih =>
    obtain ⟨⟨hk, hv⟩, hes⟩ := List.forall_mem_cons.mp h
    obtain ⟨⟨htk, htv⟩, htes⟩ := List.forall_mem_cons.mp ht
    obtain ⟨hik, hrest⟩ := Setting.hosts_append.mp hi
    obtain ⟨hiv, hies⟩ := Setting.hosts_append.mp hrest
    exact .bind (hk.within htk hik) fun key hkey => .bind (hv.within htv hiv) fun value hvalue =>
      .bind (ih hes htes hies) fun flat hflat =>
        .pure (List.forall_mem_cons.mpr ⟨hkey, List.forall_mem_cons.mpr ⟨hvalue, hflat⟩⟩)

theorem safe_block (h : ∀ e ∈ es, e.Safe s Γ strict again) (ht : List.Forall₂ (WellTyped Γ strict) es ts)
    (hi : s.Hosts i (pieceOfBlock es)) : s.Safe Γ strict (evalBlock s again i es) (s.Holds Γ (blockType ts)) := by
  induction ht generalizing i with
  | nil => exact .pure (.of_describes .unit (by simp [blockType]) (by simp))
  | @cons e t es ts hte htes ih =>
    obtain ⟨he, hes⟩ := List.forall_mem_cons.mp h
    cases htes with
    | nil => exact he.value hte i hi
    | @cons f u fs us hf hfs =>
      obtain ⟨hie, hrest⟩ := Setting.hosts_append.mp hi
      exact .bind (he.value hte i hie) fun _ _ => ih hes (Setting.hosts_append.mp hrest).2

end Lists

/-- A tree whose element is not set. -/
theorem Safe.of_value (h : ∀ {t}, WellTyped Γ strict e t → ∀ i, s.Hosts i e.piece →
    s.Safe Γ strict (e.evalWith s again i) (s.Holds Γ t)) (he : ∀ i n k v, e.evalPut s again i n k v = .unfinished) :
    e.Safe s Γ strict again where
  value := h
  target _ _ _ _ i _ := by
    rw [he]
    exact .unfinished

/-- The value of a variable is of the declared type, which says at least as much as the index. -/
theorem safe_updated (h : e.Safe s Γ strict again) (ht : WellTyped Γ strict e t) (hi : s.Hosts i e.piece) :
    s.Safe Γ strict (e.evalWith s again i) fun v =>
      s.Holds Γ t v ∧ ∀ x, e = .var x → s.Holds Γ (Γ x.id) v := by
  cases e with
  | var x =>
    obtain ⟨g, g', hg, ht⟩ := ht
    cases ht.rule with
    | var => exact Setting.Safe.load.imp fun v hv => ⟨hv.mono (hg.refines _), fun y hy => by cases hy; exact hv⟩
  | _ => exact (h.value ht i hi).imp fun v hv => ⟨hv, fun x hx => by cases hx⟩

/-- A changed collection may be kept in the variable it came from. -/
theorem safe_restore {v r : Value} (hv : ∀ x, e = .var x → s.Holds Γ (Γ x.id) v) (hr : r.Resembles v)
    (hd : r.Within s.Defines) {P : Value → Prop} (hP : P r) :
    s.Safe Γ strict (Eval.restore e r >>= fun _ => pure r) P := by
  have hrestore : s.Safe Γ strict (Eval.restore e r) fun _ => True := by
    cases e with
    | var x => exact .store ((hv x rfl).of_resembles hr hd)
    | _ => exact .pure trivial
  exact hrestore.bind fun _ _ => .pure hP

/-! ### One construct after the other -/

/-- A variable, also as a target: it is set to the changed collection, which is of the types that the
collection was of. -/
theorem safe_var (x : Symbol) : (var x).Safe s Γ strict again := by
  refine ⟨fun ht i hi => ?_, fun {t k v key value} ht ha hk hv i hi => ?_⟩
  · obtain ⟨g, g', hg, hchecked⟩ := ht
    cases hchecked.rule with
    | var => exact Setting.Safe.load.imp fun v hv => hv.mono (hg.refines x.id)
  · obtain ⟨-, hi⟩ := Setting.hosts_append.mp hi
    obtain ⟨hik, hi⟩ := Setting.hosts_append.mp hi
    obtain ⟨hiv, -⟩ := Setting.hosts_append.mp hi
    have hground := ht.ground
    obtain ⟨g, g', hg, hchecked⟩ := ht
    cases hchecked.rule with
    | var =>
      refine .bind .load fun coll hcoll => .bind (hk _ hik) fun k hk => .bind (hv _ hiv) fun v hv => ?_
      have hput : s.Safe Γ strict (Eval.lift (coll.put k v)) fun r =>
          r.Resembles coll ∧ r.Within s.Defines :=
        .change (fulfils_put (hcoll.mono (hg.refines x.id)).describes ha)
          (gives_put hcoll.defined hv) hground
      refine hput.bind fun r hr => .bind (.store (hcoll.of_resembles hr.1 hr.2)) fun _ _ => .pure ?_
      exact (hcoll.of_resembles hr.1 hr.2).mono (hg.refines x.id)

/-- The right operand decides only if the left one does not, which then is a truth value. -/
theorem safe_logical {op : LogicalOp} {left right : Expr Symbol} (ihl : left.Safe s Γ strict again)
    (ihr : right.Safe s Γ strict again) : (logical op left right).Safe s Γ strict again := by
  refine .of_value (fun ht i hi => ?_) fun _ _ _ _ => rfl
  obtain ⟨g, g', hg, hchecked⟩ := ht
  have hoperand := hchecked.self.operand op left right rfl
  cases hchecked.typedRule hg with
  | logical hl hla hr hra =>
    rw [hl.1.after_eq, hr.1.typeAt_eq] at hoperand
    subst hoperand
    rw [accepts_singleton, Ty.compatible_comm] at hla
    obtain ⟨hil, hir⟩ := Setting.hosts_logical.mp hi
    refine .bind (ihl.value hl.2 i hil) fun v hv => .bind (.truth hv.describes hla hl.2.ground) fun b hb => ?_
    subst hb
    split
    · exact .pure (.of_describes (.bool b) (by simp) (by simp))
    · exact ihr.value hr.2 _ hir

/-- Of a conditional without a second branch nothing is known. With both, the first branch has the type of the
whole, and the second one a type that says more. -/
theorem safe_cond {test : Expr Symbol} {yes : List (Expr Symbol)} {no : Option (List (Expr Symbol))}
    (iht : test.Safe s Γ strict again) (ihy : ∀ e ∈ yes, e.Safe s Γ strict again)
    (ihn : ∀ body ∈ no, ∀ e ∈ body, e.Safe s Γ strict again) : (cond test yes no).Safe s Γ strict again := by
  refine .of_value (fun ht i hi => ?_) fun _ _ _ _ => rfl
  obtain ⟨hit, hiy, hin⟩ := Setting.hosts_cond.mp hi
  obtain ⟨g, g', hg, hchecked⟩ := ht
  have hbranches := hchecked.self.branches test yes
  cases hchecked.typedRule hg with
  | branch ht hc hy =>
    refine .bind (iht.value ht.2 i hit) fun v hv => .bind (.truth hv.describes hc ht.2.ground) fun b _ => ?_
    cases b with
    | true => exact (safe_block ihy (typed_of_threads hy) hiy).imp fun v hv => .any hv.defined
    | false => exact .pure (.any (by simp))
  | branches ht hc hy hn hs =>
    have hcovers := hbranches _ rfl
    have hyes := hy.mono And.left
    have hno := hn.mono And.left
    rw [ht.1.after_eq, (passes_block hyes).typeAt_eq, hyes.afterAll_eq, (passes_block hno).typeAt_eq] at hcovers
    rw [Ty.join_of_covers hcovers]
    refine .bind (iht.value ht.2 i hit) fun v hv => .bind (.truth hv.describes hc ht.2.ground) fun b _ => ?_
    cases b with
    | true => exact safe_block ihy (typed_of_threads hy) hiy
    | false =>
      exact (safe_block (ihn _ rfl) (typed_of_threads hn) hin).imp fun v hv =>
        hv.mono (Ty.covers_iff.mp hcovers).1

/-- After the first round of a counting loop the evaluation goes on with a loop. -/
theorem safe_count (hagain : s.SafeAgain Γ strict again) {x : Symbol} {init test advance : Expr Symbol}
    {body : List (Expr Symbol)} (ihi : init.Safe s Γ strict again) (iht : test.Safe s Γ strict again)
    (iha : advance.Safe s Γ strict again) (ihb : ∀ e ∈ body, e.Safe s Γ strict again) :
    (count x init test advance body).Safe s Γ strict again := by
  refine .of_value (fun ht i hi => ?_) fun _ _ _ _ => rfl
  obtain ⟨g, g', hg, hchecked⟩ := ht
  have hdeclared := hchecked.self.keeps.declares
  have hloop := typed_loop_of_count hchecked hg
  cases hchecked.typedRule hg with
  | count hi' ht hc hb ha =>
    simp only [Visit.declares, List.mem_singleton, forall_eq, hi'.1.typeAt_eq] at hdeclared
    obtain ⟨hii, hi⟩ := Setting.hosts_append.mp hi
    obtain ⟨-, hi⟩ := Setting.hosts_append.mp hi
    obtain ⟨hit, hib⟩ := Setting.hosts_loop.mp hi
    obtain ⟨hib, hrest⟩ := Setting.hosts_append.mp hib
    obtain ⟨-, hia⟩ := Setting.hosts_append.mp hrest
    refine .bind (ihi.value hi'.2 i hii) fun v hv => .bind (.store (hdeclared ▸ hv)) fun _ _ => ?_
    refine .round (iht.value ht.2 _ hit) hc ht.2.ground (Q := fun _ => True) ?_ (hagain _ _ hloop _ ?_)
    · exact .bind (safe_block ihb (typed_of_threads hb) hib) fun _ _ =>
        (iha.value ha.2 _ (Setting.hosts_append.mp hia).1).imp fun _ _ => trivial
    · rwa [piece_loop_of_count]

/-- The changed collection is kept in the variable that it came from, if it came from one. -/
theorem safe_update {op : UpdateOp} {target arg : Expr Symbol} (iht : target.Safe s Γ strict again)
    (iha : arg.Safe s Γ strict again) : (update op target arg).Safe s Γ strict again := by
  refine .of_value (fun ht i hi => ?_) fun _ _ _ _ => rfl
  obtain ⟨hit, hi⟩ := Setting.hosts_append.mp hi
  have hia := (Setting.hosts_append.mp hi).1
  obtain ⟨g, g', hg, hchecked⟩ := ht
  cases hchecked.typedRule hg with
  | extend hop ht ha hl =>
    refine .bind (safe_updated iht ht.2 hit) fun v hv => .bind (iha.value ha.2 _ hia) fun w hw => ?_
    have hresult : s.Safe Γ strict (Eval.lift (op.apply v w)) fun r =>
        (r.kind = .list ∧ v.kind = .list) ∧ r.Within s.Defines :=
      .lift (((fulfils_extend hop hv.1.describes hl).and_gives
        (gives_update op hv.1.defined hw.defined)).imp ht.2.ground fun _ h => h)
    refine hresult.bind fun r hr => safe_restore hv.2 ⟨hr.1.1.trans hr.1.2.symm, by simp [hr.1.1]⟩ hr.2 ?_
    have hlist : Ty.list.Describes r := (Ty.Describes.list []).of_kind hr.1.1 (by simp [hr.1.1])
    exact .of_describes hlist (by simp) hr.2
  | delete ht ha hc =>
    refine .bind (safe_updated iht ht.2 hit) fun v hv => .bind (iha.value ha.2 _ hia) fun w hw => ?_
    refine (Setting.Safe.change (fulfils_delete hv.1.describes hc) (gives_delete hv.1.defined)
      ht.2.ground).bind fun r hr => ?_
    exact safe_restore hv.2 hr.1 hr.2 (hv.1.of_resembles hr.1 hr.2)

/-- Of an element that is set itself nothing is known but that it is a collection. -/
theorem safe_index {target key : Expr Symbol} (iht : target.Safe s Γ strict again)
    (ihk : key.Safe s Γ strict again) : (index target key).Safe s Γ strict again := by
  refine ⟨fun ht i hi => ?_, fun {t k v key' value} ht ha hk hv i hi => ?_⟩
  · obtain ⟨hit, hi⟩ := Setting.hosts_append.mp hi
    have hik := (Setting.hosts_append.mp hi).1
    obtain ⟨g, g', hg, hchecked⟩ := ht
    cases hchecked.typedRule hg with
    | index ht hk hc =>
      refine .bind (iht.value ht.2 i hit) fun v hv => .bind (ihk.value hk.2 _ hik) fun k _ => ?_
      exact .operation (fulfils_find hv.describes hc) (gives_find hv.defined) ht.2.ground
        (by intro n r; split <;> simp)
  · have hground := ht.ground
    obtain ⟨g, g', hg, hchecked⟩ := ht
    cases hchecked.typedRule hg with
    | @index target key g g₁ g' u w ht hkey hc =>
      -- the element is a collection, so nothing is known of it
      have hstr : u ≠ .str := by
        rintro rfl
        simp [accepts, Ty.compatible] at ha
      rw [if_neg hstr] at hground ⊢
      have hs : ¬strict := fun hs => by cases hground hs
      refine (iht.target ht.2 (accepts_of_ne_str hc hstr) (fun j hj => ihk.within ⟨w, hkey.2⟩ hj) (fun j hj => ?_) i hi).imp
        fun v hv => .any hv.defined
      obtain ⟨hjt, hj⟩ := Setting.hosts_append.mp hj
      obtain ⟨hjk, hj⟩ := Setting.hosts_append.mp hj
      obtain ⟨-, hj⟩ := Setting.hosts_append.mp hj
      obtain ⟨hik, hj⟩ := Setting.hosts_append.mp hj
      obtain ⟨hiv, -⟩ := Setting.hosts_append.mp hj
      refine .bind (iht.value ht.2 j hjt) fun outer houter => .bind (ihk.value hkey.2 _ hjk) fun outerKey _ => ?_
      have hfind : s.Safe Γ strict (Eval.lift (outer.find outerKey)) (s.Holds Γ .any) :=
        .operation (Fulfils.of_not hs fun a _ => .any a) (gives_find houter.defined) id (by simp)
      refine hfind.bind fun coll hcoll => .bind (hk _ hik) fun k hk => .bind (hv _ hiv) fun v hv => ?_
      have hput : s.Safe Γ strict (Eval.lift (coll.put k v)) (s.Holds Γ .any) :=
        .operation (Fulfils.of_not hs fun a _ => .any a) (gives_put hcoll.defined hv) id (by simp)
      exact hput.imp fun r hr => hr.defined

theorem safe_slice {target start stop : Expr Symbol} {step : Option (Expr Symbol)}
    (iht : target.Safe s Γ strict again) (ihs : start.Safe s Γ strict again)
    (ihp : stop.Safe s Γ strict again) (ihst : ∀ e ∈ step, e.Safe s Γ strict again) :
    (slice target start stop step).Safe s Γ strict again := by
  refine .of_value (fun ht i hi => ?_) fun _ _ _ _ => rfl
  obtain ⟨hit, hi⟩ := Setting.hosts_append.mp hi
  obtain ⟨his, hi⟩ := Setting.hosts_append.mp hi
  obtain ⟨hip, hi⟩ := Setting.hosts_append.mp hi
  have hist := (Setting.hosts_append.mp hi).1
  have hwhole := ht
  obtain ⟨g, g', hg, hchecked⟩ := ht
  cases hchecked.typedRule hg with
  | slice ht hc hs ha hp hb hst hn =>
    refine .bind (iht.value ht.2 i hit) fun v hv => .bind (ihs.value hs.2 _ his) fun v₁ _ =>
      .bind (ihp.value hp.2 _ hip) fun v₂ _ => .bind (P := fun _ => True) ?_ fun v₃ _ => ?_
    · cases step with
      | none => exact .pure trivial
      | some e =>
        exact ((ihst e rfl).within (hwhole.child (by simp [children])) hist).imp fun _ _ => trivial
    · exact .operation (fulfils_sliced hv.describes hc) gives_sliced ht.2.ground (by simp)

/-- A definition stores a function of the program, which is of the type of its name. -/
theorem safe_function (h : s.TypedFunctions Γ strict) (name : Symbol) (params : List Symbol)
    (body : List (Expr Symbol)) (ret : Expr Symbol) : (function name params body ret).Safe s Γ strict again := by
  refine .of_value (fun ht i hi => ?_) fun _ _ _ _ => rfl
  obtain ⟨g, g', hg, hchecked⟩ := ht
  obtain ⟨r, rfl, hname, -⟩ := typed_body_of_function hchecked hg
  have hsite := Setting.holds_of_site h (hi _ List.mem_cons_self)
  exact .bind (.store hsite) fun _ _ => .pure (hname ▸ hsite)

/-- What is called is of the type that the index has for its name after the arguments. -/
theorem safe_calling (h : s.TypedFunctions Γ strict) (hagain : s.SafeAgain Γ strict again) {callee : Symbol}
    {args : List (Expr Symbol)} (iha : ∀ e ∈ args, e.Safe s Γ strict again) :
    (call callee args).Safe s Γ strict again := by
  refine .of_value (fun ht i hi => ?_) fun _ _ _ _ => rfl
  have hwhole := ht
  obtain ⟨g, g', hg, hchecked⟩ := ht
  have hs : ¬strict := fun hs => hchecked.self.no_call hs callee args rfl
  refine .bind (safe_all iha (fun e he => hwhole.child he) (Setting.hosts_append.mp hi).1) fun vs hvs =>
    .bind .load fun f hf => Setting.safe_call h hagain hs hf hvs.2 ?_
  have hend := (hchecked.agrees (fun _ hv => hv.keeps) hg).refines callee.id
  cases hchecked.rule with
  | call ha hret =>
    rw [hret] at hend
    exact .inl (hvs.1.symm ▸ hend)
  | callAny => exact .inr rfl

/-- **The induction.** -/
theorem safe (h : s.TypedFunctions Γ strict) (hagain : s.SafeAgain Γ strict again) (e : Expr Symbol) :
    e.Safe s Γ strict again := by
  induction e using induct with
  | literal l =>
    refine .of_value (fun ht i hi => ?_) fun _ _ _ _ => rfl
    obtain ⟨g, g', -, hchecked⟩ := ht
    cases hchecked.rule with
    | literal => exact .pure (.of_describes (describes_literal l) (by cases l <;> simp [Literal.type]) (by simp))
  | var x => exact safe_var x
  | declare x value ihv =>
    refine .of_value (fun ht i hi => ?_) fun _ _ _ _ => rfl
    obtain ⟨g, g', hg, hchecked⟩ := ht
    have hdeclared := hchecked.self.keeps.declares
    cases hchecked.typedRule hg with
    | declare hv =>
      simp only [Visit.declares, List.mem_singleton, forall_eq, hv.1.typeAt_eq] at hdeclared
      refine .bind (ihv.value hv.2 i (Setting.hosts_append.mp hi).1) fun v hv => ?_
      exact .bind (.store (hdeclared ▸ hv)) fun _ _ => .pure hv
  | assign x value ihv =>
    refine .of_value (fun ht i hi => ?_) fun _ _ _ _ => rfl
    obtain ⟨g, g', hg, hchecked⟩ := ht
    obtain ⟨-, hcovers⟩ := hchecked.self.keeps.assigns x value rfl
    cases hchecked.typedRule hg with
    | assign hv hc =>
      rw [hv.1.typeAt_eq] at hcovers
      refine .bind (ihv.value hv.2 i (Setting.hosts_append.mp hi).1) fun v hv => ?_
      exact .bind (.store (hv.mono (Ty.covers_iff.mp hcovers).1)) fun _ _ => .pure hv
  | letIn x value body ihv ihb =>
    refine .of_value (fun ht i hi => ?_) fun _ _ _ _ => rfl
    obtain ⟨g, g', hg, hchecked⟩ := ht
    have hdeclared := hchecked.self.keeps.declares
    cases hchecked.typedRule hg with
    | letIn hv hb =>
      simp only [Visit.declares, List.mem_singleton, forall_eq, hv.1.typeAt_eq] at hdeclared
      obtain ⟨hiv, hi⟩ := Setting.hosts_append.mp hi
      refine .bind (ihv.value hv.2 i hiv) fun v hv => .bind (.store (hdeclared ▸ hv)) fun _ _ => ?_
      exact ihb.value hb.2 _ (Setting.hosts_append.mp hi).2
  | unary op operand iho =>
    refine .of_value (fun ht i hi => ?_) fun _ _ _ _ => rfl
    obtain ⟨g, g', hg, hchecked⟩ := ht
    cases hchecked.typedRule hg with
    | unary ho ha =>
      refine .bind (iho.value ho.2 i (Setting.hosts_append.mp hi).1) fun v hv => ?_
      exact .operation (fulfils_unary op hv.describes ha) (gives_unary op v) ho.2.ground
        (by cases op <;> simp [UnaryOp.type])
  | binary op left right ihl ihr =>
    refine .of_value (fun ht i hi => ?_) fun _ _ _ _ => rfl
    obtain ⟨g, g', hg, hchecked⟩ := ht
    cases hchecked.typedRule hg with
    | binary hl hr ht =>
      obtain ⟨hil, hi⟩ := Setting.hosts_append.mp hi
      refine .bind (ihl.value hl.2 i hil) fun v hv =>
        .bind (ihr.value hr.2 _ (Setting.hosts_append.mp hi).1) fun w hw => ?_
      exact .operation (fulfils_binary hv.describes hw.describes ht) (gives_binary op v w)
        (fun hs => ⟨hl.2.ground hs, hr.2.ground hs⟩) (BinaryOp.resultType_ne_function ht)
  | logical _ _ _ ihl ihr => exact safe_logical ihl ihr
  | block body ihb =>
    refine .of_value (fun ht i hi => ?_) fun _ _ _ _ => rfl
    obtain ⟨g, g', hg, hchecked⟩ := ht
    cases hchecked.typedRule hg with
    | block hb => exact safe_block ihb (typed_of_threads hb) hi
  | cond _ _ _ iht ihy ihn => exact safe_cond iht ihy ihn
  | loop test body iht ihb =>
    refine .of_value (fun ht i hi => ?_) fun _ _ _ _ => rfl
    have hwhole := ht
    obtain ⟨g, g', hg, hchecked⟩ := ht
    cases hchecked.typedRule hg with
    | loop ht hc hb =>
      obtain ⟨hit, hib⟩ := Setting.hosts_loop.mp hi
      exact .round (iht.value ht.2 i hit) hc ht.2.ground
        (safe_block ihb (typed_of_threads hb) (Setting.hosts_append.mp hib).1) (hagain _ _ hwhole i hi)
  | count _ _ _ _ _ ihi iht iha ihb => exact safe_count hagain ihi iht iha ihb
  | print args iha =>
    refine .of_value (fun ht i hi => ?_) fun _ _ _ _ => rfl
    obtain ⟨g, g', hg, hchecked⟩ := ht
    cases hchecked.typedRule hg with
    | print ha =>
      exact .bind (safe_reversed iha (typed_of_threads ha) (Setting.hosts_append.mp hi).1) fun vs _ => .print vs
  | list elems ihe =>
    refine .of_value (fun ht i hi => ?_) fun _ _ _ _ => rfl
    have hwhole := ht
    obtain ⟨g, g', hg, hchecked⟩ := ht
    cases hchecked.rule with
    | list =>
      refine .bind (safe_all ihe (fun e he => hwhole.child he) (Setting.hosts_append.mp hi).1) fun vs hvs => ?_
      exact .pure (.of_describes (.list vs) (by simp) (Value.within_list.mpr hvs.2))
  | fill value size ihv ihs =>
    refine .of_value (fun ht i hi => ?_) fun _ _ _ _ => rfl
    obtain ⟨g, g', hg, hchecked⟩ := ht
    cases hchecked.typedRule hg with
    | fill hv hs hn =>
      obtain ⟨hiv, hi⟩ := Setting.hosts_append.mp hi
      refine .bind (ihv.value hv.2 i hiv) fun v hv =>
        .bind (ihs.value hs.2 _ (Setting.hosts_append.mp hi).1) fun n hn' => ?_
      exact .operation (fulfils_filled hn'.describes hn) (gives_filled hv.defined) hs.2.ground (by simp)
  | map entries ihe =>
    refine .of_value (fun ht i hi => ?_) fun _ _ _ _ => rfl
    have hwhole := ht
    obtain ⟨g, g', hg, hchecked⟩ := ht
    cases hchecked.rule with
    | map =>
      refine .bind (safe_entries ihe (fun kv hkv => ?_) (Setting.hosts_append.mp hi).1) fun flat hflat => ?_
      · exact ⟨hwhole.child (List.mem_flatMap.mpr ⟨kv, hkv, by simp⟩),
          hwhole.child (List.mem_flatMap.mpr ⟨kv, hkv, by simp⟩)⟩
      · exact .operation (fulfils_ofFlat flat) (gives_ofFlat hflat) id (by simp)
  | query op target iht =>
    refine .of_value (fun ht i hi => ?_) fun _ _ _ _ => rfl
    obtain ⟨g, g', hg, hchecked⟩ := ht
    cases hchecked.typedRule hg with
    | query ht ha =>
      refine .bind (iht.value ht.2 i (Setting.hosts_append.mp hi).1) fun v hv => ?_
      exact .operation (fulfils_query op hv.describes ha) (gives_query op hv.defined) ht.2.ground
        (by cases op <;> simp [QueryOp.resultType])
  | update _ _ _ iht iha => exact safe_update iht iha
  | index _ _ iht ihk => exact safe_index iht ihk
  | put target key value iht ihk ihv =>
    refine .of_value (fun ht i hi => ?_) fun _ _ _ _ => rfl
    obtain ⟨g, g', hg, hchecked⟩ := ht
    cases hchecked.typedRule hg with
    | put ht hk hv hc =>
      exact iht.target ht.2 hc (fun j hj => ihk.within ⟨_, hk.2⟩ hj) (fun j hj => ihv.within ⟨_, hv.2⟩ hj) i hi
  | concat parts ihp =>
    refine .of_value (fun ht i hi => ?_) fun _ _ _ _ => rfl
    obtain ⟨g, g', hg, hchecked⟩ := ht
    cases hchecked.typedRule hg with
    | concat hp hs =>
      have hts := typed_of_threads hp
      refine .bind (safe_reversed ihp hts (Setting.hosts_append.mp hi).1) fun vs hvs => ?_
      refine .operation (fulfils_concat (hvs.imp fun _ _ hv => hv.describes) hs) (gives_concat vs)
        (ground_of_typed hts) (by simp)
  | slice _ _ _ _ iht ihs ihp ihst => exact safe_slice iht ihs ihp ihst
  | function name params body ret _ _ => exact safe_function h name params body ret
  | call _ _ iha => exact safe_calling h hagain iha

/-- **Evaluation keeps to types**, however much fuel there is. -/
theorem safe_eval (h : s.TypedFunctions Γ strict) (fuel : Nat) : s.SafeAgain Γ strict (eval s fuel) := by
  induction fuel with
  | zero => exact fun e t ht i hi => (safe h (fun _ _ _ _ _ => .unfinished) e).value ht i hi
  | succ fuel ih => exact fun e t ht i hi => (safe h ih e).value ht i hi

end Induction

end Expr

end ExactScript
