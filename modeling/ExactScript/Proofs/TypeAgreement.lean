import ExactScript.Proofs.TypeChecking

/-!
# Variables keep their types

The index changes while a tree is checked, and functions are checked before the variables around them
have got their last types. What does not change is the type of the declaration of each symbol. Where
assignments agree with the declarations, every index that the check comes with agrees with them too, so
each visit can be read with one fixed typing of the symbols instead of an index.

## Contents
* `Checked`, a tree that passes the check and whose visits satisfy a property;
* `Visit.Preserves`, and `Checked.invariant_and_parts`, invariants of the index;
* `Checked.visited`, what holds of every visit;
* `Agrees`, an index that says no more than the declarations, and `Visit.Keeps`, when this is kept.
-/

namespace ExactScript

namespace Expr

variable {β : Type}

theorem map_expr_inTurn (g : TypeIndex) (es : List (Expr Symbol)) : (inTurn g es).map Visit.expr = es := by
  induction es generalizing g with
  | nil => rfl
  | cons e es ih => rw [inTurn, List.map_cons, ih]

/-- The visits right below are visits of the trees right below. -/
theorem expr_mem_children {v w : Visit} (hw : w ∈ v.parts) : w.expr ∈ v.expr.children := by
  have hseq : ∀ {g es}, w ∈ inTurn g es → w.expr ∈ es := fun {g es} h =>
    map_expr_inTurn g es ▸ List.mem_map_of_mem h
  obtain ⟨e, g⟩ := v
  cases e with
  | letIn => simp only [Visit.parts, children, List.mem_cons] at hw ⊢; grind
  | count x init test advance body =>
    rcases List.mem_cons.mp hw with rfl | hw
    · simp [children]
    · have hmem := hseq hw
      simp only [children, List.mem_cons, List.mem_append, List.not_mem_nil, or_false] at hmem ⊢
      grind
  | function name params body ret => exact hseq (g := bodyIndex name params g) hw
  | _ => exact hseq (g := g) hw

/-- Each of the trees right below is visited. -/
theorem exists_part {e c : Expr Symbol} (hc : c ∈ e.children) (g : TypeIndex) :
    ∃ w ∈ (Visit.mk e g).parts, w.expr = c := by
  have hseq : ∀ {g es}, c ∈ es → ∃ w ∈ inTurn g es, w.expr = c := fun {g es} h => by
    rw [← map_expr_inTurn g es] at h
    exact List.mem_map.mp h
  cases e with
  | letIn x value body => simp only [children, Visit.parts, List.mem_cons] at hc ⊢; grind
  | count x init test advance body =>
    simp only [children, List.mem_cons] at hc
    rcases hc with rfl | hc
    · exact ⟨_, List.mem_cons_self, rfl⟩
    · have hloop : c ∈ test :: (body ++ [advance]) := by
        simp only [List.mem_cons, List.mem_append]
        grind
      obtain ⟨w, hw, hwc⟩ := hseq (g := (init.after g).insert x.id (init.typeAt g)) hloop
      exact ⟨w, List.mem_cons_of_mem _ hw, hwc⟩
  | function name params body ret => exact hseq (g := bodyIndex name params g) hc
  | _ => exact hseq (g := g) hc

/-- The visits of a part are visits of the tree. -/
theorem mem_visits_trans {e : Expr Symbol} {g : TypeIndex} {v w : Visit} (hv : v ∈ e.visits g)
    (hw : w ∈ v.expr.visits v.index) : w ∈ e.visits g := by
  induction e using induct_children generalizing g with
  | h e ih =>
  rcases mem_visits_iff.mp hv with rfl | ⟨u, hu, hv⟩
  · exact hw
  · exact mem_visits_iff.mpr (.inr ⟨u, hu, ih u.expr (expr_mem_children hu) hv⟩)

end Expr

/-! ## Trees that pass -/

open ExactScript.Expr in
/-- How the index gets from one tree to the next. Most constructs check the trees right below one after the
other, and leave the index that these lead to. -/
inductive Shape (R : Expr Symbol → TypeIndex → TypeIndex → Ty → Prop) :
    Expr Symbol → TypeIndex → TypeIndex → Ty → Prop
  | inert {e g g' t ts} (hp : (Visit.mk e g).parts = inTurn g e.children)
    (hc : Threads R e.children g g' ts) : Shape R e g g' t
  | declare {x value g g₁ t} (hv : R value g g₁ t) : Shape R (.declare x value) g (g₁.insert x.id t) t
  | assign {x value g g₁ t} (hv : R value g g₁ t) :
    Shape R (.assign x value) g (g₁.insert x.id ((g₁.typeOf x.id).join t)) t
  | letIn {x value body g g₁ g' s t} (hv : R value g g₁ s) (hb : R body (g₁.insert x.id s) g' t) :
    Shape R (.letIn x value body) g g' t
  | count {x init test advance body g g₁ g' s t ts} (hi : R init g g₁ s)
    (hr : Threads R (test :: (body ++ [advance])) (g₁.insert x.id s) g' ts) :
    Shape R (.count x init test advance body) g g' t
  | function {name params body ret g g₁ ts r}
    (hb : Threads R (body ++ [ret]) (bodyIndex name params g) g₁ ts) :
    Shape R (.function name params body ret) g (g.insert name.id (.function params.length r))
      (.function params.length r)

section Checked

variable {R : Expr Symbol → TypeIndex → TypeIndex → Ty → Prop} {P : Visit → Prop} {e c : Expr Symbol}
  {es fs : List (Expr Symbol)} {g g₁ g' : TypeIndex} {t : Ty} {ts us : List Ty} {v w : Visit}

open ExactScript.Expr

/-- The tree passes the check, and all of its visits satisfy `P`. -/
structure Checked (P : Visit → Prop) (e : Expr Symbol) (g g' : TypeIndex) (t : Ty) : Prop where
  passes : e.Passes g g' t
  visits : ∀ v ∈ e.visits g, P v

/-- The same of a visit. -/
def Visit.Checked (P : Visit → Prop) (v : Visit) : Prop := ∃ g' t, ExactScript.Checked P v.expr v.index g' t

namespace Checked

theorem self (h : Checked P e g g' t) : P ⟨e, g⟩ := h.visits _ (mem_visits_iff.mpr (.inl rfl))

theorem rule (h : Checked P e g g' t) : Rule (Checked P) e g g' t :=
  (rule_of_typing h.passes).imp fun w hw _ _ hp =>
    ⟨hp, fun v hv => h.visits v (mem_visits_iff.mpr (.inr ⟨w, hw, hv⟩))⟩

theorem of_parts (hp : e.Passes g g' t) (hself : P ⟨e, g⟩) (hparts : ∀ w ∈ (Visit.mk e g).parts, w.Checked P) :
    Checked P e g g' t := by
  refine ⟨hp, fun v hv => ?_⟩
  rcases mem_visits_iff.mp hv with rfl | ⟨w, hw, hv⟩
  · exact hself
  · obtain ⟨_, _, hw⟩ := hparts w hw
    exact hw.visits v hv

end Checked

theorem Shape.of_rule (h : Rule R e g g' t) : Shape R e g g' t := by
  cases h with
  | literal => exact .inert rfl .nil
  | var => exact .inert rfl .nil
  | declare hv => exact .declare hv
  | assign hv hc => exact .assign hv
  | letIn hv hb => exact .letIn hv hb
  | unary ho ha => exact .inert rfl (.cons ho .nil)
  | binary hl hr ht => exact .inert rfl (.cons hl (.cons hr .nil))
  | logical hl hla hr hra => exact .inert rfl (.cons hl (.cons hr .nil))
  | block hb => exact .inert rfl hb
  | branch ht hc hy => exact .inert rfl (.cons ht (hy.append .nil))
  | branches ht hc hy hn hs => exact .inert rfl (.cons ht (hy.append hn))
  | loop ht hc hb => exact .inert rfl (.cons ht hb)
  | count hi ht hc hb ha => exact .count hi (.cons ht (hb.append (.cons ha .nil)))
  | print ha => exact .inert rfl ha
  | list he => exact .inert rfl he
  | fill hv hs hn => exact .inert rfl (.cons hv (.cons hs .nil))
  | map he => exact .inert rfl he
  | query ht ha => exact .inert rfl (.cons ht .nil)
  | extend hop ht ha hl => exact .inert rfl (.cons ht (.cons ha .nil))
  | delete ht ha hc => exact .inert rfl (.cons ht (.cons ha .nil))
  | index ht hk hc => exact .inert rfl (.cons ht (.cons hk .nil))
  | put ht hk hv hc => exact .inert rfl (.cons ht (.cons hk (.cons hv .nil)))
  | concat hp hs => exact .inert rfl hp
  | slice ht hc hs ha hp hb hst hn => exact .inert rfl (.cons ht (.cons hs (.cons hp hst)))
  | function hb hr => exact .function (hb.append (.cons hr .nil))
  | call ha hf => exact .inert rfl ha
  | callAny ha hf => exact .inert rfl ha

theorem Checked.shape (h : Checked P e g g' t) : Shape (Checked P) e g g' t := .of_rule h.rule

variable {tree : List (Expr Symbol)}

/-- The trees of a program that is checked. -/
theorem threads_of_typeIndex (h : typeIndex tree = .ok g) : ∃ ts, Threads Passes tree .empty g ts := by
  obtain ⟨⟨g', t⟩, htyping, h⟩ := of_bind_ok h
  cases h
  obtain ⟨ts, hts, -⟩ := threads_of_typingBlock htyping
  exact ⟨ts, hts⟩

/-- What holds of every visit of a program can be added to the check of its trees. -/
theorem checked_of_visits {P : Visit → Prop} (h : Threads Passes tree .empty g ts)
    (hP : ∀ v ∈ programVisits tree, P v) : Threads (Checked P) tree .empty g ts :=
  h.imp fun w hw _ _ hp => ⟨hp, fun v hv => hP v (mem_visitsOfAll.mpr ⟨w, hw, hv⟩)⟩

end Checked

/-! ## Invariants of the index -/

section Invariants

variable {I : TypeIndex → Prop} {P : Visit → Prop} {e : Expr Symbol} {es : List (Expr Symbol)}
  {g g' : TypeIndex} {t : Ty} {ts : List Ty} {v w : Visit}

open ExactScript.Expr

/-- The changes of the index at this visit keep the invariant. -/
structure Visit.Preserves (I : TypeIndex → Prop) (v : Visit) : Prop where
  declares : I v.index → ∀ d ∈ v.declares, ∀ g, I g → I (g.insert d.1 d.2)
  assigns : I v.index → ∀ x value, v.expr = .assign x value → I (value.after v.index) →
    I ((value.after v.index).insert x.id (((value.after v.index).typeOf x.id).join (value.typeAt v.index)))
  enters : I v.index → ∀ name params body ret r, v.expr = .function name params body ret →
    v.type = .function params.length r → I (bodyIndex name params v.index)

/-- Trees one after the other keep the invariant, if each of them does. -/
theorem invariant_of_threads (h : Threads (Checked P) es g g' ts)
    (ih : ∀ e ∈ es, ∀ {g g' t}, Checked P e g g' t → I g → I g') (hg : I g) :
    I g' ∧ ∀ w ∈ inTurn g es, w.Checked P ∧ I w.index := by
  induction h with
  | nil => exact ⟨hg, fun _ h => by cases h⟩
  | cons he _ ihs =>
    obtain ⟨hhead, htail⟩ := List.forall_mem_cons.mp ih
    obtain ⟨hend, hrest⟩ := ihs htail (hhead he hg)
    refine ⟨hend, List.forall_mem_cons.mpr ⟨⟨⟨_, _, he⟩, hg⟩, ?_⟩⟩
    rwa [he.passes.after_eq]

namespace Checked

variable (hP : ∀ v, P v → v.Preserves I)

include hP

/-- **The check keeps the invariant**, and comes to every part with an index that satisfies it. -/
theorem invariant_and_parts (h : Checked P e g g' t) (hg : I g) :
    I g' ∧ ∀ w ∈ (Visit.mk e g).parts, w.Checked P ∧ I w.index := by
  induction e using induct_children generalizing g g' t with
  | h e ih =>
  have hpreserves := hP _ h.self
  cases h.shape with
  | inert hparts hc =>
    rw [hparts]
    exact invariant_of_threads hc (fun c hmem => fun hc hg => (ih c hmem hc hg).1) hg
  | @declare x value g g₁ t hv =>
    have hdeclares := hpreserves.declares hg (x.id, value.typeAt g) (by simp [Visit.declares])
    simp only [hv.passes.typeAt_eq] at hdeclares
    refine ⟨hdeclares _ (ih value (by simp [children]) hv hg).1, ?_⟩
    simpa [Visit.parts, children, inTurn] using ⟨⟨_, _, hv⟩, hg⟩
  | @assign x value g g₁ t hv =>
    have hassigns := hpreserves.assigns hg x value rfl
    simp only [hv.passes.typeAt_eq, hv.passes.after_eq] at hassigns
    refine ⟨hassigns (ih value (by simp [children]) hv hg).1, ?_⟩
    simpa [Visit.parts, children, inTurn] using ⟨⟨_, _, hv⟩, hg⟩
  | @letIn x value body g g₁ g' s t hv hb =>
    have hdeclares := hpreserves.declares hg (x.id, value.typeAt g) (by simp [Visit.declares])
    simp only [hv.passes.typeAt_eq] at hdeclares
    have hg₁ := hdeclares _ (ih value (by simp [children]) hv hg).1
    refine ⟨(ih body (by simp [children]) hb hg₁).1, ?_⟩
    simp only [Visit.parts, List.mem_cons, List.not_mem_nil, or_false, forall_eq_or_imp, forall_eq,
      hv.passes.after_eq, hv.passes.typeAt_eq]
    exact ⟨⟨⟨_, _, hv⟩, hg⟩, ⟨_, _, hb⟩, hg₁⟩
  | @count x init test advance body g g₁ g' s t ts hi hr =>
    have hdeclares := hpreserves.declares hg (x.id, init.typeAt g) (by simp [Visit.declares])
    simp only [hi.passes.typeAt_eq] at hdeclares
    have hg₁ := hdeclares _ (ih init (by simp [children]) hi hg).1
    obtain ⟨hend, hrest⟩ := invariant_of_threads hr (fun c hmem => fun hc hg => (ih c (by
      simp only [List.mem_cons, List.mem_append, List.not_mem_nil, or_false] at hmem
      simp only [children, List.mem_cons]
      grind) hc hg).1) hg₁
    refine ⟨hend, ?_⟩
    simp only [Visit.parts, hi.passes.after_eq, hi.passes.typeAt_eq]
    exact List.forall_mem_cons.mpr ⟨⟨⟨_, _, hi⟩, hg⟩, hrest⟩
  | @function name params body ret g g₁ ts r hb =>
    have hdeclares := hpreserves.declares hg (name.id, .function params.length r)
      (by simp [Visit.declares, Visit.type, h.passes.typeAt_eq])
    refine ⟨hdeclares _ hg, ?_⟩
    exact (invariant_of_threads hb (fun c hmem => fun hc hg => (ih c hmem hc hg).1)
      (hpreserves.enters hg name params body ret r rfl h.passes.typeAt_eq)).2

theorem invariant (h : Checked P e g g' t) (hg : I g) : I g' := (h.invariant_and_parts hP hg).1

/-- **Every part of a tree that passes the check passes it**, with an index that satisfies the invariant. -/
theorem visited (h : Checked P e g g' t) (hg : I g) (hv : v ∈ e.visits g) : v.Checked P ∧ I v.index := by
  induction e using induct_children generalizing g g' t with
  | h e ih =>
  rcases mem_visits_iff.mp hv with rfl | ⟨w, hw, hv⟩
  · exact ⟨⟨g', t, h⟩, hg⟩
  · obtain ⟨⟨g₂, u, hchecked⟩, hinvariant⟩ := (h.invariant_and_parts hP hg).2 w hw
    exact ih w.expr (expr_mem_children hw) hchecked hinvariant hv

end Checked

/-- **The same of the visits of a program.** -/
theorem visited_of_program {tree : List (Expr Symbol)} (hP : ∀ v, P v → v.Preserves I)
    (h : Threads (Checked P) tree .empty g ts) (hempty : I .empty) (hv : v ∈ programVisits tree) :
    v.Checked P ∧ I v.index := by
  obtain ⟨w, hw, hv⟩ := mem_visitsOfAll.mp hv
  obtain ⟨⟨g₁, t, hchecked⟩, hinvariant⟩ :=
    (invariant_of_threads h (fun _ _ => fun hc hg => hc.invariant hP hg) hempty).2 w hw
  exact hchecked.visited hP hinvariant hv

end Invariants

/-! ## Agreement -/

section Agreement

variable {Γ : Nat → Ty} {P : Visit → Prop} {e : Expr Symbol} {g g' : TypeIndex} {t : Ty} {v : Visit} {id : Nat}

open ExactScript.Expr

/-- What the index says of an id holds of the declared type. -/
def Agrees (Γ : Nat → Ty) (g : TypeIndex) : Prop := ∀ id t, g.get? id = some t → t.covers (Γ id)

namespace Agrees

theorem empty : Agrees Γ .empty := fun _ _ h => by cases h

theorem insert (hg : Agrees Γ g) (ht : t.covers (Γ id)) : Agrees Γ (g.insert id t) := by
  intro j u hj
  by_cases h : j = id
  · subst h
    rw [IdMap.get?_insert_self] at hj
    cases hj
    exact ht
  · rw [IdMap.get?_insert_of_ne _ h] at hj
    exact hg j u hj

theorem refines (hg : Agrees Γ g) (id : Nat) : (Γ id).refines (g.typeOf id) := by
  unfold TypeIndex.typeOf
  cases h : g.get? id with
  | none => exact Ty.refines_any _
  | some t => exact (Ty.covers_iff.mp (hg id t h)).1

theorem bodyIndex {name : Symbol} {params : List Symbol} {r : Ty} (hg : Agrees Γ g)
    (hname : Γ name.id = .function params.length r) (hparams : ∀ p ∈ params, Γ p.id = .any) :
    Agrees Γ (bodyIndex name params g) := by
  have hstart : Agrees Γ (g.insert name.id (.function params.length .any)) := by
    refine hg.insert ?_
    rw [hname]
    simp [Ty.covers, Ty.refines]
  unfold Expr.bodyIndex
  generalize Ty.function params.length .any = self at hstart
  generalize IdMap.insert g name.id self = g at hstart
  clear hname
  induction params generalizing g with
  | nil => exact hstart
  | cons p params ih =>
    obtain ⟨hp, hparams⟩ := List.forall_mem_cons.mp hparams
    exact ih hparams _ (hstart.insert (by rw [hp]; exact Ty.covers_refl _))

end Agrees

/-- At this visit the types of the declarations are kept: a declaration has the declared type, and what is
assigned is covered by it. -/
structure Visit.Keeps (Γ : Nat → Ty) (v : Visit) : Prop where
  declares : ∀ d ∈ v.declares, Γ d.1 = d.2
  assigns : ∀ x value, v.expr = .assign x value →
    ((value.after v.index).get? x.id).isSome ∧ (Γ x.id).covers (value.typeAt v.index)

theorem Visit.Keeps.preserves (h : v.Keeps Γ) : v.Preserves (Agrees Γ) where
  declares _ d hd g hg := hg.insert (by rw [h.declares d hd]; exact Ty.covers_refl _)
  assigns _ x value he hg := by
    obtain ⟨hset, hcovers⟩ := h.assigns x value he
    obtain ⟨s, hs⟩ := Option.isSome_iff_exists.mp hset
    have hknown : s.covers (Γ x.id) := hg _ _ hs
    have htype : (value.after v.index).typeOf x.id = s := by rw [TypeIndex.typeOf, hs, Option.getD_some]
    rw [htype]
    refine hg.insert ?_
    -- `any` in the index is `any` in the declaration, and then in the value
    by_cases hany : s = .any
    · rw [hany, Ty.join, (Ty.covers_iff.mp hcovers).2 ((Ty.covers_iff.mp hknown).2 hany),
        (Ty.covers_iff.mp hknown).2 hany]
      exact Ty.covers_refl _
    · have hjoin : s.join (value.typeAt v.index) = s := by
        cases s <;> first | rfl | exact absurd rfl hany
      rwa [hjoin]
  enters hg name params body ret r he hr := by
    have hdeclares := h.declares
    simp only [Visit.declares, he, List.forall_mem_cons, List.forall_mem_map] at hdeclares
    exact hg.bodyIndex (hdeclares.1.trans hr) hdeclares.2

namespace Checked

variable (hP : ∀ v, P v → v.Keeps Γ)

include hP

theorem agrees_and_parts (h : Checked P e g g' t) (hg : Agrees Γ g) :
    Agrees Γ g' ∧ ∀ w ∈ (Visit.mk e g).parts, w.Checked P ∧ Agrees Γ w.index :=
  h.invariant_and_parts (fun v hv => (hP v hv).preserves) hg

/-- **The check keeps agreement.** -/
theorem agrees (h : Checked P e g g' t) (hg : Agrees Γ g) : Agrees Γ g' := (h.agrees_and_parts hP hg).1

end Checked

end Agreement

end ExactScript
