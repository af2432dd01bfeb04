import ExactScript.Proofs.DeclaredBefore
import ExactScript.Proofs.TypeSoundness

/-!
# Programs in which all types are known

In a program without functions, in which the check knows the type of every part, nothing is lost where types
are joined: compatible types are equal. So such a program is typed in the strict sense.

The argument goes around no circle because the index carries it. First the check is followed without a view to
declarations, to see that no type is that of a function. Then the index is seen to hold exactly the declared
types, at each assignment because the types on both sides are known. What is asked of each visit follows.

## Contents
* `Expr.WithoutFunctions`, `Expr.WithoutDefinitions`, and `Expr.plain_of_passes`, the types in such trees;
* `FullyTyped`, `Exact`, the index of such a program;
* `Visit.Known.fine`, what holds at each visit.
-/

namespace ExactScript

/-! ## Programs without functions -/

namespace Ty

/-- The type is not that of a function. -/
def plain : Ty → Bool
  | function _ _ => false
  | _ => true

theorem ground_iff {t : Ty} : t.ground ↔ t ≠ any ∧ t.plain := by cases t <;> simp [ground, plain]

theorem plain_join {s t : Ty} (hs : s.plain) (ht : t.plain) : (s.join t).plain := by
  cases s <;> first | exact hs | exact ht

end Ty

namespace Expr

/-- The node defines or calls a function. -/
def usesFunction {β : Type} : Expr β → Bool
  | function _ _ _ _ => true
  | call _ _ => true
  | _ => false

/-- The tree defines and calls no functions. -/
def WithoutFunctions {β : Type} (e : Expr β) : Prop := e.Everywhere fun c => c.usesFunction = false

instance {β : Type} (e : Expr β) : Decidable e.WithoutFunctions :=
  inferInstanceAs (Decidable (e.Everywhere fun c => c.usesFunction = false))

/-- The node defines a function. -/
def definesFunction {β : Type} : Expr β → Bool
  | function _ _ _ _ => true
  | _ => false

/-- The tree defines no functions. It may call them. -/
def WithoutDefinitions {β : Type} (e : Expr β) : Prop := e.Everywhere fun c => c.definesFunction = false

instance {β : Type} (e : Expr β) : Decidable e.WithoutDefinitions :=
  inferInstanceAs (Decidable (e.Everywhere fun c => c.definesFunction = false))

variable {e : Expr Symbol} {es : List (Expr Symbol)} {g g' : TypeIndex} {t : Ty} {ts : List Ty} {id : Nat}

theorem WithoutFunctions.child {c : Expr Symbol} (h : e.WithoutFunctions) (hc : c ∈ e.children) :
    c.WithoutFunctions := (everywhere_iff.mp h).2 c hc

theorem WithoutDefinitions.child {c : Expr Symbol} (h : e.WithoutDefinitions) (hc : c ∈ e.children) :
    c.WithoutDefinitions := (everywhere_iff.mp h).2 c hc

theorem WithoutFunctions.withoutDefinitions (h : e.WithoutFunctions) : e.WithoutDefinitions := by
  intro c hc
  have hno := h c hc
  cases c with
  | function => cases hno
  | _ => rfl

/-- The code of such a tree defines none. -/
theorem WithoutFunctions.sites_eq_nil (h : e.WithoutFunctions) (i : Nat) : e.piece.sites i = [] := by
  have hcode : Piece.Compositional (fun q => ∀ i, q.sites i = []) WithoutFunctions :=
    { child := fun he hc => he.child hc
      list := fun _ _ => rfl
      jumping := fun _ _ => rfl
      append := fun hp hq i => by rw [Piece.sites_append, hp, hq, List.append_nil]
      function := fun he => nomatch he.self }
  exact hcode.piece h i

/-- The index knows of no function. -/
def PlainIndex (g : TypeIndex) : Prop := ∀ id t, g.get? id = some t → t.plain

theorem PlainIndex.insert (hg : PlainIndex g) (ht : t.plain) : PlainIndex (g.insert id t) := by
  intro j u hj
  by_cases h : j = id
  · subst h
    rw [IdMap.get?_insert_self] at hj
    cases hj
    exact ht
  · rw [IdMap.get?_insert_of_ne _ h] at hj
    exact hg j u hj

theorem PlainIndex.typeOf (hg : PlainIndex g) (id : Nat) : (g.typeOf id).plain := by
  unfold TypeIndex.typeOf
  cases h : g.get? id with
  | none => rfl
  | some t => exact hg id t h

theorem plain_of_threads (h : Threads (fun _ g g' t => PlainIndex g → PlainIndex g' ∧ t.plain) es g g' ts)
    (hg : PlainIndex g) : PlainIndex g' ∧ ∀ t ∈ ts, t.plain := by
  induction h with
  | nil => exact ⟨hg, by simp⟩
  | cons he _ ih =>
    obtain ⟨hg₁, ht⟩ := he hg
    obtain ⟨hg', hts⟩ := ih hg₁
    exact ⟨hg', List.forall_mem_cons.mpr ⟨ht, hts⟩⟩

/-- **Where no function is defined, no type is that of a function.** Calls are of what is not known. -/
theorem plain_of_passes (h : e.Passes g g' t) (hno : e.WithoutDefinitions) (hg : PlainIndex g) :
    PlainIndex g' ∧ t.plain := by
  induction e using induct_children generalizing g g' t with
  | h e ih =>
  have hnode := hno.self
  have hrule : Rule (fun _ g g' t => PlainIndex g → PlainIndex g' ∧ t.plain) e g g' t :=
    (rule_of_typing h).imp fun w hw _ _ hp hI =>
      ih w.expr (expr_mem_children hw) hp (hno.child (expr_mem_children hw)) hI
  cases hrule with
  | @literal l => exact ⟨hg, by cases l <;> rfl⟩
  | var => exact ⟨hg, hg.typeOf _⟩
  | declare hv =>
    obtain ⟨hg₁, ht⟩ := hv hg
    exact ⟨hg₁.insert ht, ht⟩
  | assign hv =>
    obtain ⟨hg₁, ht⟩ := hv hg
    exact ⟨hg₁.insert (Ty.plain_join (hg₁.typeOf _) ht), ht⟩
  | letIn hv hb =>
    obtain ⟨hg₁, ht⟩ := hv hg
    exact hb (hg₁.insert ht)
  | @unary op operand _ _ _ ho => exact ⟨(ho hg).1, by cases op <;> rfl⟩
  | binary hl hr ht =>
    refine ⟨(hr (hl hg).1).1, ?_⟩
    cases t with
    | function n q => exact absurd rfl (BinaryOp.resultType_ne_function ht n q)
    | _ => rfl
  | logical hl _ hr => exact ⟨(hr (hl hg).1).1, rfl⟩
  | block hb =>
    obtain ⟨hg', hts⟩ := plain_of_threads hb hg
    exact ⟨hg', blockType_of_forall (P := fun t => t.plain) rfl hts⟩
  | branch ht _ hy => exact ⟨(plain_of_threads hy (ht hg).1).1, rfl⟩
  | branches ht _ hy hn =>
    obtain ⟨hg₂, hts⟩ := plain_of_threads hy (ht hg).1
    obtain ⟨hg', hus⟩ := plain_of_threads hn hg₂
    exact ⟨hg', Ty.plain_join (blockType_of_forall (P := fun t => t.plain) rfl hts) (blockType_of_forall (P := fun t => t.plain) rfl hus)⟩
  | loop ht _ hb => exact ⟨(plain_of_threads hb (ht hg).1).1, rfl⟩
  | count hi ht _ hb ha =>
    obtain ⟨hg₁, hs⟩ := hi hg
    exact ⟨(ha (plain_of_threads hb (ht (hg₁.insert hs)).1).1).1, rfl⟩
  | print ha => exact ⟨(plain_of_threads ha hg).1, rfl⟩
  | list he => exact ⟨(plain_of_threads he hg).1, rfl⟩
  | fill hv hs => exact ⟨(hs (hv hg).1).1, rfl⟩
  | map he => exact ⟨(plain_of_threads he hg).1, rfl⟩
  | @query op target _ _ _ ht => exact ⟨(ht hg).1, by cases op <;> rfl⟩
  | extend _ ht ha => exact ⟨(ha (ht hg).1).1, rfl⟩
  | delete ht ha => exact ⟨(ha (ht hg).1).1, (ht hg).2⟩
  | index ht hk => exact ⟨(hk (ht hg).1).1, by split <;> rfl⟩
  | put ht hk hv => exact ⟨(hv (hk (ht hg).1).1).1, (ht hg).2⟩
  | concat hp => exact ⟨(plain_of_threads hp hg).1, rfl⟩
  | slice ht _ hs _ hp _ hst => exact ⟨(plain_of_threads hst (hp (hs (ht hg).1).1).1).1, rfl⟩
  | function => cases hnode
  | @call callee args g g' ts r ha hf =>
    obtain ⟨hg', -⟩ := plain_of_threads ha hg
    have hplain := hg'.typeOf callee.id
    rw [hf] at hplain
    cases hplain
  | callAny ha => exact ⟨(plain_of_threads ha hg).1, rfl⟩

end Expr

/-! ## Programs in which all types are known -/

section FullyTyped

open ExactScript.Expr

/-- No functions are defined or called, and the check knows the type of every part. -/
structure FullyTyped (tree : List (Expr Symbol)) : Prop where
  without : ∀ e ∈ tree, e.WithoutFunctions
  known : ∀ v ∈ programVisits tree, v.type ≠ .any

/-- What the index says of an id is its declared type, which is known. -/
def Exact (Γ : Nat → Ty) (g : TypeIndex) : Prop := ∀ id t, g.get? id = some t → t = Γ id ∧ t.ground

/-- What is known of the visits of such a program before the types of variables are. -/
structure Visit.Known (Γ : Nat → Ty) (v : Visit) : Prop where
  declares : ∀ d ∈ v.declares, Γ d.1 = d.2
  assigned : v.AssignsKnown
  known : ∀ w ∈ v.expr.visits v.index, w.type ≠ .any
  without : v.expr.WithoutFunctions

variable {Γ : Nat → Ty} {e : Expr Symbol} {g g' : TypeIndex} {t : Ty} {v : Visit}

namespace Exact

theorem empty : Exact Γ .empty := fun _ _ h => by cases h

theorem insert {id : Nat} (hg : Exact Γ g) (ht : t = Γ id) (hground : t.ground) : Exact Γ (g.insert id t) := by
  intro j u hj
  by_cases h : j = id
  · subst h
    rw [IdMap.get?_insert_self] at hj
    cases hj
    exact ⟨ht, hground⟩
  · rw [IdMap.get?_insert_of_ne _ h] at hj
    exact hg j u hj

theorem plain (hg : Exact Γ g) : PlainIndex g := fun id t h => (Ty.ground_iff.mp (hg id t h).2).2

/-- A type that is not `any` is known. -/
theorem ground (hg : Exact Γ g) (hno : e.WithoutFunctions) (ht : e.typeAt g ≠ .any) :
    (e.typeAt g).ground ∧ ∃ g', e.Passes g g' (e.typeAt g) := by
  cases h : e.typing g with
  | ok r =>
    have hpasses : e.Passes g r.1 r.2 := h
    rw [hpasses.typeAt_eq] at ht ⊢
    exact ⟨Ty.ground_iff.mpr ⟨ht, (plain_of_passes hpasses hno.withoutDefinitions hg.plain).2⟩, r.1, hpasses⟩
  | error err => exact absurd (by rw [typeAt, h]) ht

end Exact

namespace Visit.Known

/-- The parts of such a visit are of known types. -/
theorem ground_part (h : v.Known Γ) (hg : Exact Γ v.index) {c : Expr Symbol} (hc : c ∈ v.expr.children)
    (hpart : ⟨c, v.index⟩ ∈ v.parts) : (c.typeAt v.index).ground ∧ ∃ g', c.Passes v.index g' (c.typeAt v.index) :=
  hg.ground (h.without.child hc)
    (h.known ⟨c, v.index⟩ (mem_visits_iff.mpr (.inr ⟨_, hpart, mem_visits_iff.mpr (.inl rfl)⟩)))

/-- What is assigned is of the declared type. -/
theorem assigned_eq (h : v.Known Γ) (hg : Exact Γ v.index) {x : Symbol} {value : Expr Symbol}
    (he : v.expr = .assign x value) (hafter : Exact Γ (value.after v.index)) :
    (value.after v.index).typeOf x.id = value.typeAt v.index ∧ value.typeAt v.index = Γ x.id ∧
      (value.typeAt v.index).ground := by
  obtain ⟨hground, g', hvalue⟩ := h.ground_part hg (c := value) (by simp [he, children])
    (by simp [Visit.parts, he, children, inTurn])
  obtain ⟨s, hs⟩ := Option.isSome_iff_exists.mp (h.assigned x value he)
  obtain ⟨hdeclared, hs'⟩ := hafter _ _ hs
  have hpasses := (hg.ground h.without (h.known v (mem_visits_iff.mpr (.inl rfl)))).2
  rw [he] at hpasses
  obtain ⟨g₁, hpasses⟩ := hpasses
  have htype : (value.after v.index).typeOf x.id = s := by rw [TypeIndex.typeOf, hs, Option.getD_some]
  have hcompatible : s.compatible (value.typeAt v.index) := by
    cases rule_of_typing hpasses with
    | assign hv hc => rwa [← hv.after_eq, htype, ← hv.typeAt_eq] at hc
  have heq := Ty.eq_of_compatible hs' hground hcompatible
  exact ⟨htype.trans heq, heq ▸ hdeclared, hground⟩

theorem ground_declared (h : v.Known Γ) (hg : Exact Γ v.index) {d : Nat × Ty} (hd : d ∈ v.declares) :
    d.2.ground := by
  obtain ⟨e, g⟩ := v
  cases e with
  | declare x value =>
    obtain rfl := List.mem_singleton.mp hd
    exact (h.ground_part hg (c := value) (by simp [children]) (by simp [Visit.parts, children, inTurn])).1
  | letIn x value body =>
    obtain rfl := List.mem_singleton.mp hd
    exact (h.ground_part hg (c := value) (by simp [children]) (by simp [Visit.parts])).1
  | count x init test advance body =>
    obtain rfl := List.mem_singleton.mp hd
    exact (h.ground_part hg (c := init) (by simp [children]) (by simp [Visit.parts])).1
  | function => cases h.without.self
  | _ => cases hd

theorem preserves (h : v.Known Γ) : v.Preserves (Exact Γ) where
  declares hI d hd g hg := hg.insert (h.declares d hd).symm (h.ground_declared hI hd)
  assigns hI x value he hafter := by
    obtain ⟨htype, hdeclared, hground⟩ := h.assigned_eq hI he hafter
    have hjoin : ((value.after v.index).typeOf x.id).join (value.typeAt v.index) = value.typeAt v.index := by
      rw [htype]
      exact Ty.join_of_covers (Ty.covers_refl _)
    rw [hjoin]
    exact hafter.insert hdeclared hground
  enters _ name params body ret _ he _ := by
    have hnode := h.without.self
    rw [he] at hnode
    cases hnode

end Visit.Known

theorem ground_of_known {es : List (Expr Symbol)} {ts : List Ty}
    (h : Threads (Checked (Visit.Known Γ)) es g g' ts) (hg : Exact Γ g) : Exact Γ g' ∧ ∀ t ∈ ts, t.ground := by
  induction h with
  | nil => exact ⟨hg, by simp⟩
  | cons he _ ih =>
    obtain ⟨hg', hts⟩ := ih (he.invariant (fun _ hv => hv.preserves) hg)
    have hground := (hg.ground he.self.without (he.self.known _ (mem_visits_iff.mpr (.inl rfl)))).1
    rw [he.passes.typeAt_eq] at hground
    exact ⟨hg', List.forall_mem_cons.mpr ⟨hground, hts⟩⟩

/-- **Where all types are known, the check loses nothing.** -/
theorem Visit.Known.fine (h : v.Known Γ) (hv : v.Checked (Visit.Known Γ)) (hg : Exact Γ v.index) :
    v.Fine Γ True := by
  obtain ⟨e, g⟩ := v
  obtain ⟨g', t, hchecked⟩ := hv
  refine ⟨⟨h.declares, fun x value he => ⟨h.assigned x value he, ?_⟩⟩, fun test yes no he => ?_,
    fun op left right he => ?_, fun _ => ?_, fun _ name params body ret he => ?_, fun _ callee args he => ?_⟩
  · obtain rfl : e = .assign x value := he
    cases hchecked.rule with
    | assign hv hc =>
      have hafter := hv.invariant (fun _ hv => hv.preserves) hg
      rw [← hv.passes.after_eq] at hafter
      exact (h.assigned_eq hg rfl hafter).2.1 ▸ Ty.covers_refl _
  · obtain rfl : e = .cond test yes (some no) := he
    cases hchecked.rule with
    | branches ht hc hy hn hs =>
      have hafter := ht.invariant (fun _ hv => hv.preserves) hg
      obtain ⟨hafter', hyes⟩ := ground_of_known hy hafter
      obtain ⟨-, hno⟩ := ground_of_known hn hafter'
      have hyes' := hy.mono Checked.passes
      have hno' := hn.mono Checked.passes
      rw [ht.passes.after_eq, hyes'.afterAll_eq, (passes_block hyes').typeAt_eq, (passes_block hno').typeAt_eq,
        Ty.eq_of_compatible (blockType_of_forall (P := fun t => t.ground) rfl hyes)
          (blockType_of_forall (P := fun t => t.ground) rfl hno) hs]
      exact Ty.covers_refl _
  · obtain rfl : e = .logical op left right := he
    cases hchecked.rule with
    | logical hl hla hr hra =>
      have hafter := hl.invariant (fun _ hv => hv.preserves) hg
      have hground := (hafter.ground hr.self.without (hr.self.known _ (mem_visits_iff.mpr (.inl rfl)))).1
      rw [hl.passes.after_eq]
      rw [hr.passes.typeAt_eq] at hground ⊢
      rw [accepts_singleton] at hra
      exact (Ty.eq_of_compatible rfl hground hra).symm
  · exact (hg.ground h.without (h.known _ (mem_visits_iff.mpr (.inl rfl)))).1
  · have hnode := h.without.self
    rw [he] at hnode
    cases hnode
  · have hnode := h.without.self
    rw [he] at hnode
    cases hnode

variable {source : List (Expr String)} {tree : List (Expr Symbol)} {ts : List Ty}

theorem visits_of_program (hv : v ∈ programVisits tree) {w : Visit} (hw : w ∈ v.expr.visits v.index) :
    w ∈ programVisits tree := by
  obtain ⟨u, hu, hv⟩ := mem_visitsOfAll.mp hv
  exact mem_visitsOfAll.mpr ⟨u, hu, mem_visits_trans hv hw⟩

theorem FullyTyped.without_of_visit (h : FullyTyped tree) (hv : v ∈ programVisits tree) :
    v.expr.WithoutFunctions := by
  intro c hc
  rw [← map_expr_visits v.expr v.index] at hc
  obtain ⟨w, hw, rfl⟩ := List.mem_map.mp hc
  have hsubtree : w.expr ∈ subtreesOfAll tree := by
    rw [← map_expr_visitsOfAll (g := .empty) fun e _ => e.map_expr_visits]
    exact List.mem_map_of_mem (visits_of_program hv hw)
  exact forall_subtreesOfAll.mpr h.without w.expr hsubtree

/-- The visits of a fully typed program. -/
theorem known_of_fullyTyped (hplaced : ∀ e ∈ source, e.Placed) (hresolve : resolve source = .ok tree)
    (hts : Threads Passes tree .empty g ts) (h : FullyTyped tree) (hv : v ∈ programVisits tree) :
    v.Known (declaredType tree) where
  declares _ hd := declaredType_eq hresolve hv hd
  assigned := assigned_known hplaced hresolve hts hv
  known w hw := h.known w (visits_of_program hv hw)
  without := h.without_of_visit hv

/-- **A fully typed program is typed in the strict sense.** -/
theorem checked_of_fullyTyped (hplaced : ∀ e ∈ source, e.Placed) (hresolve : resolve source = .ok tree)
    (hts : Threads Passes tree .empty g ts) (h : FullyTyped tree) :
    Threads (Checked (Visit.Fine (declaredType tree) True)) tree .empty g ts := by
  have hknown := checked_of_visits hts fun v hv => known_of_fullyTyped hplaced hresolve hts h hv
  refine checked_of_visits hts fun v hv => ?_
  obtain ⟨hchecked, hexact⟩ := visited_of_program (fun _ hv => hv.preserves) hknown .empty hv
  exact (known_of_fullyTyped hplaced hresolve hts h hv).fine hchecked hexact

end FullyTyped

end ExactScript
