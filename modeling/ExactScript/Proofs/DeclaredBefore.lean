import ExactScript.Proofs.LexicalScoping
import ExactScript.Proofs.Placement
import ExactScript.Proofs.TypeAgreement

/-!
# Declared before use

Resolution lets a name stand for a declaration that is visible where the name is used. What follows for
the resolved tree: every symbol in it is one that it declares, so no id goes with two names; and when the
check comes to an assignment, it knows the symbol that is assigned.

The check reads the body of a counting loop before the part that advances the counter, and resolution the
other way round. That makes no difference, since the part that advances is an operand and declares nothing.

## Contents
* `Outline.occurrences`, the names of an outline, and `namesAgree_of_resolve`;
* `Expr.placed_rename`, and `Expr.Plain.locals_outline`: operands declare nothing in their scope;
* `Knows`, an index with the visible symbols, and `assigned_known`.
-/

namespace ExactScript

/-! ## Occurrences of names -/

namespace Outline

variable {β : Type} {x : β}

/-- The names of an outline, each with whether it is declared there. -/
def occurrences : Outline β → List (Bool × β)
  | done => []
  | refer x o => (false, x) :: o.occurrences
  | declare x o => (true, x) :: o.occurrences
  | scope body o => body.occurrences ++ o.occurrences
  | function name body o => (true, name) :: (body.occurrences ++ o.occurrences)

theorem append_assoc (o p q : Outline β) : o ++ p ++ q = o ++ (p ++ q) := by
  induction o with
  | done => rfl
  | refer x o ih => exact congrArg (refer x) ih
  | declare x o ih => exact congrArg (declare x) ih
  | scope body o _ ih => exact congrArg (scope body) ih
  | function x body o _ ih => exact congrArg (function x body) ih

theorem occurrences_append (o p : Outline β) : (o ++ p).occurrences = o.occurrences ++ p.occurrences := by
  induction o with
  | done => rfl
  | refer x o ih => simp [occurrences, ih]
  | declare x o ih => simp [occurrences, ih]
  | scope body o _ ih => simp [occurrences, ih]
  | function x body o _ ih => simp [occurrences, ih]

theorem occurrences_declareAll (xs : List β) (o : Outline β) :
    (declareAll xs o).occurrences = xs.map (true, ·) ++ o.occurrences := by
  induction xs with
  | nil => rfl
  | cons x xs ih => exact congrArg ((true, x) :: ·) ih

theorem exists_use {o : Outline β} (hx : (false, x) ∈ o.occurrences) (c : Context β) :
    ∃ u ∈ o.uses c, u.target = x := by
  induction o generalizing c with
  | done => cases hx
  | refer y o ih =>
    rcases List.mem_cons.mp hx with heq | hx
    · exact ⟨_, List.mem_cons_self, (congrArg Prod.snd heq).symm⟩
    · obtain ⟨u, hu, hux⟩ := ih hx c
      exact ⟨u, List.mem_cons_of_mem _ hu, hux⟩
  | declare y o ih =>
    rcases List.mem_cons.mp hx with heq | hx
    · cases heq
    · exact ih hx _
  | scope body o ihb ih =>
    rcases List.mem_append.mp hx with hx | hx
    · obtain ⟨u, hu, hux⟩ := ihb hx c
      exact ⟨u, List.mem_append_left _ hu, hux⟩
    · obtain ⟨u, hu, hux⟩ := ih hx c
      exact ⟨u, List.mem_append_right _ hu, hux⟩
  | function y body o ihb ih =>
    rcases List.mem_cons.mp hx with heq | hx
    · cases heq
    rcases List.mem_append.mp hx with hx | hx
    · obtain ⟨u, hu, hux⟩ := ihb hx ((c.declaring y).entering y)
      exact ⟨u, List.mem_append_left _ hu, hux⟩
    · obtain ⟨u, hu, hux⟩ := ih hx (c.declaring y)
      exact ⟨u, List.mem_append_right _ hu, hux⟩

/-- What is visible at a use was visible before, or is declared in the outline. -/
theorem declared_of_visible {o : Outline β} {c : Context β} {u : Use β} (hu : u ∈ o.uses c)
    {d : Nat × β} (hd : d ∈ u.context.visible) : d ∈ c.visible ∨ (true, d.2) ∈ o.occurrences := by
  have hnew : ∀ {c : Context β} {y : β}, d ∈ (c.declaring y).visible → d ∈ c.visible ∨ d.2 = y := by
    intro c y h
    rcases List.mem_cons.mp h with rfl | h
    · exact .inr rfl
    · exact .inl h
  induction o generalizing c with
  | done => cases hu
  | refer y o ih =>
    rcases List.mem_cons.mp hu with rfl | hu
    · exact .inl hd
    · exact (ih hu).imp_right (List.mem_cons_of_mem _)
  | declare y o ih =>
    rcases ih hu with h | h
    · exact (hnew h).imp_right fun heq => by rw [heq]; exact List.mem_cons_self
    · exact .inr (List.mem_cons_of_mem _ h)
  | scope body o ihb ih =>
    rcases List.mem_append.mp hu with hu | hu
    · exact (ihb hu).imp_right (List.mem_append_left _)
    · exact (ih hu).imp_right (List.mem_append_right _)
  | function y body o ihb ih =>
    rcases List.mem_append.mp hu with hu | hu
    · rcases ihb (c := (c.declaring y).entering y) hu with h | h
      · exact (hnew (c := c) h).imp_right fun heq => by rw [heq]; exact List.mem_cons_self
      · exact .inr (List.mem_cons_of_mem _ (List.mem_append_left _ h))
    · rcases ih hu with h | h
      · exact (hnew h).imp_right fun heq => by rw [heq]; exact List.mem_cons_self
      · exact .inr (List.mem_cons_of_mem _ (List.mem_append_right _ h))

end Outline

namespace Expr

variable {β : Type} {x : Bool × β} {e c : Expr β}

/-- The names at the node itself, each with whether it is declared there. -/
def ownOccurrences : Expr β → List (Bool × β)
  | var x => [(false, x)]
  | assign x _ => [(false, x)]
  | call callee _ => [(false, callee)]
  | e => e.ownDeclarations.map (true, ·)

theorem mem_occurrencesOfAll {es : List (Expr β)} :
    x ∈ (outlineOfAll es).occurrences ↔ ∃ e ∈ es, x ∈ e.outline.occurrences := by
  induction es with
  | nil => simp [outlineOfAll, Outline.occurrences]
  | cons e es ih => simp [outlineOfAll, Outline.occurrences_append, ih]

theorem outlineOfEntries_eq (es : List (Expr β × Expr β)) :
    outlineOfEntries es = outlineOfAll (es.flatMap fun kv => [kv.1, kv.2]) := by
  induction es with
  | nil => rfl
  | cons kv es ih => rw [outlineOfEntries, ih]; rfl

/-- The outline has the names of the node and of the trees right below. -/
theorem mem_occurrences_outline :
    x ∈ e.outline.occurrences ↔ x ∈ e.ownOccurrences ∨ ∃ c ∈ e.children, x ∈ c.outline.occurrences := by
  cases e with
  | map entries =>
    simp only [outline, outlineOfEntries_eq, mem_occurrencesOfAll, ownOccurrences, ownDeclarations, children,
      List.map_nil, List.not_mem_nil, false_or]
  | cond test yes no =>
    cases no <;> simp [outline, outlineOfAlternative, Outline.occurrences, Outline.occurrences_append,
      ownOccurrences, ownDeclarations, children, mem_occurrencesOfAll, or_and_right, exists_or]
  | slice target start stop step =>
    cases step <;> simp [outline, outlineOfStep, Outline.occurrences_append, ownOccurrences,
      ownDeclarations, children]
  | _ =>
    simp [outline, Outline.occurrences, Outline.occurrences_append, Outline.occurrences_declareAll,
      ownOccurrences, ownDeclarations, children, mem_occurrencesOfAll]
    try grind

/-- The outline of a tree has exactly the names of its subtrees. -/
theorem mem_occurrences_iff :
    x ∈ e.outline.occurrences ↔ ∃ t ∈ e.subtrees, x ∈ t.ownOccurrences := by
  induction e using induct_children with
  | h e ih =>
    have hsub : (¬∃ t ∈ e.subtrees, x ∈ t.ownOccurrences) ↔
        x ∉ e.ownOccurrences ∧ ∀ c ∈ e.children, ¬∃ t ∈ c.subtrees, x ∈ t.ownOccurrences := by
      simpa [Everywhere] using everywhere_iff (P := fun t => x ∉ t.ownOccurrences) (e := e)
    rw [mem_occurrences_outline]
    grind

end Expr

section Resolved

variable {source : List (Expr String)} {tree : List (Expr Symbol)}

theorem mem_occurrences_program {x : Bool × Symbol} : x ∈ (Expr.outlineOfAll tree).occurrences ↔
    ∃ t ∈ Expr.subtreesOfAll tree, x ∈ t.ownOccurrences := by
  have hblock := Expr.mem_occurrences_iff (x := x) (e := .block tree)
  simpa [Expr.outline, Outline.occurrences, Expr.subtrees, Expr.ownOccurrences, Expr.ownDeclarations]
    using hblock

/-- What occurs in a resolved program is declared in it. -/
theorem mem_declarations_of_occurs (h : resolve source = .ok tree) {x : Bool × Symbol}
    (hx : x ∈ (Expr.outlineOfAll tree).occurrences) :
    x.2 ∈ (Expr.declarationsOfAll false tree).map Prod.snd := by
  have hdeclared : ∀ {s}, (true, s) ∈ (Expr.outlineOfAll tree).occurrences →
      s ∈ (Expr.declarationsOfAll false tree).map Prod.snd := by
    intro s hs
    obtain ⟨t, ht, hs⟩ := mem_occurrences_program.mp hs
    refine (Expr.perm_ownDeclarations tree false).mem_iff.mp (List.mem_flatMap.mpr ⟨t, ht, ?_⟩)
    cases t <;> simp_all [Expr.ownOccurrences, Expr.ownDeclarations]
  obtain ⟨declares, s⟩ := x
  cases declares with
  | true => exact hdeclared hx
  | false =>
    obtain ⟨-, hfaithful⟩ := faithful_of_resolve h
    obtain ⟨u, hu, rfl⟩ := Outline.exists_use hx {}
    obtain ⟨d, hd, htarget⟩ := Option.map_eq_some_iff.mp (hfaithful u hu)
    rcases Outline.declared_of_visible hu (List.mem_of_find?_eq_some hd) with hnone | hmem
    · cases hnone
    · exact htarget ▸ hdeclared hmem

/-- What is mentioned in a resolved program is declared in it. -/
theorem mem_declarations_of_mem_bindings (h : resolve source = .ok tree) {x : Symbol}
    (hx : x ∈ tree.flatMap Expr.bindings) : x ∈ (Expr.declarationsOfAll false tree).map Prod.snd := by
  obtain ⟨e, he, hx⟩ := List.mem_flatMap.mp hx
  obtain ⟨t, ht, hx⟩ := List.mem_flatMap.mp hx
  have hsub : t ∈ Expr.subtreesOfAll tree :=
    Expr.forall_subtreesOfAll.mp (fun t ht => ht) e he t ht
  obtain ⟨b, hb⟩ : ∃ b, (b, x) ∈ t.ownOccurrences := by
    cases t <;> simp_all [Expr.ownBindings, Expr.ownOccurrences, Expr.ownDeclarations]
  exact mem_declarations_of_occurs h (mem_occurrences_program.mpr ⟨t, hsub, hb⟩)

/-- **No id goes with two names** in a resolved program. -/
theorem namesAgree_of_resolve (h : resolve source = .ok tree) : Expr.NamesAgree tree := by
  intro x hx y hy hid
  have hnodup : (((Expr.declarationsOfAll false tree).map Prod.snd).map Symbol.id).Nodup := by
    rw [List.map_map]
    exact nodup_declared h
  exact congrArg Symbol.name (List.inj_on_of_nodup_map hnodup (mem_declarations_of_mem_bindings h hx)
    (mem_declarations_of_mem_bindings h hy) hid)

end Resolved

/-! ## Operands declare nothing -/

namespace Expr

variable {β γ : Type} {f : β → γ} {e : Expr β}

theorem renameAll_eq_map (es : List (Expr β)) : renameAll f es = es.map (rename f) := by
  induction es with
  | nil => rfl
  | cons e es ih => rw [renameAll, ih, List.map_cons]

theorem flatMap_renameEntries (es : List (Expr β × Expr β)) :
    (renameEntries f es).flatMap (fun kv => [kv.1, kv.2]) =
      (es.flatMap fun kv => [kv.1, kv.2]).map (rename f) := by
  induction es with
  | nil => rfl
  | cons kv es ih => simp [renameEntries, ih]

theorem children_rename (e : Expr β) : (e.rename f).children = e.children.map (rename f) := by
  cases e with
  | cond test yes no => cases no <;> simp [rename, renameAlternative, children, renameAll_eq_map]
  | slice target start stop step => cases step <;> simp [rename, renameStep, children]
  | map entries => simp only [rename, children, flatMap_renameEntries]
  | _ => simp [rename, children, renameAll_eq_map]

theorem operands_rename (e : Expr β) : (e.rename f).operands = e.operands.map (rename f) := by
  cases e with
  | slice target start stop step => exact children_rename (slice target start stop step)
  | map entries => exact children_rename (map entries)
  | _ => simp [rename, operands, children, renameAll_eq_map]

theorem isDeclaration_rename (e : Expr β) : (e.rename f).IsDeclaration ↔ e.IsDeclaration := by
  cases e <;> simp [rename, IsDeclaration]

/-- Where declarations stand does not depend on the names. -/
theorem placed_rename (e : Expr β) : (e.rename f).Placed ↔ e.Placed := by
  induction e using induct_children with
  | h e ih =>
    rw [placed_iff, placed_iff, operands_rename, children_rename, List.forall_mem_map, List.forall_mem_map]
    simp only [isDeclaration_rename]
    exact and_congr_right fun _ => forall₂_congr ih

theorem locals_outlineOfAll {es : List (Expr β)} (h : ∀ e ∈ es, e.outline.locals = []) :
    (outlineOfAll es).locals = [] := by
  induction es with
  | nil => rfl
  | cons e es ih =>
    obtain ⟨he, hes⟩ := List.forall_mem_cons.mp h
    rw [outlineOfAll, Outline.locals_append, he, ih hes, List.append_nil]

/-- An operand declares nothing in the scope that it stands in. -/
theorem Plain.locals_outline (h : e.Plain) : e.outline.locals = [] := by
  induction e using induct_children with
  | h e ih =>
  have hoperands : ∀ c ∈ e.operands, c.outline.locals = [] := fun c hc =>
    ih c (mem_children.mpr (.inl hc)) (h.operand hc)
  cases e with
  | declare => exact absurd trivial h.not_declaration
  | function => exact absurd trivial h.not_declaration
  | cond test yes no =>
    cases no <;> simpa [outline, outlineOfAlternative, Outline.locals_append, Outline.locals] using
      hoperands test (by simp [operands])
  | slice target start stop step =>
    cases step <;> simp_all [outline, outlineOfStep, operands, children, Outline.locals_append]
  | map entries =>
    rw [outline, outlineOfEntries_eq]
    exact locals_outlineOfAll hoperands
  | print args => exact locals_outlineOfAll hoperands
  | list elems => exact locals_outlineOfAll hoperands
  | concat parts => exact locals_outlineOfAll hoperands
  | call callee args => exact locals_outlineOfAll hoperands
  | _ => simp_all [outline, operands, children, Outline.locals_append, Outline.locals]

end Expr

/-! ## Known symbols -/

section Known

variable {c : Context Symbol} {o p : Outline Symbol} {x : Symbol} {e : Expr Symbol} {es : List (Expr Symbol)}
  {g g' : TypeIndex} {t : Ty} {ts : List Ty} {id : Nat}

open ExactScript.Expr

/-- What is used is in sight. -/
def Sighted (c : Context Symbol) (o : Outline Symbol) : Prop :=
  ∀ u ∈ o.uses c, ∃ d ∈ u.context.visible, d.2 = u.target

theorem sighted_append : Sighted c (o ++ p) ↔ Sighted c o ∧ Sighted (c.after o) p := by
  simp only [Sighted, Outline.uses_append, List.forall_mem_append]

theorem sighted_refer : Sighted c (.refer x o) ↔ (∃ d ∈ c.visible, d.2 = x) ∧ Sighted c o := by
  simp only [Sighted, Outline.uses, List.forall_mem_cons]

theorem sighted_scope : Sighted c (.scope o p) ↔ Sighted c o ∧ Sighted c p := by
  simp only [Sighted, Outline.uses, List.forall_mem_append]

theorem sighted_function : Sighted c (.function x o p) ↔
    Sighted ((c.declaring x).entering x) o ∧ Sighted (c.declaring x) p := by
  simp only [Sighted, Outline.uses, List.forall_mem_append]

/-- The index has the symbols that are visible. -/
def Knows (c : Context Symbol) (g : TypeIndex) : Prop := ∀ d ∈ c.visible, (g.get? d.2.id).isSome

theorem isSome_insert (h : (g.get? id).isSome) (j : Nat) (t : Ty) : ((g.insert j t).get? id).isSome := by
  by_cases hj : id = j
  · rw [hj, IdMap.get?_insert_self]
    rfl
  · rwa [IdMap.get?_insert_of_ne _ hj]

theorem Knows.declaring (h : Knows c g) : Knows (c.declaring x) (g.insert x.id t) := by
  refine List.forall_mem_cons.mpr ⟨?_, fun d hd => isSome_insert (h d hd) _ _⟩
  rw [IdMap.get?_insert_self]
  rfl

theorem isSome_of_threads (h : Threads Passes es g g' ts)
    (ih : ∀ e ∈ es, ∀ {g g' t}, e.Passes g g' t → (g.get? id).isSome → (g'.get? id).isSome)
    (hid : (g.get? id).isSome) : (g'.get? id).isSome := by
  induction h with
  | nil => exact hid
  | cons he _ ihs =>
    obtain ⟨hhead, htail⟩ := List.forall_mem_cons.mp ih
    exact ihs htail (hhead he hid)

/-- The check forgets no symbol. -/
theorem isSome_of_passes (h : e.Passes g g' t) (hid : (g.get? id).isSome) : (g'.get? id).isSome := by
  induction e using induct_children generalizing g g' t with
  | h e ih =>
  cases Shape.of_rule (rule_of_typing h) with
  | inert _ hc => exact isSome_of_threads hc (fun c hmem => fun hc hid => ih c hmem hc hid) hid
  | declare hv => exact isSome_insert (ih _ (by simp [children]) hv hid) _ _
  | assign hv => exact isSome_insert (ih _ (by simp [children]) hv hid) _ _
  | letIn hv hb =>
    exact ih _ (by simp [children]) hb (isSome_insert (ih _ (by simp [children]) hv hid) _ _)
  | count hi hr =>
    refine isSome_of_threads hr (fun c hmem => fun hc hid => ih c ?_ hc hid)
      (isSome_insert (ih _ (by simp [children]) hi hid) _ _)
    simp only [List.mem_cons, List.mem_append, List.not_mem_nil, or_false] at hmem
    simp only [children, List.mem_cons]
    grind
  | function hb => exact isSome_insert hid _ _

theorem Knows.passes (h : Knows c g) (he : e.Passes g g' t) : Knows c g' :=
  fun d hd => isSome_of_passes he (h d hd)

theorem Knows.threads (h : Knows c g) (hes : Threads Passes es g g' ts) : Knows c g' :=
  fun d hd => isSome_of_threads hes (fun _ _ => fun he hid => isSome_of_passes he hid) (h d hd)

theorem sighted_declareAll {xs : List Symbol} :
    Sighted c (.declareAll xs o) ↔ Sighted (xs.foldl Context.declaring c) o := by
  induction xs generalizing c with
  | nil => exact Iff.rfl
  | cons x xs ih => exact ih

theorem Knows.bodyIndex {params : List Symbol} (h : Knows c g) :
    Knows (params.foldl Context.declaring ((c.declaring x).entering x)) (bodyIndex x params g) := by
  have hself : Knows ((c.declaring x).entering x) (g.insert x.id (.function params.length .any)) :=
    h.declaring
  unfold Expr.bodyIndex
  generalize Ty.function params.length .any = self at hself
  generalize (c.declaring x).entering x = c at hself
  generalize IdMap.insert g x.id self = g at hself
  clear h
  induction params generalizing c g with
  | nil => exact hself
  | cons p params ih => exact ih _ _ hself.declaring

/-- At an assignment, the index after the value has the symbol that is assigned. -/
def Visit.AssignsKnown (v : Visit) : Prop :=
  ∀ x value, v.expr = .assign x value → ((value.after v.index).get? x.id).isSome

theorem outlineOfAll_append {β : Type} (es fs : List (Expr β)) :
    outlineOfAll (es ++ fs) = outlineOfAll es ++ outlineOfAll fs := by
  induction es with
  | nil => rfl
  | cons e es ih => rw [List.cons_append, outlineOfAll, outlineOfAll, ih, Outline.append_assoc]

/-- What is shown of every tree. -/
def Informs (e : Expr Symbol) : Prop :=
  ∀ {c g g' t}, e.Passes g g' t → e.Placed → Sighted c e.outline → Knows c g →
    Knows (c.after e.outline) g' ∧ ∀ v ∈ e.visits g, v.AssignsKnown

theorem informs_all (h : Threads Passes es g g' ts) (ih : ∀ e ∈ es, Informs e) (hp : ∀ e ∈ es, e.Placed)
    (hs : Sighted c (outlineOfAll es)) (hk : Knows c g) : Knows (c.after (outlineOfAll es)) g' ∧
      ∀ w ∈ inTurn g es, ∀ v ∈ w.expr.visits w.index, v.AssignsKnown := by
  induction h generalizing c with
  | nil => exact ⟨hk, fun _ h => by cases h⟩
  | cons he _ ihs =>
    obtain ⟨hhead, htail⟩ := List.forall_mem_cons.mp ih
    obtain ⟨hphead, hptail⟩ := List.forall_mem_cons.mp hp
    obtain ⟨hshead, hstail⟩ := sighted_append.mp hs
    obtain ⟨hknows, hvisits⟩ := hhead he hphead hshead hk
    obtain ⟨hend, hrest⟩ := ihs htail hptail hstail hknows
    refine ⟨?_, List.forall_mem_cons.mpr ⟨hvisits, ?_⟩⟩
    · rwa [outlineOfAll, Context.after_append]
    · rwa [he.after_eq]

/-- What is asked of an assignment, and of all parts of the trees right below, is asked of all parts. -/
theorem assignsKnown_of_parts (hself : Visit.AssignsKnown ⟨e, g⟩)
    (hparts : ∀ w ∈ (Visit.mk e g).parts, ∀ v ∈ w.expr.visits w.index, v.AssignsKnown) :
    ∀ v ∈ e.visits g, v.AssignsKnown := by
  intro v hv
  rcases mem_visits_iff.mp hv with rfl | ⟨w, hw, hv⟩
  · exact hself
  · exact hparts w hw v hv

/-- Nothing is asked of other nodes. -/
theorem assignsKnown_of_ne (hne : ∀ x value, e ≠ .assign x value)
    (hparts : ∀ w ∈ (Visit.mk e g).parts, ∀ v ∈ w.expr.visits w.index, v.AssignsKnown) :
    ∀ v ∈ e.visits g, v.AssignsKnown :=
  assignsKnown_of_parts (fun x value heq => absurd heq (hne x value)) hparts

/-- Nodes whose outline is that of the trees right below. -/
theorem informs_inTurn (ih : ∀ d ∈ e.children, Informs d) (hplaced : e.Placed) (hsighted : Sighted c e.outline)
    (hknows : Knows c g) (houtline : e.outline = outlineOfAll e.children)
    (hne : ∀ x value, e ≠ .assign x value) (hseq : (Visit.mk e g).parts = inTurn g e.children)
    (hts : Threads Passes e.children g g' ts) :
    Knows (c.after e.outline) g' ∧ ∀ v ∈ e.visits g, v.AssignsKnown := by
  rw [houtline] at hsighted
  obtain ⟨hend, hvisits⟩ := informs_all hts ih (fun d hd => hplaced.child hd) hsighted hknows
  rw [houtline]
  exact ⟨hend, assignsKnown_of_ne hne (hseq ▸ hvisits)⟩

/-- A conditional: what the branches declare is forgotten after them. -/
theorem informs_branches {test : Expr Symbol} {yes no : List (Expr Symbol)}
    (ih : ∀ d ∈ (cond test yes (some no)).children, Informs d) : Informs (cond test yes (some no)) := by
  intro c g g' t h hplaced hsighted hknows
  cases rule_of_typing h with
  | @branches test yes no g g₁ g₂ g' t ts us ht hc hy hn hs =>
    obtain ⟨htest, hscope⟩ := sighted_append.mp hsighted
    obtain ⟨hyes, hscope⟩ := sighted_scope.mp hscope
    obtain ⟨hno, -⟩ := sighted_scope.mp hscope
    obtain ⟨hend, hvisits⟩ := ih test (by simp [children]) ht (hplaced.child (by simp [children])) htest hknows
    obtain ⟨-, hvisits'⟩ := informs_all hy (fun d hd => ih d (by simp [children, hd]))
      (fun d hd => hplaced.child (by simp [children, hd])) hyes hend
    obtain ⟨-, hvisits''⟩ := informs_all hn (fun d hd => ih d (by simp [children, hd]))
      (fun d hd => hplaced.child (by simp [children, hd])) hno (hend.threads hy)
    rw [outline, Context.after_append]
    refine ⟨(hend.threads hy).threads hn, assignsKnown_of_ne (by simp) ?_⟩
    simp only [Visit.parts, children, Option.getD_some, inTurn, inTurn_append, ht.after_eq, hy.afterAll_eq]
    exact List.forall_mem_cons.mpr ⟨hvisits, List.forall_mem_append.mpr ⟨hvisits', hvisits''⟩⟩

/-- A counting loop, whose step is checked after the body. -/
theorem informs_count {x : Symbol} {init test advance : Expr Symbol} {body : List (Expr Symbol)}
    (ih : ∀ d ∈ (count x init test advance body).children, Informs d) :
    Informs (count x init test advance body) := by
  intro c g g' t h hplaced hsighted hknows
  cases rule_of_typing h with
  | @count x init test advance body g g₁ g₂ g₃ g' s t u ts hi ht hc hb ha =>
    obtain ⟨hinner, -⟩ := sighted_scope.mp hsighted
    obtain ⟨hinit, hinner⟩ := sighted_append.mp hinner
    obtain ⟨htest, hinner⟩ := sighted_append.mp (show Sighted ((c.after init.outline).declaring x) _ from hinner)
    obtain ⟨hadvance, hscope⟩ := sighted_append.mp hinner
    obtain ⟨hbody, -⟩ := sighted_scope.mp hscope
    -- `advance` is checked last, but declares nothing that the body could see
    have hquiet : advance.outline.locals = [] := (hplaced.operand (by simp [operands])).locals_outline
    rw [Context.after, hquiet, List.foldl_nil] at hbody
    obtain ⟨hend, hvisits⟩ := ih init (by simp [children]) hi (hplaced.child (by simp [children])) hinit hknows
    obtain ⟨hend', hvisits'⟩ :=
      ih test (by simp [children]) ht (hplaced.child (by simp [children])) htest hend.declaring
    obtain ⟨-, hvisitsBody⟩ := informs_all hb (fun d hd => ih d (by simp [children, hd]))
      (fun d hd => hplaced.child (by simp [children, hd])) hbody hend'
    obtain ⟨-, hvisitsAdvance⟩ := ih advance (by simp [children]) ha (hplaced.child (by simp [children])) hadvance
      (hend'.threads hb)
    refine ⟨hknows.passes h, assignsKnown_of_ne (by simp) ?_⟩
    simp only [Visit.parts, inTurn, inTurn_append, hi.after_eq, hi.typeAt_eq, ht.after_eq, hb.afterAll_eq,
      List.forall_mem_cons, List.forall_mem_append]
    exact ⟨hvisits, hvisits', hvisitsBody, hvisitsAdvance, fun _ hw => by cases hw⟩

/-- A function: its body is checked with the types of its parameters, and seen by nothing outside. -/
theorem informs_function {name : Symbol} {params : List Symbol} {body : List (Expr Symbol)} {ret : Expr Symbol}
    (ih : ∀ d ∈ (function name params body ret).children, Informs d) :
    Informs (function name params body ret) := by
  intro c g g' t h hplaced hsighted hknows
  cases rule_of_typing h with
  | @function name params body ret g g₁ g₂ ts r hb hr =>
    obtain ⟨hinner, -⟩ := sighted_function.mp hsighted
    have hstatements : outlineOfAll body ++ ret.outline = outlineOfAll (body ++ [ret]) := by
      rw [outlineOfAll_append, outlineOfAll, outlineOfAll, Outline.append_done]
    rw [hstatements] at hinner
    have hthreads : Threads Passes (body ++ [ret]) (bodyIndex name params g) g₂ (ts ++ [r]) :=
      hb.append (.cons hr .nil)
    obtain ⟨-, hvisits⟩ := informs_all hthreads ih (fun d hd => hplaced.child hd) (sighted_declareAll.mp hinner)
      hknows.bodyIndex
    exact ⟨hknows.declaring, assignsKnown_of_ne (by simp) hvisits⟩

/-- **The check knows what is assigned.** -/
theorem informs (e : Expr Symbol) : Informs e := by
  induction e using induct_children with
  | h e ih =>
  intro c g g' t h hplaced hsighted hknows
  cases rule_of_typing h with
  | literal => exact informs_inTurn ih hplaced hsighted hknows rfl (by simp) rfl .nil
  | var => exact ⟨hknows, assignsKnown_of_ne (by simp) fun _ hw => by cases hw⟩
  | @declare x value g g₁ t hv =>
    obtain ⟨hvalue, hdeclare⟩ := sighted_append.mp hsighted
    obtain ⟨hend, hvisits⟩ := ih value (by simp [children]) hv (hplaced.child (by simp [children])) hvalue hknows
    rw [outline, Context.after_append]
    refine ⟨hend.declaring, assignsKnown_of_ne (by simp) ?_⟩
    simpa [Visit.parts, children, inTurn] using hvisits
  | @assign x value g g₁ t hv hc =>
    obtain ⟨hvalue, hassign⟩ := sighted_append.mp hsighted
    obtain ⟨hend, hvisits⟩ := ih value (by simp [children]) hv (hplaced.child (by simp [children])) hvalue hknows
    obtain ⟨⟨d, hd, rfl⟩, -⟩ := sighted_refer.mp hassign
    refine ⟨fun d' hd' => ?_, assignsKnown_of_parts ?_ ?_⟩
    · rw [outline, Context.after_append] at hd'
      exact isSome_insert (hend d' hd') _ _
    · intro y value' heq
      cases heq
      rw [hv.after_eq]
      exact hend d hd
    · simpa [Visit.parts, children, inTurn] using hvisits
  | @letIn x value body g g₁ g' s t hv hb =>
    obtain ⟨hvalue, hscope⟩ := sighted_append.mp hsighted
    obtain ⟨hbody, -⟩ := sighted_scope.mp hscope
    obtain ⟨hend, hvisits⟩ := ih value (by simp [children]) hv (hplaced.child (by simp [children])) hvalue hknows
    obtain ⟨-, hvisits'⟩ := ih body (by simp [children]) hb (hplaced.child (by simp [children])) hbody hend.declaring
    rw [outline, Context.after_append]
    refine ⟨fun d hd => isSome_of_passes hb (isSome_insert (hend d hd) _ _), assignsKnown_of_ne (by simp) ?_⟩
    simpa [Visit.parts, hv.after_eq, hv.typeAt_eq] using ⟨hvisits, hvisits'⟩
  | unary ho ha =>
    exact informs_inTurn ih hplaced hsighted hknows (by simp [outline, children, outlineOfAll]) (by simp) rfl
      (.cons ho .nil)
  | binary hl hr ht =>
    exact informs_inTurn ih hplaced hsighted hknows (by simp [outline, children, outlineOfAll]) (by simp) rfl
      (.cons hl (.cons hr .nil))
  | logical hl hla hr hra =>
    exact informs_inTurn ih hplaced hsighted hknows (by simp [outline, children, outlineOfAll]) (by simp) rfl
      (.cons hl (.cons hr .nil))
  | block hb =>
    obtain ⟨hbody, -⟩ := sighted_scope.mp hsighted
    obtain ⟨-, hvisits⟩ := informs_all hb ih (fun d hd => hplaced.child hd) hbody hknows
    exact ⟨hknows.passes h, assignsKnown_of_ne (by simp) hvisits⟩
  | @branch test yes g g₁ g' t ts ht hc hy =>
    obtain ⟨htest, hscope⟩ := sighted_append.mp hsighted
    obtain ⟨hyes, -⟩ := sighted_scope.mp hscope
    obtain ⟨hend, hvisits⟩ := ih test (by simp [children]) ht (hplaced.child (by simp [children])) htest hknows
    obtain ⟨-, hvisits'⟩ := informs_all hy (fun d hd => ih d (by simp [children, hd]))
      (fun d hd => hplaced.child (by simp [children, hd])) hyes hend
    rw [outline, Context.after_append]
    refine ⟨hend.threads hy, assignsKnown_of_ne (by simp) ?_⟩
    simpa [Visit.parts, children, inTurn, ht.after_eq] using ⟨hvisits, hvisits'⟩
  | branches => exact informs_branches ih h hplaced hsighted hknows
  | @loop test body g g₁ g' t ts ht hc hb =>
    obtain ⟨htest, hscope⟩ := sighted_append.mp hsighted
    obtain ⟨hbody, -⟩ := sighted_scope.mp hscope
    obtain ⟨hend, hvisits⟩ := ih test (by simp [children]) ht (hplaced.child (by simp [children])) htest hknows
    obtain ⟨-, hvisits'⟩ := informs_all hb (fun d hd => ih d (by simp [children, hd]))
      (fun d hd => hplaced.child (by simp [children, hd])) hbody hend
    rw [outline, Context.after_append]
    refine ⟨hend.threads hb, assignsKnown_of_ne (by simp) ?_⟩
    simpa [Visit.parts, children, inTurn, ht.after_eq] using ⟨hvisits, hvisits'⟩
  | count => exact informs_count ih h hplaced hsighted hknows
  | print ha => exact informs_inTurn ih hplaced hsighted hknows rfl (by simp) rfl ha
  | list he => exact informs_inTurn ih hplaced hsighted hknows rfl (by simp) rfl he
  | fill hv hs hn =>
    exact informs_inTurn ih hplaced hsighted hknows (by simp [outline, children, outlineOfAll]) (by simp) rfl
      (.cons hv (.cons hs .nil))
  | map he => exact informs_inTurn ih hplaced hsighted hknows (outlineOfEntries_eq _) (by simp) rfl he
  | query ht ha =>
    exact informs_inTurn ih hplaced hsighted hknows (by simp [outline, children, outlineOfAll]) (by simp) rfl
      (.cons ht .nil)
  | extend hop ht ha hl =>
    exact informs_inTurn ih hplaced hsighted hknows (by simp [outline, children, outlineOfAll]) (by simp) rfl
      (.cons ht (.cons ha .nil))
  | delete ht ha hc =>
    exact informs_inTurn ih hplaced hsighted hknows (by simp [outline, children, outlineOfAll]) (by simp) rfl
      (.cons ht (.cons ha .nil))
  | index ht hk hc =>
    exact informs_inTurn ih hplaced hsighted hknows (by simp [outline, children, outlineOfAll]) (by simp) rfl
      (.cons ht (.cons hk .nil))
  | put ht hk hv hc =>
    exact informs_inTurn ih hplaced hsighted hknows (by simp [outline, children, outlineOfAll]) (by simp) rfl
      (.cons ht (.cons hk (.cons hv .nil)))
  | concat hp hs => exact informs_inTurn ih hplaced hsighted hknows rfl (by simp) rfl hp
  | @slice target start stop step g g₁ g₂ g₃ g' t a b ts ht hc hs ha hp hb hst hn =>
    refine informs_inTurn ih hplaced hsighted hknows ?_ (by simp) rfl (.cons ht (.cons hs (.cons hp hst)))
    cases step <;> simp [outline, outlineOfStep, children, outlineOfAll]
  | function => exact informs_function ih h hplaced hsighted hknows
  | call ha hf =>
    obtain ⟨-, hargs⟩ := sighted_refer.mp hsighted
    obtain ⟨hend, hvisits⟩ := informs_all ha ih (fun d hd => hplaced.child hd) hargs hknows
    exact ⟨hend, assignsKnown_of_ne (by simp) hvisits⟩
  | callAny ha hf =>
    obtain ⟨-, hargs⟩ := sighted_refer.mp hsighted
    obtain ⟨hend, hvisits⟩ := informs_all ha ih (fun d hd => hplaced.child hd) hargs hknows
    exact ⟨hend, assignsKnown_of_ne (by simp) hvisits⟩

/-- **When the check of a program comes to an assignment, it knows what is assigned.** -/
theorem assigned_known {source : List (Expr String)} {tree : List (Expr Symbol)}
    (hplaced : ∀ e ∈ source, e.Placed) (h : resolve source = .ok tree) (htree : Threads Passes tree .empty g' ts)
    {v : Visit} (hv : v ∈ programVisits tree) : v.AssignsKnown := by
  obtain ⟨hrename, hfaithful⟩ := faithful_of_resolve h
  have hplaced' : ∀ e ∈ tree, e.Placed := by
    intro e he
    refine (placed_rename (f := Symbol.name) e).mp (hplaced _ ?_)
    rw [← hrename, renameAll_eq_map]
    exact List.mem_map_of_mem he
  have hsighted : Sighted {} (outlineOfAll tree) := by
    intro u hu
    obtain ⟨d, hd, htarget⟩ := Option.map_eq_some_iff.mp (hfaithful u hu)
    exact ⟨d, List.mem_of_find?_eq_some hd, htarget⟩
  obtain ⟨-, hvisits⟩ := informs_all htree (fun e _ => informs e) hplaced' hsighted fun _ hd => by cases hd
  obtain ⟨w, hw, hv⟩ := mem_visitsOfAll.mp hv
  exact hvisits w hw v hv

end Known

end ExactScript
