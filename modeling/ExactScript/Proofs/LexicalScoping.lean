import ExactScript.Proofs.OutlineResolution

/-!
# Resolution is lexical scoping

A tree is resolved if and only if its outline keeps the rules of scoping, and then nothing changes but
that every name is joined by the id of its innermost visible declaration.

The proof follows the resolver along the outline. The state *tracks* the context of the outline when the
two agree on every name (`Resolver.Tracks`); a part of resolution *follows* a part of the outline when,
from tracking states, it succeeds exactly if that part keeps the rules, and leads to a tracking state again
(`Resolver.Follows`).

## Contents
* `Outline.Accepted`, the rules for a part of an outline, and how they go through sequencing;
* `Resolver.Tracks`, and what `declare` and `reference` do to a tracking state;
* `Resolver.Follows` and its rules, `Expr.follows_resolve`;
* `resolve_lexical`: the result.
-/

namespace ExactScript

/-! ## Contexts -/

namespace Context

variable {β γ : Type} {c : Context β}

/-- The context after a part of an outline. -/
def after (c : Context β) (o : Outline β) : Context β := o.locals.foldl declaring c

@[simp] theorem after_done : c.after .done = c := rfl

theorem after_append (o p : Outline β) : c.after (o ++ p) = (c.after o).after p := by
  rw [after, Outline.locals_append, List.foldl_append]
  rfl

theorem map_declaring (f : β → γ) (x : β) : (c.declaring x).map f = (c.map f).declaring (f x) := by
  simp [map, declaring]

theorem map_entering (f : β → γ) (x : β) : (c.entering x).map f = (c.map f).entering (f x) := rfl

theorem map_after (f : β → γ) (o : Outline β) : (c.after o).map f = (c.map f).after (o.map f) := by
  rw [after, after, Outline.locals_map]
  induction o.locals generalizing c with
  | nil => rfl
  | cons x xs ih => rw [List.foldl_cons, List.map_cons, List.foldl_cons, ih, map_declaring]

end Context

theorem Outline.uses_append {β : Type} {c : Context β} (o p : Outline β) :
    (o ++ p).uses c = o.uses c ++ p.uses (c.after o) := by
  induction o generalizing c with
  | done => rfl
  | refer x o ih => exact congrArg (⟨x, c⟩ :: ·) ih
  | declare x o ih => exact ih
  | scope body o _ ih => rw [scope_append, uses, uses, ih, List.append_assoc]; rfl
  | function x body o _ ih => rw [function_append, uses, uses, ih, List.append_assoc]; rfl

/-! ## The rules for a part of an outline -/

/-- The use has a declaration that it may use. -/
def Use.Legal (u : Use String) : Prop :=
  ∃ d, u.declaration? id = some d ∧ (u.Foreign d → u.OwnName)

/-- The rules of scoping for a part of an outline, when `own` is declared before it in the same scope. -/
structure Outline.Accepted (c : Context String) (own : List String) (o : Outline String) : Prop where
  distinct : (own ++ o.locals).Nodup
  inner : ∀ names ∈ o.scopes, names.Nodup
  uses : ∀ u ∈ o.uses c, u.Legal

namespace Outline

variable {c : Context String} {own : List String} {x : String} {o p : Outline String}

theorem accepted_append : (o ++ p).Accepted c own ↔
    o.Accepted c own ∧ p.Accepted (c.after o) (own ++ o.locals) := by
  constructor
  · intro h
    have hd := h.distinct
    rw [locals_append, ← List.append_assoc] at hd
    have hi := h.inner
    rw [scopes_append] at hi
    have hu := h.uses
    rw [uses_append] at hu
    exact ⟨⟨(List.nodup_append.mp hd).1, fun s hs => hi s (List.mem_append_left _ hs),
        fun u hmem => hu u (List.mem_append_left _ hmem)⟩,
      ⟨hd, fun s hs => hi s (List.mem_append_right _ hs),
        fun u hmem => hu u (List.mem_append_right _ hmem)⟩⟩
  · rintro ⟨ho, hp⟩
    refine ⟨?_, fun s hs => ?_, fun u hmem => ?_⟩
    · rw [locals_append, ← List.append_assoc]
      exact hp.distinct
    · rw [scopes_append] at hs
      exact (List.mem_append.mp hs).elim (ho.inner s) (hp.inner s)
    · rw [uses_append] at hmem
      exact (List.mem_append.mp hmem).elim (ho.uses u) (hp.uses u)

theorem nodup_concat_iff (h : own.Nodup) : (own ++ [x]).Nodup ↔ x ∉ own := by
  rw [← List.concat_eq_append, List.nodup_concat, and_iff_left h]

theorem accepted_done (h : own.Nodup) : done.Accepted c own :=
  ⟨by simpa [locals] using h, by simp [scopes], by simp [Outline.uses]⟩

theorem accepted_declare (h : own.Nodup) : (declare x done).Accepted c own ↔ x ∉ own := by
  constructor
  · exact fun ha => (nodup_concat_iff h).mp ha.distinct
  · exact fun hx => ⟨(nodup_concat_iff h).mpr hx, by simp [scopes], by simp [Outline.uses]⟩

theorem accepted_refer (h : own.Nodup) : (refer x done).Accepted c own ↔ (Use.mk x c).Legal := by
  constructor
  · exact fun ha => ha.uses _ List.mem_cons_self
  · exact fun hu => ⟨by simpa [locals] using h, by simp [scopes], by simpa [Outline.uses] using hu⟩

theorem accepted_scope (h : own.Nodup) : (scope o done).Accepted c own ↔ o.Accepted c [] := by
  constructor
  · intro ha
    refine ⟨ha.inner _ (by simp [scopes]), fun s hs => ha.inner s (by simp [scopes, hs]), fun u hu => ?_⟩
    exact ha.uses u (by simp [Outline.uses, hu])
  · intro ho
    refine ⟨by simpa [locals] using h, ?_, by simpa [Outline.uses] using ho.uses⟩
    simpa [scopes] using And.intro ho.distinct ho.inner

theorem accepted_function (h : own.Nodup) : (function x o done).Accepted c own ↔
    x ∉ own ∧ o.Accepted ((c.declaring x).entering x) [] := by
  constructor
  · intro ha
    refine ⟨(nodup_concat_iff h).mp ha.distinct, ha.inner _ (by simp [scopes]),
      fun s hs => ha.inner s (by simp [scopes, hs]), fun u hu => ha.uses u (by simp [Outline.uses, hu])⟩
  · rintro ⟨hx, ho⟩
    refine ⟨(nodup_concat_iff h).mpr hx, ?_, by simpa [Outline.uses] using ho.uses⟩
    simpa [scopes] using And.intro ho.distinct ho.inner

/-- For a whole outline these are the rules of scoping. -/
theorem accepted_iff : o.Accepted {} [] ↔ o.LexicallyScoped := by
  constructor
  · intro h
    refine ⟨List.forall_mem_cons.mpr ⟨h.distinct, h.inner⟩, fun u hu => ?_, fun u hu d hd => ?_⟩
    · obtain ⟨d, hd, -⟩ := h.uses u hu
      rw [hd]
      rfl
    · obtain ⟨d', hd', hmay⟩ := h.uses u hu
      cases hd'.symm.trans hd
      exact hmay
  · intro h
    obtain ⟨hdistinct, hinner⟩ := List.forall_mem_cons.mp h.distinct
    refine ⟨hdistinct, hinner, fun u hu => ?_⟩
    obtain ⟨d, hd⟩ := Option.isSome_iff_exists.mp (h.visible u hu)
    exact ⟨d, hd, h.owned u hu d hd⟩

end Outline

/-! ## Scopes of the resolver -/

namespace Scope

variable {κ ν : Type} [DecidableEq κ]

theorem get?_insert (s : Scope κ ν) (k j : κ) (v : ν) :
    (s.insert k v).get? j = if k = j then some v else s.get? j := by
  induction s with
  | nil => rfl
  | cons e s ih =>
    obtain ⟨i, w⟩ := e
    by_cases hi : i = k
    · subst hi
      by_cases hj : i = j <;> simp [insert, get?, hj]
    · simp only [insert, if_neg hi, get?, ih]
      by_cases hj : i = j
      · have hk : k ≠ j := fun h => hi (hj.trans h.symm)
        simp [hj, hk]
      · simp [hj]

end Scope

namespace Scopes

variable {κ ν : Type} [DecidableEq κ] (s : Scopes κ ν)

theorem get?_cons {scope : Scope κ ν} {rest : List (Scope κ ν)} {outermost : Scope κ ν} {k : κ} :
    (⟨scope :: rest, outermost⟩ : Scopes κ ν).get? k =
      (scope.get? k).or ((⟨rest, outermost⟩ : Scopes κ ν).get? k) := by
  simp only [get?, getWithDepth?, toList, List.cons_append, findWithDepth?]
  cases scope.get? k <;> rfl

theorem get?_nil {outermost : Scope κ ν} {k : κ} :
    (⟨[], outermost⟩ : Scopes κ ν).get? k = outermost.get? k := by
  simp only [get?, getWithDepth?, toList, List.nil_append, findWithDepth?]
  cases outermost.get? k <;> rfl

theorem get?_add (k j : κ) (v : ν) : (s.add k v).get? j = if k = j then some v else s.get? j := by
  obtain ⟨inner, outermost⟩ := s
  cases inner with
  | nil => rw [add, get?_nil, get?_nil, Scope.get?_insert]
  | cons scope rest =>
    rw [add, get?_cons, get?_cons, Scope.get?_insert]
    split <;> rfl

theorem get?_openScope (k : κ) : s.openScope.get? k = s.get? k := get?_cons

theorem innermostContains_openScope (k : κ) : s.openScope.innermostContains k = false := rfl

theorem innermostContains_add (k j : κ) (v : ν) :
    (s.add k v).innermostContains j = (decide (k = j) || s.innermostContains j) := by
  have h : (s.add k v).innermost = s.innermost.insert k v := by
    obtain ⟨inner, outermost⟩ := s
    cases inner <;> rfl
  rw [innermostContains, h, Scope.get?_insert, innermostContains]
  by_cases hk : k = j <;> simp [hk]

end Scopes

/-! ## States that track a context -/

namespace Resolver

/-- The function at a level among those around a position. -/
def ownerAt : List Symbol → Nat → Option Nat
  | [], _ => none
  | f :: around, level => if level = around.length + 1 then some f.id else ownerAt around level

theorem ownerAt_zero (around : List Symbol) : ownerAt around 0 = none := by
  induction around with
  | nil => rfl
  | cons f around ih => exact (if_neg (Nat.zero_ne_add_one _)).trans ih

theorem ownerAt_length (around : List Symbol) :
    ownerAt around around.length = around.head?.map Symbol.id := by
  cases around with
  | nil => rfl
  | cons f around => exact if_pos rfl

theorem exists_ownerAt {around : List Symbol} {level : Nat} (hpos : level ≠ 0)
    (hle : level ≤ around.length) : ∃ f ∈ around, ownerAt around level = some f.id := by
  induction around with
  | nil => exact absurd (Nat.le_zero.mp hle) hpos
  | cons f around ih =>
    by_cases h : level = around.length + 1
    · exact ⟨f, List.mem_cons_self, if_pos h⟩
    · have hle' : level ≤ around.length := by
        rw [List.length_cons] at hle
        omega
      obtain ⟨g, hg, hown⟩ := ih hle'
      exact ⟨g, List.mem_cons_of_mem _ hg, (if_neg h).trans hown⟩

/-- The binding that stands for a visible declaration. -/
def bindingOf (c : Context Symbol) (d : Nat × Symbol) : Binding := ⟨d.2, ownerAt c.around d.1⟩

/-- The ids of a context tell its declarations and its functions apart. -/
structure Distinguishes (c : Context Symbol) (next : Nat) : Prop where
  visible_lt : ∀ d ∈ c.visible, d.2.id < next
  around_lt : ∀ f ∈ c.around, f.id < next
  level_le : ∀ d ∈ c.visible, d.1 ≤ c.around.length
  around_nodup : (c.around.map Symbol.id).Nodup
  eq_of_id : ∀ d ∈ c.visible, ∀ f ∈ c.around, d.2.id = f.id → d.2 = f
  /-- The name of the function at hand means this function, unless it is declared anew inside. -/
  own_name : ∀ f, c.around.head? = some f → ∀ d, c.declaration? Symbol.name f.name = some d →
    d.1 = c.around.length ∨ d.2 = f

/-- The state finds what is visible in the context, and `own` in its innermost scope. -/
structure Tracks (r : Resolver) (c : Context Symbol) (own : List Symbol) : Prop where
  functions : r.functions = c.around
  lookup : ∀ x, r.scopes.get? x = (c.declaration? Symbol.name x).map (bindingOf c)
  innermost : ∀ x, r.scopes.innermostContains x = true ↔ x ∈ own.map Symbol.name
  own_nodup : (own.map Symbol.name).Nodup
  ids : Distinguishes c r.nextId

variable {r : Resolver} {c : Context Symbol} {own : List Symbol} {x : String} {d : Nat × Symbol}

theorem declaration?_map (c : Context Symbol) (x : String) :
    (c.map Symbol.name).declaration? id x =
      (c.declaration? Symbol.name x).map (Prod.map id Symbol.name) := by
  rw [Context.declaration?, Context.map, List.find?_map]
  rfl

theorem mem_of_declaration? (h : c.declaration? Symbol.name x = some d) :
    d ∈ c.visible ∧ d.2.name = x :=
  ⟨List.mem_of_find?_eq_some h, by simpa using List.find?_some h⟩

/-- Whether a binding may be used is said by its level and its name. -/
theorem usableIn_iff {next : Nat} (h : Distinguishes c next) {f : Symbol}
    (hf : c.around.head? = some f) (hd : c.declaration? Symbol.name x = some d) :
    usableIn (bindingOf c d) (some f) = true ↔
      (d.1 ≠ 0 ∧ d.1 ≠ c.around.length → f.name = x) := by
  obtain ⟨hmem, hname⟩ := mem_of_declaration? hd
  by_cases hzero : d.1 = 0
  · simp [usableIn, bindingOf, hzero, ownerAt_zero]
  by_cases hlength : d.1 = c.around.length
  · simp [usableIn, bindingOf, hlength, ownerAt_length, hf]
  obtain ⟨around, haround⟩ : ∃ around, c.around = f :: around := by
    cases hc : c.around with
    | nil => simp [hc] at hf
    | cons g around =>
      rw [hc] at hf
      exact ⟨around, by rw [Option.some.inj hf]⟩
  -- the owner is one of the functions around the one at hand
  have hle : d.1 ≤ around.length := by
    have := h.level_le d hmem
    rw [haround, List.length_cons] at this hlength
    omega
  obtain ⟨g, hg, howner⟩ := exists_ownerAt hzero hle
  have howner' : ownerAt c.around d.1 = some g.id := by
    rw [haround, ownerAt, if_neg (by omega), howner]
  have hne : g.id ≠ f.id := by
    have hnodup := h.around_nodup
    rw [haround, List.map_cons, List.nodup_cons] at hnodup
    exact fun heq => hnodup.1 (heq ▸ List.mem_map_of_mem hg)
  have husable : usableIn (bindingOf c d) (some f) = true ↔ d.2.id = f.id := by
    simp [usableIn, bindingOf, howner', hne]
  rw [husable]
  constructor
  · intro hid _
    rw [← h.eq_of_id d hmem f (by simp [haround]) hid, hname]
  · intro hown
    have hfx : f.name = x := hown ⟨hzero, hlength⟩
    rw [← hfx] at hd
    rcases h.own_name f hf d hd with hlevel | hself
    · exact absurd hlevel hlength
    · rw [hself]

/-- **A reference finds the innermost visible declaration**, or there is none that may be used. -/
theorem reference_of_tracks (h : Tracks r c own) (x : String) :
    (∃ d, c.declaration? Symbol.name x = some d ∧ (Use.mk x (c.map Symbol.name)).Legal ∧
      reference x r = .ok d.2 r) ∨
    (¬ (Use.mk x (c.map Symbol.name)).Legal ∧ ∃ e, reference x r = .error e r) := by
  have hmap : (Use.mk x (c.map Symbol.name)).declaration? id =
      (c.declaration? Symbol.name x).map (Prod.map id Symbol.name) := declaration?_map c x
  have hlookup := h.lookup x
  cases hd : c.declaration? Symbol.name x with
  | none =>
    rw [hd] at hlookup hmap
    refine .inr ⟨?_, .unboundName x, ?_⟩
    · rintro ⟨d, hfound, -⟩
      rw [hmap] at hfound
      cases hfound
    · simp only [Option.map_none] at hlookup
      rw [Resolver.reference, hlookup]
  | some d =>
    rw [hd, Option.map_some] at hlookup hmap
    have hforeign : (Use.mk x (c.map Symbol.name)).Foreign (Prod.map id Symbol.name d) ↔
        d.1 ≠ 0 ∧ d.1 ≠ c.around.length := by
      simp [Use.Foreign, Context.map]
    have hlegal : (Use.mk x (c.map Symbol.name)).Legal ↔
        (d.1 ≠ 0 ∧ d.1 ≠ c.around.length → (c.around.map Symbol.name).head? = some x) := by
      constructor
      · rintro ⟨d', hd', hmay⟩ hf
        cases hmap.symm.trans hd'
        exact hmay (hforeign.mpr hf)
      · exact fun hmay => ⟨_, hmap, fun hf => hmay (hforeign.mp hf)⟩
    cases haround : c.around with
    | nil =>
      have hfunctions : r.functions = [] := h.functions.trans haround
      have hle := h.ids.level_le d (mem_of_declaration? hd).1
      rw [haround, List.length_nil] at hle
      refine .inl ⟨d, rfl, hlegal.mpr fun hf => absurd (Nat.le_zero.mp hle) hf.1, ?_⟩
      rw [Resolver.reference, hlookup]
      simp only [hfunctions]
      rfl
    | cons f around =>
      have hfunctions : r.functions = f :: around := h.functions.trans haround
      have husable := usableIn_iff h.ids (f := f) (by rw [haround]; rfl) hd
      have hlegal' : (Use.mk x (c.map Symbol.name)).Legal ↔ usableIn (bindingOf c d) (some f) = true := by
        rw [hlegal, husable, haround, List.map_cons, List.head?_cons, Option.some.injEq]
      have hreference : Resolver.reference x r = if usableIn (bindingOf c d) (some f) then .ok d.2 r
          else .error (.foreignLocal f.name x) r := by
        rw [Resolver.reference, hlookup]
        simp only [hfunctions]
        rfl
      by_cases hu : usableIn (bindingOf c d) (some f) = true
      · exact .inl ⟨d, rfl, hlegal'.mpr hu, hreference.trans (if_pos hu)⟩
      · exact .inr ⟨fun hl => hu (hlegal'.mp hl), _, hreference.trans (if_neg hu)⟩

theorem tracks_empty : Tracks {} {} [] where
  functions := rfl
  lookup _ := rfl
  innermost x := by simp [Scopes.innermostContains, Scopes.innermost, Scopes.empty, Scope.get?]
  own_nodup := .nil
  ids := {
    visible_lt := by simp
    around_lt := by simp
    level_le := by simp
    around_nodup := .nil
    eq_of_id := by simp
    own_name := by simp }

theorem Distinguishes.mono {next next' : Nat} (h : Distinguishes c next) (hle : next ≤ next') :
    Distinguishes c next' where
  visible_lt d hd := Nat.lt_of_lt_of_le (h.visible_lt d hd) hle
  around_lt f hf := Nat.lt_of_lt_of_le (h.around_lt f hf) hle
  level_le := h.level_le
  around_nodup := h.around_nodup
  eq_of_id := h.eq_of_id
  own_name := h.own_name

theorem declaration?_declaring (c : Context Symbol) (s : Symbol) (y : String) :
    (c.declaring s).declaration? Symbol.name y =
      if s.name = y then some (c.around.length, s) else c.declaration? Symbol.name y := by
  rw [Context.declaration?, Context.declaring, List.find?_cons]
  by_cases hy : s.name = y <;> simp [hy, Context.declaration?]

theorem Distinguishes.declaring {s : Symbol} (h : Distinguishes c s.id) :
    Distinguishes (c.declaring s) (s.id + 1) where
  visible_lt := by
    refine List.forall_mem_cons.mpr ⟨Nat.lt_succ_self _, fun d hd => ?_⟩
    exact Nat.lt_succ_of_lt (h.visible_lt d hd)
  around_lt f hf := Nat.lt_succ_of_lt (h.around_lt f hf)
  level_le := List.forall_mem_cons.mpr ⟨Nat.le_refl _, h.level_le⟩
  around_nodup := h.around_nodup
  eq_of_id := by
    refine List.forall_mem_cons.mpr ⟨fun f hf hid => ?_, h.eq_of_id⟩
    exact absurd hid (Nat.ne_of_gt (h.around_lt f hf))
  own_name f hf d hd := by
    rw [declaration?_declaring] at hd
    split at hd
    · cases hd
      exact .inl rfl
    · exact h.own_name f hf d hd

/-- A function whose name was just declared can be entered. -/
theorem Distinguishes.entering {s : Symbol} (h : Distinguishes c s.id) :
    Distinguishes ((c.declaring s).entering s) (s.id + 1) where
  visible_lt := h.declaring.visible_lt
  around_lt := List.forall_mem_cons.mpr ⟨Nat.lt_succ_self _, h.declaring.around_lt⟩
  level_le d hd := Nat.le_succ_of_le (h.declaring.level_le d hd)
  around_nodup := by
    refine List.nodup_cons.mpr ⟨fun hmem => ?_, h.around_nodup⟩
    obtain ⟨f, hf, hid⟩ := List.mem_map.mp hmem
    exact absurd hid (Nat.ne_of_lt (h.around_lt f hf))
  eq_of_id d hd := by
    refine List.forall_mem_cons.mpr ⟨fun hid => ?_, h.declaring.eq_of_id d hd⟩
    rcases List.mem_cons.mp hd with rfl | hd
    · rfl
    · exact absurd hid (Nat.ne_of_lt (h.visible_lt d hd))
  own_name f hf d hd := by
    cases hf
    have hself : (c.declaring s).declaration? Symbol.name s.name = some (c.around.length, s) := by
      rw [declaration?_declaring, if_pos rfl]
    cases hself.symm.trans hd
    exact .inr rfl

/-- **A declaration is visible from then on**, unless its scope has the name already. -/
theorem declare_of_tracks (h : Tracks r c own) (x : String) :
    (x ∉ own.map Symbol.name ∧ r.Admissible ⟨x, r.nextId⟩ ∧
      declare x r = .ok ⟨x, r.nextId⟩ (r.declaring ⟨x, r.nextId⟩) ∧
      Tracks (r.declaring ⟨x, r.nextId⟩) (c.declaring ⟨x, r.nextId⟩) (own ++ [⟨x, r.nextId⟩])) ∨
    (x ∈ own.map Symbol.name ∧ ∃ e, declare x r = .error e r) := by
  cases hx : r.scopes.innermostContains x with
  | true =>
    refine .inr ⟨(h.innermost x).mp hx, .duplicateDeclaration x, ?_⟩
    rw [declare, if_pos hx]
  | false =>
    have hfree : x ∉ own.map Symbol.name := fun hmem => by
      rw [(h.innermost x).mpr hmem] at hx
      cases hx
    refine .inl ⟨hfree, ⟨Nat.le_refl _, hx⟩, ?_, ?_⟩
    · rw [declare, if_neg (by simp [hx])]
      rfl
    · refine ⟨h.functions, fun y => ?_, fun y => ?_, ?_, h.ids.declaring⟩
      · have howner : r.functions.head?.map Symbol.id = ownerAt c.around c.around.length := by
          rw [ownerAt_length, h.functions]
        rw [declaration?_declaring, Resolver.declaring, Scopes.get?_add, h.lookup]
        split
        · rw [howner]
          rfl
        · rfl
      · rw [Resolver.declaring, Scopes.innermostContains_add]
        rw [Bool.or_eq_true, decide_eq_true_eq, h.innermost, List.map_append, List.mem_append,
          List.map_singleton, List.mem_singleton]
        exact or_comm.trans (or_congr_right eq_comm)
      · rw [List.map_append]
        exact (Outline.nodup_concat_iff h.own_nodup).mpr hfree

theorem Tracks.opened (h : Tracks r c own) : Tracks r.opened c [] where
  functions := h.functions
  lookup x := (Scopes.get?_openScope _ x).trans (h.lookup x)
  innermost x := by simp [Resolver.opened, Scopes.innermostContains_openScope]
  own_nodup := .nil
  ids := h.ids

/-- The state in the scope of a function whose name was just declared. -/
theorem Tracks.entering {s : Symbol} (h : Tracks (r.declaring s) (c.declaring s) own)
    (hids : Distinguishes c s.id) :
    Tracks ((r.declaring s).entering s).opened ((c.declaring s).entering s) [] where
  functions := congrArg (s :: ·) h.functions
  lookup y := by
    rw [Resolver.opened, Scopes.get?_openScope]
    refine (h.lookup y).trans (Option.map_congr fun d hd => ?_)
    -- a level that was there before is that of the same function as before
    have hle := hids.declaring.level_le d (mem_of_declaration? hd).1
    have hne : d.1 ≠ c.around.length + 1 := Nat.ne_of_lt (Nat.lt_succ_of_le hle)
    exact congrArg (Binding.mk d.2) (if_neg hne).symm
  innermost y := by simp [Resolver.opened, Scopes.innermostContains_openScope]
  own_nodup := .nil
  ids := hids.entering

/-! ## Following an outline -/

variable {α β : Type}

/-- The result `t` of following an outline in a context: every use has the symbol of its declaration. -/
def Faithful (c : Context Symbol) (t : Outline Symbol) : Prop :=
  ∀ u ∈ t.uses c, (u.declaration? Symbol.name).map Prod.snd = some u.target

theorem faithful_append {t t' : Outline Symbol} (h : Faithful c t) (h' : Faithful (c.after t) t') :
    Faithful c (t ++ t') := by
  intro u hu
  rw [Outline.uses_append] at hu
  exact (List.mem_append.mp hu).elim (h u) (h' u)

/-- The state `r'` after the part `o` of an outline, which became `t`. -/
structure Followed (r : Resolver) (c : Context Symbol) (own : List Symbol) (o : Outline String)
    (t : Outline Symbol) (r' : Resolver) : Prop where
  grows : Grows r r'
  tracks : Tracks r' (c.after t) (own ++ t.locals)
  names : t.map Symbol.name = o
  faithful : Faithful c t

/-- From a tracking state, `f` succeeds exactly if the part `o` of the outline keeps the rules; its result
goes as `P` says with what became of `o`. -/
def Follows (f : Resolve α) (o : Outline String) (P : α → Outline Symbol → Prop) : Prop :=
  ∀ r c own, Tracks r c own →
    (o.Accepted (c.map Symbol.name) (own.map Symbol.name) ∧
      ∃ a r' t, f r = .ok a r' ∧ Followed r c own o t r' ∧ P a t) ∨
    (¬ o.Accepted (c.map Symbol.name) (own.map Symbol.name) ∧ ∃ e r', f r = .error e r')

/-- When what was opened is closed, the state is as before up to the ids given out. -/
theorem closeScope_of_grows {r' : Resolver} (h : Grows r.opened r') :
    r'.scopes.closeScope.2 = r.scopes := by
  obtain ⟨scope, hclose⟩ := h.around [] r.scopes rfl
  exact congrArg Prod.snd hclose

theorem Tracks.mono (h : Tracks r c own) {r' : Resolver} (hl : Like r r') : Tracks r' c own where
  functions := hl.functions.trans h.functions
  lookup x := by rw [hl.scopes, h.lookup]
  innermost x := by rw [hl.scopes, h.innermost]
  own_nodup := h.own_nodup
  ids := h.ids.mono hl.nextId_le

namespace Follows

variable {f : Resolve α} {k : α → Resolve β} {o o' : Outline String}
  {P : α → Outline Symbol → Prop} {Q : β → Outline Symbol → Prop}

theorem pure {a : α} (h : P a .done) : Follows (pure a) .done P := by
  intro r c own hr
  refine .inl ⟨Outline.accepted_done hr.own_nodup, a, r, .done, rfl, ?_, h⟩
  exact ⟨.refl r, by simpa [Outline.locals] using hr, rfl, by simp [Faithful, Outline.uses]⟩

theorem bind (h : Follows f o P)
    (hk : ∀ a t, P a t → Follows (k a) o' fun b t' => Q b (t ++ t')) :
    Follows (f >>= k) (o ++ o') Q := by
  intro r c own hr
  rw [Outline.accepted_append]
  rcases h r c own hr with ⟨haccepted, a, r', t, hf, hfollowed, hp⟩ | ⟨hrejected, e, r', hf⟩
  · -- the second part is judged where the first one ended
    have hcontext : (c.map Symbol.name).after o = (c.after t).map Symbol.name := by
      rw [Context.map_after, hfollowed.names]
    have hown : own.map Symbol.name ++ o.locals = (own ++ t.locals).map Symbol.name := by
      rw [List.map_append, ← Outline.locals_map, hfollowed.names]
    rw [hcontext, hown]
    rcases hk a t hp r' (c.after t) (own ++ t.locals) hfollowed.tracks with
      ⟨haccepted', b, r'', t', hb, hfollowed', hq⟩ | ⟨hrejected', e, r'', hb⟩
    · refine .inl ⟨⟨haccepted, haccepted'⟩, b, r'', t ++ t', (bind_ok hf).trans hb, ?_, hq⟩
      refine ⟨hfollowed.grows.trans hfollowed'.grows, ?_, ?_, ?_⟩
      · rw [Context.after_append, Outline.locals_append, ← List.append_assoc]
        exact hfollowed'.tracks
      · rw [Outline.map_append, hfollowed.names, hfollowed'.names]
      · exact faithful_append hfollowed.faithful hfollowed'.faithful
    · exact .inr ⟨fun hboth => hrejected' hboth.2, e, r'', (bind_ok hf).trans hb⟩
  · exact .inr ⟨fun hboth => hrejected hboth.1, e, r', bind_fails hf⟩

/-- The result is only put together. -/
theorem map {g : α → β} (h : Follows f o P) (hg : ∀ a t, P a t → Q (g a) t) :
    Follows (f >>= fun a => Pure.pure (g a)) o Q := by
  have hbind : Follows (f >>= fun a => Pure.pure (g a)) (o ++ .done) Q :=
    h.bind fun a t hp => .pure (by simpa using hg a t hp)
  rwa [Outline.append_done] at hbind

theorem imp {P' : α → Outline Symbol → Prop} (h : Follows f o P) (hP : ∀ a t, P a t → P' a t) :
    Follows f o P' := by
  intro r c own hr
  rcases h r c own hr with ⟨haccepted, a, r', t, hf, hfollowed, hp⟩ | hrejected
  · exact .inl ⟨haccepted, a, r', t, hf, hfollowed, hP a t hp⟩
  · exact .inr hrejected

theorem reference (x : String) :
    Follows (reference x) (.refer x .done) fun s t => t = .refer s .done ∧ s.name = x := by
  intro r c own hr
  rw [Outline.accepted_refer hr.own_nodup]
  rcases reference_of_tracks hr x with ⟨d, hd, hlegal, href⟩ | ⟨hillegal, e, href⟩
  · have hname := (mem_of_declaration? hd).2
    refine .inl ⟨hlegal, d.2, r, .refer d.2 .done, href, ?_, rfl, hname⟩
    refine ⟨.refl r, by simpa [Outline.locals, Context.after] using hr, by rw [← hname]; rfl, ?_⟩
    intro u hu
    obtain rfl := List.mem_singleton.mp hu
    show (c.declaration? Symbol.name d.2.name).map Prod.snd = some d.2
    rw [hname, hd]
    rfl
  · exact .inr ⟨hillegal, e, r, href⟩

theorem declare (x : String) :
    Follows (declare x) (.declare x .done) fun s t => t = .declare s .done ∧ s.name = x := by
  intro r c own hr
  rw [Outline.accepted_declare hr.own_nodup]
  rcases declare_of_tracks hr x with ⟨hfree, hadmissible, hdeclare, htracks⟩ | ⟨htaken, e, hdeclare⟩
  · refine .inl ⟨hfree, _, _, .declare ⟨x, r.nextId⟩ .done, hdeclare, ?_, rfl, rfl⟩
    exact ⟨.declaring hadmissible, htracks, rfl, by simp [Faithful, Outline.uses]⟩
  · exact .inr ⟨fun hfree => hfree htaken, e, r, hdeclare⟩

/-- What is declared in a scope of its own is forgotten. -/
theorem inScope (h : Follows f o fun a t => P a (.scope t .done)) :
    Follows (inScope f) (.scope o .done) P := by
  intro r c own hr
  rw [Outline.accepted_scope hr.own_nodup]
  rcases h r.opened c [] hr.opened with ⟨haccepted, a, r', t, hf, hfollowed, hp⟩ | ⟨hrejected, e, r', hf⟩
  · refine .inl ⟨haccepted, a, _, .scope t .done, inScope_ok hf, ?_, hp⟩
    have hlike : Like r r'.closed :=
      ⟨hfollowed.grows.functions, closeScope_of_grows hfollowed.grows, hfollowed.grows.nextId_le⟩
    refine ⟨hlike.grows, ?_, by rw [← hfollowed.names]; rfl, ?_⟩
    · simpa [Outline.locals, Context.after] using hr.mono hlike
    · simpa [Faithful, Outline.uses] using hfollowed.faithful
  · exact .inr ⟨hrejected, e, _, inScope_fails hf⟩

/-- A function declares its name around it, and has a scope for everything inside. -/
theorem function {x : String} {k : Symbol → Resolve α}
    (h : ∀ s, s.name = x → Follows (k s) o fun a t => P a (.function s t .done)) :
    Follows (Resolver.declare x >>= fun s => inFunction s (Resolver.inScope (k s)))
      (.function x o .done) P := by
  intro r c own hr
  rw [Outline.accepted_function hr.own_nodup]
  rcases declare_of_tracks hr x with ⟨hfree, hadmissible, hdeclare, htracks⟩ | ⟨htaken, e, hdeclare⟩
  · have hcontext : ((c.map Symbol.name).declaring x).entering x =
        ((c.declaring ⟨x, r.nextId⟩).entering ⟨x, r.nextId⟩).map Symbol.name := by
      rw [Context.map_entering, Context.map_declaring]
    rw [hcontext]
    have hentered := htracks.entering hr.ids
    rcases h ⟨x, r.nextId⟩ rfl _ _ [] hentered with
      ⟨haccepted, a, r', t, hf, hfollowed, hp⟩ | ⟨hrejected, e, r', hf⟩
    · refine .inl ⟨⟨hfree, haccepted⟩, a, _, .function ⟨x, r.nextId⟩ t .done,
        (bind_ok hdeclare).trans (inFunction_ok (inScope_ok hf)), ?_, hp⟩
      have hclose : r'.scopes.closeScope.2 =
          ((r.declaring ⟨x, r.nextId⟩).entering ⟨x, r.nextId⟩).scopes :=
        closeScope_of_grows hfollowed.grows
      have hlike : Like (r.declaring ⟨x, r.nextId⟩)
          { r' with scopes := r'.scopes.closeScope.2, functions := r'.functions.tail } :=
        ⟨congrArg List.tail hfollowed.grows.functions, hclose, hfollowed.grows.nextId_le⟩
      refine ⟨(Grows.declaring hadmissible).trans hlike.grows, htracks.mono hlike,
        by rw [← hfollowed.names]; rfl, ?_⟩
      simpa [Faithful, Outline.uses] using hfollowed.faithful
    · have hfails := inFunction_fails (inScope_fails hf)
      exact .inr ⟨fun hboth => hrejected hboth.2, e, _, (bind_ok hdeclare).trans hfails⟩
  · exact .inr ⟨fun hboth => hboth.1 htaken, e, r, bind_fails hdeclare⟩

theorem declareAll (xs : List String) :
    Follows (Resolver.declareAll xs) (.declareAll xs .done) fun ss t =>
      t = .declareAll ss .done ∧ ss.map Symbol.name = xs := by
  induction xs with
  | nil => exact .pure ⟨rfl, rfl⟩
  | cons x xs ih =>
    refine (Follows.declare x).bind fun s t hs => ih.map fun ss t' hss => ?_
    obtain ⟨rfl, rfl⟩ := hs
    obtain ⟨rfl, rfl⟩ := hss
    exact ⟨rfl, rfl⟩

end Follows

end Resolver

/-! ## Trees -/

namespace Expr

open Resolver

/-- The resolved tree has the outline `t` and is `e` again when the ids are left out. -/
def Resolved (e : Expr String) (e' : Expr Symbol) (t : Outline Symbol) : Prop :=
  e'.outline = t ∧ e'.rename Symbol.name = e

/-- The same of many trees. -/
def ResolvedAll (es : List (Expr String)) (es' : List (Expr Symbol)) (t : Outline Symbol) : Prop :=
  outlineOfAll es' = t ∧ renameAll Symbol.name es' = es

section Lists

theorem follows_resolveAll {es : List (Expr String)}
    (h : ∀ e ∈ es, Follows e.resolve e.outline e.Resolved) :
    Follows (resolveAll es) (outlineOfAll es) (ResolvedAll es) := by
  induction es with
  | nil => exact .pure ⟨rfl, rfl⟩
  | cons e es ih =>
    obtain ⟨he, hes⟩ := List.forall_mem_cons.mp h
    refine he.bind fun e' t h₁ => (ih hes).map fun es' t' h₂ => ?_
    obtain ⟨rfl, rfl⟩ := h₁
    obtain ⟨rfl, rfl⟩ := h₂
    exact ⟨rfl, rfl⟩

/-- Statements with a scope of their own. -/
theorem follows_inScope {es : List (Expr String)}
    (h : ∀ e ∈ es, Follows e.resolve e.outline e.Resolved) :
    Follows (inScope (resolveAll es)) (.scope (outlineOfAll es) .done) fun es' t =>
      t = .scope (outlineOfAll es') .done ∧ renameAll Symbol.name es' = es := by
  refine .inScope ((follows_resolveAll h).imp fun es' t hes => ?_)
  exact ⟨congrArg (Outline.scope · .done) hes.1.symm, hes.2⟩

theorem follows_resolveAlternative {no : Option (List (Expr String))}
    (h : ∀ body ∈ no, ∀ e ∈ body, Follows e.resolve e.outline e.Resolved) :
    Follows (resolveAlternative no) (outlineOfAlternative no) fun no' t =>
      outlineOfAlternative no' = t ∧ renameAlternative Symbol.name no' = no := by
  cases no with
  | none => exact .pure ⟨rfl, rfl⟩
  | some body =>
    refine (follows_inScope (h body rfl)).map fun es' t h₁ => ?_
    obtain ⟨rfl, rfl⟩ := h₁
    exact ⟨rfl, rfl⟩

theorem follows_resolveStep {step : Option (Expr String)}
    (h : ∀ e ∈ step, Follows e.resolve e.outline e.Resolved) :
    Follows (resolveStep step) (outlineOfStep step) fun step' t =>
      outlineOfStep step' = t ∧ renameStep Symbol.name step' = step := by
  cases step with
  | none => exact .pure ⟨rfl, rfl⟩
  | some e =>
    refine (h e rfl).map fun e' t h₁ => ?_
    obtain ⟨rfl, rfl⟩ := h₁
    exact ⟨rfl, rfl⟩

theorem follows_resolveEntries {es : List (Expr String × Expr String)}
    (h : ∀ kv ∈ es, Follows kv.1.resolve kv.1.outline kv.1.Resolved ∧
      Follows kv.2.resolve kv.2.outline kv.2.Resolved) :
    Follows (resolveEntries es) (outlineOfEntries es) fun es' t =>
      outlineOfEntries es' = t ∧ renameEntries Symbol.name es' = es := by
  induction es with
  | nil => exact .pure ⟨rfl, rfl⟩
  | cons kv es ih =>
    obtain ⟨⟨hk, hv⟩, hes⟩ := List.forall_mem_cons.mp h
    refine hk.bind fun k t h₁ => hv.bind fun v t' h₂ => (ih hes).map fun es' t'' h₃ => ?_
    obtain ⟨rfl, h₁⟩ := h₁
    obtain ⟨rfl, h₂⟩ := h₂
    obtain ⟨rfl, rfl⟩ := h₃
    exact ⟨rfl, by rw [renameEntries, h₁, h₂]⟩

end Lists

/-- **Resolution follows the outline of a tree.** -/
theorem follows_resolve (e : Expr String) : Follows e.resolve e.outline e.Resolved := by
  induction e using induct with
  | literal l => exact .pure ⟨rfl, rfl⟩
  | var x =>
    refine (Follows.reference x).map fun s t h₁ => ?_
    obtain ⟨rfl, rfl⟩ := h₁
    exact ⟨rfl, rfl⟩
  | declare x value hv =>
    refine hv.bind fun v t h₁ => (Follows.declare x).map fun s t' h₂ => ?_
    obtain ⟨rfl, rfl⟩ := h₁
    obtain ⟨rfl, rfl⟩ := h₂
    exact ⟨rfl, rfl⟩
  | assign x value hv =>
    refine hv.bind fun v t h₁ => (Follows.reference x).map fun s t' h₂ => ?_
    obtain ⟨rfl, rfl⟩ := h₁
    obtain ⟨rfl, rfl⟩ := h₂
    exact ⟨rfl, rfl⟩
  | letIn x value body hv hb =>
    refine hv.bind fun v t h₁ => .inScope ((Follows.declare x).bind fun s t' h₂ => hb.map fun e t'' h₃ => ?_)
    obtain ⟨rfl, rfl⟩ := h₁
    obtain ⟨rfl, rfl⟩ := h₂
    obtain ⟨rfl, rfl⟩ := h₃
    exact ⟨rfl, rfl⟩
  | unary op operand ho =>
    refine ho.map fun e t h₁ => ?_
    obtain ⟨rfl, rfl⟩ := h₁
    exact ⟨rfl, rfl⟩
  | binary op left right hl hr =>
    refine hl.bind fun l t h₁ => hr.map fun r t' h₂ => ?_
    obtain ⟨rfl, rfl⟩ := h₁
    obtain ⟨rfl, rfl⟩ := h₂
    exact ⟨rfl, rfl⟩
  | logical op left right hl hr =>
    refine hl.bind fun l t h₁ => hr.map fun r t' h₂ => ?_
    obtain ⟨rfl, rfl⟩ := h₁
    obtain ⟨rfl, rfl⟩ := h₂
    exact ⟨rfl, rfl⟩
  | block body hb =>
    refine (follows_inScope hb).map fun es t h₁ => ?_
    obtain ⟨rfl, rfl⟩ := h₁
    exact ⟨rfl, rfl⟩
  | cond test yes no ht hy hn =>
    refine ht.bind fun e t h₁ => ?_
    show Follows _ (.scope (outlineOfAll yes) .done ++ outlineOfAlternative no) _
    refine (follows_inScope hy).bind fun es t' h₂ =>
      (follows_resolveAlternative hn).map fun no' t'' h₃ => ?_
    obtain ⟨rfl, rfl⟩ := h₁
    obtain ⟨rfl, rfl⟩ := h₂
    obtain ⟨rfl, rfl⟩ := h₃
    exact ⟨rfl, rfl⟩
  | loop test body ht hb =>
    refine ht.bind fun e t h₁ => (follows_inScope hb).map fun es t' h₂ => ?_
    obtain ⟨rfl, rfl⟩ := h₁
    obtain ⟨rfl, rfl⟩ := h₂
    exact ⟨rfl, rfl⟩
  | count x init test advance body hi ht ha hb =>
    refine .inScope (hi.bind fun i t h₁ => (Follows.declare x).bind fun s t₂ h₂ =>
      ht.bind fun e t₃ h₃ => ha.bind fun a t₄ h₄ => (follows_inScope hb).map fun es t₅ h₅ => ?_)
    obtain ⟨rfl, rfl⟩ := h₁
    obtain ⟨rfl, rfl⟩ := h₂
    obtain ⟨rfl, rfl⟩ := h₃
    obtain ⟨rfl, rfl⟩ := h₄
    obtain ⟨rfl, rfl⟩ := h₅
    exact ⟨rfl, rfl⟩
  | print args ha =>
    refine (follows_resolveAll ha).map fun es t h₁ => ?_
    obtain ⟨rfl, rfl⟩ := h₁
    exact ⟨rfl, rfl⟩
  | list elems he =>
    refine (follows_resolveAll he).map fun es t h₁ => ?_
    obtain ⟨rfl, rfl⟩ := h₁
    exact ⟨rfl, rfl⟩
  | fill value size hv hs =>
    refine hv.bind fun v t h₁ => hs.map fun s t' h₂ => ?_
    obtain ⟨rfl, rfl⟩ := h₁
    obtain ⟨rfl, rfl⟩ := h₂
    exact ⟨rfl, rfl⟩
  | map entries he =>
    refine (follows_resolveEntries he).map fun es t h₁ => ?_
    obtain ⟨rfl, rfl⟩ := h₁
    exact ⟨rfl, rfl⟩
  | query op target ht =>
    refine ht.map fun e t h₁ => ?_
    obtain ⟨rfl, rfl⟩ := h₁
    exact ⟨rfl, rfl⟩
  | update op target arg ht ha =>
    refine ht.bind fun e t h₁ => ha.map fun a t' h₂ => ?_
    obtain ⟨rfl, rfl⟩ := h₁
    obtain ⟨rfl, rfl⟩ := h₂
    exact ⟨rfl, rfl⟩
  | index target key ht hk =>
    refine ht.bind fun e t h₁ => hk.map fun k t' h₂ => ?_
    obtain ⟨rfl, rfl⟩ := h₁
    obtain ⟨rfl, rfl⟩ := h₂
    exact ⟨rfl, rfl⟩
  | put target key value ht hk hv =>
    refine ht.bind fun e t h₁ => hk.bind fun k t' h₂ => hv.map fun v t'' h₃ => ?_
    obtain ⟨rfl, rfl⟩ := h₁
    obtain ⟨rfl, rfl⟩ := h₂
    obtain ⟨rfl, rfl⟩ := h₃
    exact ⟨rfl, rfl⟩
  | concat parts hp =>
    refine (follows_resolveAll hp).map fun es t h₁ => ?_
    obtain ⟨rfl, rfl⟩ := h₁
    exact ⟨rfl, rfl⟩
  | slice target start stop step ht hs hp hst =>
    refine ht.bind fun e t h₁ => hs.bind fun s t₂ h₂ => hp.bind fun p t₃ h₃ =>
      (follows_resolveStep hst).map fun st t₄ h₄ => ?_
    obtain ⟨rfl, rfl⟩ := h₁
    obtain ⟨rfl, rfl⟩ := h₂
    obtain ⟨rfl, rfl⟩ := h₃
    obtain ⟨rfl, rfl⟩ := h₄
    exact ⟨rfl, rfl⟩
  | function name params body ret hb hr =>
    refine Follows.function fun s h₁ => ?_
    rw [← Outline.done_append (outlineOfAll body ++ ret.outline), ← Outline.declareAll_append]
    refine (Follows.declareAll params).bind fun ss t h₂ => (follows_resolveAll hb).bind
      fun es t' h₃ => hr.map fun e t'' h₄ => ?_
    obtain ⟨rfl, rfl⟩ := h₂
    obtain ⟨rfl, rfl⟩ := h₃
    obtain ⟨rfl, rfl⟩ := h₄
    exact ⟨by rw [outline, Outline.declareAll_append, Outline.done_append], by rw [rename, h₁]⟩
  | call callee args ha =>
    show Follows _ (.refer callee .done ++ outlineOfAll args) _
    refine (Follows.reference callee).bind fun s t h₁ => (follows_resolveAll ha).map fun es t' h₂ => ?_
    obtain ⟨rfl, rfl⟩ := h₁
    obtain ⟨rfl, rfl⟩ := h₂
    exact ⟨rfl, rfl⟩

end Expr

/-! ## Programs -/

/-- A program is resolved if it keeps the rules, and rejected otherwise. -/
theorem resolve_cases (source : List (Expr String)) :
    ((Expr.outlineOfAll source).LexicallyScoped ∧ ∃ tree, resolve source = .ok tree ∧
      Expr.renameAll Symbol.name tree = source ∧ Resolver.Faithful {} (Expr.outlineOfAll tree)) ∨
    (¬(Expr.outlineOfAll source).LexicallyScoped ∧ ∃ e, resolve source = .error e) := by
  have hfollows : Resolver.Follows (Expr.resolveAll source) (Expr.outlineOfAll source)
      (Expr.ResolvedAll source) := Expr.follows_resolveAll fun e _ => e.follows_resolve
  rw [← Outline.accepted_iff]
  rcases hfollows {} {} [] Resolver.tracks_empty with
    ⟨haccepted, tree, r', t, hresolve, hfollowed, rfl, hrename⟩ | ⟨hrejected, e, r', hresolve⟩
  · exact .inl ⟨haccepted, tree, by rw [resolve, hresolve], hrename, hfollowed.faithful⟩
  · exact .inr ⟨hrejected, e, by rw [resolve, hresolve]⟩

/-- What a resolved program is. -/
theorem faithful_of_resolve {source : List (Expr String)} {tree : List (Expr Symbol)}
    (h : resolve source = .ok tree) :
    Expr.renameAll Symbol.name tree = source ∧ Resolver.Faithful {} (Expr.outlineOfAll tree) := by
  rcases resolve_cases source with ⟨-, tree', hok, hrename, hfaithful⟩ | ⟨-, e, herror⟩
  · cases h.symm.trans hok
    exact ⟨hrename, hfaithful⟩
  · cases h.symm.trans herror

/-- **Resolution is lexical scoping.** A program is resolved if and only if it keeps the rules of scoping.
The resolved tree is the program itself with an id beside each name: every declaration has an id of its
own, and every use has the symbol of the innermost visible declaration of its name. -/
theorem resolve_lexical (source : List (Expr String)) :
    ((∃ tree, resolve source = .ok tree) ↔ (Expr.outlineOfAll source).LexicallyScoped) ∧
    ∀ tree, resolve source = .ok tree →
      Expr.renameAll Symbol.name tree = source ∧
      ((Expr.declarationsOfAll false tree).map fun d => d.2.id).Nodup ∧
      ∀ u ∈ (Expr.outlineOfAll tree).uses {},
        (u.declaration? Symbol.name).map Prod.snd = some u.target := by
  refine ⟨?_, fun tree h => ?_⟩
  · rcases resolve_cases source with ⟨hscoped, tree, hok, -⟩ | ⟨hunscoped, e, herror⟩
    · exact ⟨fun _ => hscoped, fun _ => ⟨tree, hok⟩⟩
    · refine ⟨?_, fun hscoped => absurd hscoped hunscoped⟩
      rintro ⟨tree, hok⟩
      cases herror.symm.trans hok
  · obtain ⟨hrename, hfaithful⟩ := faithful_of_resolve h
    exact ⟨hrename, nodup_declared h, hfaithful⟩

end ExactScript
