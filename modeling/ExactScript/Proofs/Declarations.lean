import Mathlib.Data.List.Nodup
import ExactScript.Proofs.Trees
import ExactScript.Resolver

/-!
# Declarations

Resolution gives each declaration an id of its own: the ids of a resolved tree, from left to right, are
consecutive numbers. So an id tells where its symbol was declared, and in particular whether that was
inside of a function.

## Contents
* `Expr.declarations`, the declared bindings with the side that they are on;
* `Allots`, the ids that a part of resolution gives, and `Expr.allots_resolve`;
* `outsideIds`, and `mem_outsideIds_iff`.
-/

namespace ExactScript

namespace Expr

variable {β : Type}

mutual

/-- The bindings that a tree declares, in the order in which they are resolved, each with whether it is
declared inside of a function. -/
def declarations (inside : Bool) : Expr β → List (Bool × β)
  | literal _ => []
  | var _ => []
  | declare x value => value.declarations inside ++ [(inside, x)]
  | assign _ value => value.declarations inside
  | letIn x value body => value.declarations inside ++ (inside, x) :: body.declarations inside
  | unary _ operand => operand.declarations inside
  | binary _ left right => left.declarations inside ++ right.declarations inside
  | logical _ left right => left.declarations inside ++ right.declarations inside
  | block body => declarationsOfAll inside body
  | cond test yes no =>
    test.declarations inside ++ (declarationsOfAll inside yes ++ declarationsOfAlternative inside no)
  | loop test body => test.declarations inside ++ declarationsOfAll inside body
  | count x init test advance body =>
    init.declarations inside ++ (inside, x) ::
      (test.declarations inside ++ (advance.declarations inside ++ declarationsOfAll inside body))
  | print args => declarationsOfAll inside args
  | list elems => declarationsOfAll inside elems
  | fill value size => value.declarations inside ++ size.declarations inside
  | map entries => declarationsOfEntries inside entries
  | query _ target => target.declarations inside
  | update _ target arg => target.declarations inside ++ arg.declarations inside
  | index target key => target.declarations inside ++ key.declarations inside
  | put target key value =>
    target.declarations inside ++ (key.declarations inside ++ value.declarations inside)
  | concat parts => declarationsOfAll inside parts
  | slice target start stop step =>
    target.declarations inside ++ (start.declarations inside ++
      (stop.declarations inside ++ declarationsOfStep inside step))
  | function name params body ret =>
    (inside, name) :: (params.map (fun x => (true, x)) ++
      (declarationsOfAll true body ++ ret.declarations true))
  | call _ args => declarationsOfAll inside args

def declarationsOfAll (inside : Bool) : List (Expr β) → List (Bool × β)
  | [] => []
  | e :: es => e.declarations inside ++ declarationsOfAll inside es

def declarationsOfAlternative (inside : Bool) : Option (List (Expr β)) → List (Bool × β)
  | none => []
  | some body => declarationsOfAll inside body

def declarationsOfStep (inside : Bool) : Option (Expr β) → List (Bool × β)
  | none => []
  | some step => step.declarations inside

def declarationsOfEntries (inside : Bool) : List (Expr β × Expr β) → List (Bool × β)
  | [] => []
  | (k, v) :: es =>
    k.declarations inside ++ (v.declarations inside ++ declarationsOfEntries inside es)

end

section Parts

variable {e c : Expr β} {d : Bool × β} {b : Bool}

theorem mem_declarationsOfAll {es : List (Expr β)} (he : e ∈ es) (hd : d ∈ e.declarations b) :
    d ∈ declarationsOfAll b es := by
  induction es with
  | nil => cases he
  | cons e' es ih =>
    rw [declarationsOfAll, List.mem_append]
    rcases List.mem_cons.mp he with rfl | he
    · exact .inl hd
    · exact .inr (ih he)

theorem mem_declarationsOfEntries {es : List (Expr β × Expr β)} {kv : Expr β × Expr β} (he : kv ∈ es)
    (hd : d ∈ kv.1.declarations b ∨ d ∈ kv.2.declarations b) : d ∈ declarationsOfEntries b es := by
  induction es with
  | nil => cases he
  | cons kv' es ih =>
    rw [declarationsOfEntries, List.mem_append, List.mem_append]
    rcases List.mem_cons.mp he with rfl | he
    · exact hd.imp_right .inl
    · exact .inr (.inr (ih he))

/-- What a part declares, the whole declares. -/
theorem exists_declarations (hc : c ∈ e.children) (b : Bool) :
    ∃ b', ∀ d ∈ c.declarations b', d ∈ e.declarations b := by
  cases e with
  | literal => cases hc
  | var => cases hc
  | block => exact ⟨b, fun d hd => mem_declarationsOfAll hc hd⟩
  | print => exact ⟨b, fun d hd => mem_declarationsOfAll hc hd⟩
  | list => exact ⟨b, fun d hd => mem_declarationsOfAll hc hd⟩
  | concat => exact ⟨b, fun d hd => mem_declarationsOfAll hc hd⟩
  | call => exact ⟨b, fun d hd => mem_declarationsOfAll hc hd⟩
  | map entries =>
    obtain ⟨kv, hkv, hmem⟩ := List.mem_flatMap.mp hc
    refine ⟨b, fun d hd => mem_declarationsOfEntries hkv ?_⟩
    rcases List.mem_pair.mp hmem with rfl | rfl
    · exact .inl hd
    · exact .inr hd
  | cond test yes no =>
    refine ⟨b, fun d hd => ?_⟩
    simp only [children, List.mem_cons, List.mem_append] at hc
    simp only [declarations, List.mem_append]
    rcases hc with rfl | hc | hc
    · exact .inl hd
    · exact .inr (.inl (mem_declarationsOfAll hc hd))
    · cases no with
      | none => cases hc
      | some body => exact .inr (.inr (mem_declarationsOfAll hc hd))
  | loop test body =>
    refine ⟨b, fun d hd => List.mem_append.mpr ?_⟩
    rcases List.mem_cons.mp hc with rfl | hc
    · exact .inl hd
    · exact .inr (mem_declarationsOfAll hc hd)
  | count x init test advance body =>
    refine ⟨b, fun d hd => ?_⟩
    simp only [children, List.mem_cons] at hc
    simp only [declarations, List.mem_append, List.mem_cons]
    rcases hc with rfl | rfl | rfl | hc
    · exact .inl hd
    · exact .inr (.inr (.inl hd))
    · exact .inr (.inr (.inr (.inl hd)))
    · exact .inr (.inr (.inr (.inr (mem_declarationsOfAll hc hd))))
  | slice target start stop step =>
    refine ⟨b, fun d hd => ?_⟩
    simp only [children, List.mem_cons, Option.mem_toList] at hc
    simp only [declarations, List.mem_append]
    rcases hc with rfl | rfl | rfl | hc
    · exact .inl hd
    · exact .inr (.inl hd)
    · exact .inr (.inr (.inl hd))
    · obtain rfl : step = some c := hc
      exact .inr (.inr (.inr hd))
  | function name params body ret =>
    refine ⟨true, fun d hd => ?_⟩
    simp only [declarations, List.mem_cons, List.mem_append]
    rcases List.mem_append.mp hc with hc | hc
    · exact .inr (.inr (.inl (mem_declarationsOfAll hc hd)))
    · obtain rfl := List.mem_singleton.mp hc
      exact .inr (.inr (.inr hd))
  | _ =>
    refine ⟨b, fun d hd => ?_⟩
    simp only [children, List.mem_cons, List.not_mem_nil, or_false] at hc
    simp only [declarations, List.mem_append, List.mem_cons]
    grind

end Parts

end Expr

/-! ## Ids -/

namespace Resolver

variable {α β : Type}

/-- The ids that `f` gives to declarations are consecutive, and go with the result as `P` says. -/
def Allots (f : Resolve α) (P : α → List Nat → Prop) : Prop :=
  ∀ r a r', f r = .ok a r' → r.nextId ≤ r'.nextId ∧ P a (List.range' r.nextId (r'.nextId - r.nextId))

theorem of_bind {f : Resolve α} {k : α → Resolve β} {r r'' : Resolver} {b : β}
    (h : (f >>= k) r = .ok b r'') : ∃ a r', f r = .ok a r' ∧ k a r' = .ok b r'' := by
  cases hf : f r with
  | ok a r' =>
    simp only [bind, EStateM.bind, hf] at h
    exact ⟨a, r', rfl, h⟩
  | error e r' =>
    simp only [bind, EStateM.bind, hf] at h
    cases h

theorem of_inScope {f : Resolve α} {r r' : Resolver} {a : α} (h : inScope f r = .ok a r') :
    ∃ r₁, f { r with scopes := r.scopes.openScope } = .ok a r₁ ∧
      r' = { r₁ with scopes := r₁.scopes.closeScope.2 } := by
  unfold inScope at h
  split at h
  · next b r₁ hf =>
    cases h
    exact ⟨r₁, hf, rfl⟩
  · cases h

theorem of_inFunction {f : Resolve α} {s : Symbol} {r r' : Resolver} {a : α}
    (h : inFunction s f r = .ok a r') :
    ∃ r₁, f { r with functions := s :: r.functions } = .ok a r₁ ∧
      r' = { r₁ with functions := r₁.functions.tail } := by
  unfold inFunction at h
  split at h
  · next b r₁ hf =>
    cases h
    exact ⟨r₁, hf, rfl⟩
  · cases h

theorem of_declare {x : String} {r r' : Resolver} {s : Symbol} (h : declare x r = .ok s r') :
    r.scopes.innermostContains x = false ∧ s = ⟨x, r.nextId⟩ ∧ r' = { r with
      scopes := r.scopes.add x ⟨⟨x, r.nextId⟩, r.functions.head?.map Symbol.id⟩
      nextId := r.nextId + 1 } := by
  unfold declare at h
  split at h
  · cases h
  · next hx =>
    cases h
    exact ⟨by simpa using hx, rfl, rfl⟩

theorem of_reference {x : String} {r r' : Resolver} {s : Symbol} (h : reference x r = .ok s r') :
    r' = r ∧ ∃ b, r.scopes.get? x = some b ∧ usableIn b r.functions.head? ∧ s = b.symbol := by
  unfold reference at h
  split at h
  · cases h
  next b hb =>
  split at h
  · next hf =>
    cases h
    refine ⟨rfl, b, hb, ?_, rfl⟩
    rw [hf]
    unfold usableIn
    split <;> simp_all
  · next f rest hf =>
    split at h
    · next hu =>
      cases h
      refine ⟨rfl, b, hb, ?_, rfl⟩
      rw [hf]
      exact hu
    · cases h

namespace Allots

variable {f : Resolve α} {P : α → List Nat → Prop}

theorem pure {a : α} (h : P a []) : Allots (pure a) P := by
  intro r b r' hb
  cases hb
  refine ⟨Nat.le_refl _, ?_⟩
  rw [Nat.sub_self]
  exact h

theorem bind {k : α → Resolve β} {Q : β → List Nat → Prop} (h : Allots f P)
    (hk : ∀ a ids, P a ids → Allots (k a) fun b more => Q b (ids ++ more)) : Allots (f >>= k) Q := by
  intro r b r'' hb
  obtain ⟨a, r', ha, hb⟩ := of_bind hb
  obtain ⟨hle, hp⟩ := h r a r' ha
  obtain ⟨hle', hq⟩ := hk a _ hp r' b r'' hb
  have hids : List.range' r.nextId (r'.nextId - r.nextId) ++
      List.range' r'.nextId (r''.nextId - r'.nextId) = List.range' r.nextId (r''.nextId - r.nextId) := by
    have happend := List.range'_append_1 (s := r.nextId) (m := r'.nextId - r.nextId)
      (n := r''.nextId - r'.nextId)
    rw [Nat.add_sub_cancel' hle] at happend
    rw [happend]
    congr 1
    omega
  rw [hids] at hq
  exact ⟨Nat.le_trans hle hle', hq⟩

theorem inScope (h : Allots f P) : Allots (inScope f) P := by
  intro r a r' ha
  obtain ⟨r₁, hf, rfl⟩ := of_inScope ha
  exact h { r with scopes := r.scopes.openScope } a r₁ hf

theorem inFunction {s : Symbol} (h : Allots f P) : Allots (inFunction s f) P := by
  intro r a r' ha
  obtain ⟨r₁, hf, rfl⟩ := of_inFunction ha
  exact h { r with functions := s :: r.functions } a r₁ hf

theorem declare {x : String} : Allots (declare x) fun s ids => ids = [s.id] := by
  intro r s r' h
  obtain ⟨-, rfl, rfl⟩ := of_declare h
  refine ⟨Nat.le_succ _, ?_⟩
  rw [Nat.add_sub_cancel_left]
  rfl

theorem declareAll {xs : List String} : Allots (declareAll xs) fun ss ids => ids = ss.map Symbol.id := by
  induction xs with
  | nil => exact .pure rfl
  | cons x xs ih =>
    exact .bind .declare fun s ids hs => .bind ih fun ss more hss => .pure (by simp [hs, hss])

theorem reference {x : String} : Allots (reference x) fun _ ids => ids = [] := by
  intro r s r' h
  obtain ⟨rfl, -⟩ := of_reference h
  refine ⟨Nat.le_refl _, ?_⟩
  rw [Nat.sub_self]
  rfl

end Allots

end Resolver

namespace Expr

open Resolver

/-- The ids of the declarations of a tree, on whichever side it is. -/
def Declares (e : Expr Symbol) (ids : List Nat) : Prop :=
  ∀ inside, (e.declarations inside).map (fun d => d.2.id) = ids

/-- The same of many trees. -/
def DeclareAll (es : List (Expr Symbol)) (ids : List Nat) : Prop :=
  ∀ inside, (declarationsOfAll inside es).map (fun d => d.2.id) = ids

section Lists

variable {es : List (Expr String)}

theorem allots_resolveAll (h : ∀ e ∈ es, Allots e.resolve Declares) : Allots (resolveAll es) DeclareAll := by
  induction es with
  | nil => exact .pure fun _ => rfl
  | cons e es ih =>
    obtain ⟨he, hes⟩ := List.forall_mem_cons.mp h
    exact he.bind fun e ids h₁ => (ih hes).bind fun es more h₂ => .pure fun b => by
      simp [declarationsOfAll, h₁ b, h₂ b]

theorem allots_resolveAlternative {no : Option (List (Expr String))}
    (h : ∀ body ∈ no, ∀ e ∈ body, Allots e.resolve Declares) :
    Allots (resolveAlternative no) fun no ids =>
      ∀ b, (declarationsOfAlternative b no).map (fun d => d.2.id) = ids := by
  cases no with
  | none => exact .pure fun _ => rfl
  | some body =>
    exact (allots_resolveAll (h body rfl)).inScope.bind fun es ids h₁ => .pure fun b => by
      simp [declarationsOfAlternative, h₁ b]

theorem allots_resolveStep {step : Option (Expr String)} (h : ∀ e ∈ step, Allots e.resolve Declares) :
    Allots (resolveStep step) fun step ids =>
      ∀ b, (declarationsOfStep b step).map (fun d => d.2.id) = ids := by
  cases step with
  | none => exact .pure fun _ => rfl
  | some e => exact (h e rfl).bind fun e ids h₁ => .pure fun b => by simp [declarationsOfStep, h₁ b]

theorem allots_resolveEntries {es : List (Expr String × Expr String)}
    (h : ∀ kv ∈ es, Allots kv.1.resolve Declares ∧ Allots kv.2.resolve Declares) :
    Allots (resolveEntries es) fun es ids =>
      ∀ b, (declarationsOfEntries b es).map (fun d => d.2.id) = ids := by
  induction es with
  | nil => exact .pure fun _ => rfl
  | cons kv es ih =>
    obtain ⟨⟨hk, hv⟩, hes⟩ := List.forall_mem_cons.mp h
    exact hk.bind fun k _ h₁ => hv.bind fun v _ h₂ => (ih hes).bind fun es _ h₃ => .pure fun b => by
      simp [declarationsOfEntries, h₁ b, h₂ b, h₃ b]

end Lists

/-- **Ids are given in order**, one to each declaration. -/
theorem allots_resolve (e : Expr String) : Allots e.resolve Declares := by
  induction e using induct with
  | literal l => exact .pure fun _ => rfl
  | var x => exact .bind .reference fun s ids hs => .pure fun _ => by simp [declarations, hs]
  | declare x value hv =>
    exact hv.bind fun v _ h₁ => .bind .declare fun s _ h₂ => .pure fun b => by
      simp [declarations, h₁ b, h₂]
  | assign x value hv =>
    exact hv.bind fun v _ h₁ => .bind .reference fun s _ h₂ => .pure fun b => by
      simp [declarations, h₁ b, h₂]
  | letIn x value body hv hb =>
    refine hv.bind fun v _ h₁ => .inScope (.bind .declare fun s _ h₂ => hb.bind fun e _ h₃ => ?_)
    exact .pure fun b => by simp [declarations, h₁ b, h₂, h₃ b]
  | unary op operand ho => exact ho.bind fun e _ h₁ => .pure fun b => by simp [declarations, h₁ b]
  | binary op left right hl hr =>
    exact hl.bind fun l _ h₁ => hr.bind fun r _ h₂ => .pure fun b => by simp [declarations, h₁ b, h₂ b]
  | logical op left right hl hr =>
    exact hl.bind fun l _ h₁ => hr.bind fun r _ h₂ => .pure fun b => by simp [declarations, h₁ b, h₂ b]
  | block body hb =>
    exact (allots_resolveAll hb).inScope.bind fun es _ h₁ => .pure fun b => by simp [declarations, h₁ b]
  | cond test yes no ht hy hn =>
    exact ht.bind fun t _ h₁ => (allots_resolveAll hy).inScope.bind fun y _ h₂ =>
      (allots_resolveAlternative hn).bind fun n _ h₃ => .pure fun b => by
        simp [declarations, h₁ b, h₂ b, h₃ b]
  | loop test body ht hb =>
    exact ht.bind fun t _ h₁ => (allots_resolveAll hb).inScope.bind fun es _ h₂ => .pure fun b => by
      simp [declarations, h₁ b, h₂ b]
  | count x init test advance body hi ht ha hb =>
    refine .inScope (hi.bind fun i _ h₁ => .bind .declare fun s _ h₂ => ht.bind fun t _ h₃ =>
      ha.bind fun a _ h₄ => (allots_resolveAll hb).inScope.bind fun es _ h₅ => .pure fun b => ?_)
    simp [declarations, h₁ b, h₂, h₃ b, h₄ b, h₅ b]
  | print args ha =>
    exact (allots_resolveAll ha).bind fun es _ h₁ => .pure fun b => by simp [declarations, h₁ b]
  | list elems he =>
    exact (allots_resolveAll he).bind fun es _ h₁ => .pure fun b => by simp [declarations, h₁ b]
  | fill value size hv hs =>
    exact hv.bind fun v _ h₁ => hs.bind fun s _ h₂ => .pure fun b => by simp [declarations, h₁ b, h₂ b]
  | map entries he =>
    exact (allots_resolveEntries he).bind fun es _ h₁ => .pure fun b => by simp [declarations, h₁ b]
  | query op target ht => exact ht.bind fun e _ h₁ => .pure fun b => by simp [declarations, h₁ b]
  | update op target arg ht ha =>
    exact ht.bind fun t _ h₁ => ha.bind fun a _ h₂ => .pure fun b => by simp [declarations, h₁ b, h₂ b]
  | index target key ht hk =>
    exact ht.bind fun t _ h₁ => hk.bind fun k _ h₂ => .pure fun b => by simp [declarations, h₁ b, h₂ b]
  | put target key value ht hk hv =>
    exact ht.bind fun t _ h₁ => hk.bind fun k _ h₂ => hv.bind fun v _ h₃ => .pure fun b => by
      simp [declarations, h₁ b, h₂ b, h₃ b]
  | concat parts hp =>
    exact (allots_resolveAll hp).bind fun es _ h₁ => .pure fun b => by simp [declarations, h₁ b]
  | slice target start stop step ht hs hp hst =>
    exact ht.bind fun t _ h₁ => hs.bind fun s _ h₂ => hp.bind fun p _ h₃ =>
      (allots_resolveStep hst).bind fun st _ h₄ => .pure fun b => by
        simp [declarations, h₁ b, h₂ b, h₃ b, h₄ b]
  | function name params body ret hb hr =>
    refine .bind .declare fun s _ h₁ => .inFunction (.inScope (.bind .declareAll fun ss _ h₂ =>
      (allots_resolveAll hb).bind fun es _ h₃ => hr.bind fun e _ h₄ => .pure fun b => ?_))
    simp [declarations, h₁, h₂, h₃ true, h₄ true, Function.comp_def]
  | call callee args ha =>
    exact .bind .reference fun s _ h₁ => (allots_resolveAll ha).bind fun es _ h₂ => .pure fun b => by
      simp [declarations, h₁, h₂ b]

end Expr

/-! ## Sides -/

/-- The ids that the statements of a program declare outside of functions. -/
def outsideIds (tree : List (Expr Symbol)) : List Nat :=
  ((Expr.declarationsOfAll false tree).filter fun d => !d.1).map fun d => d.2.id

theorem nodup_declared {source : List (Expr String)} {tree : List (Expr Symbol)}
    (h : resolve source = .ok tree) :
    ((Expr.declarationsOfAll false tree).map fun d => d.2.id).Nodup := by
  unfold resolve at h
  split at h
  · next tree' r hr =>
    cases h
    obtain ⟨-, hids⟩ := Expr.allots_resolveAll (fun e _ => e.allots_resolve) _ _ _ hr
    rw [hids false]
    exact List.nodup_range'
  · cases h

/-- **An id belongs to one side.** -/
theorem mem_outsideIds_iff {source : List (Expr String)} {tree : List (Expr Symbol)}
    (h : resolve source = .ok tree) {d : Bool × Symbol} (hd : d ∈ Expr.declarationsOfAll false tree) :
    d.2.id ∈ outsideIds tree ↔ d.1 = false := by
  unfold outsideIds
  constructor
  · intro hmem
    obtain ⟨c, hc, hid⟩ := List.mem_map.mp hmem
    obtain ⟨hc, hside⟩ := List.mem_filter.mp hc
    rw [← List.inj_on_of_nodup_map (nodup_declared h) hc hd hid]
    simpa using hside
  · intro hside
    exact List.mem_map.mpr ⟨d, List.mem_filter.mpr ⟨hd, by simp [hside]⟩, rfl⟩

end ExactScript
