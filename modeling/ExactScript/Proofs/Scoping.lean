import ExactScript.Proofs.Declarations

/-!
# Scopes during resolution

A statement may add a name to the innermost scope. Everything else leaves the scopes as they were: what it
declares is gone when its own scope is closed. So resolution is followed with two kinds of steps, those
that *keep* the state and those that *advance* it.

## Contents
* `Scopes.values`, everything that is bound;
* `Resolver.Like` and `Resolver.Grows`, what may become of a state;
* `Resolver.Keeps` and `Resolver.Advances`, resolution with one of these, and their rules.
-/

namespace ExactScript

/-! ## Scopes -/

namespace Scope

variable {κ ν : Type} [DecidableEq κ] {s : Scope κ ν} {k : κ} {v w : ν}

theorem mem_of_get? (h : s.get? k = some v) : v ∈ s.map Prod.snd := by
  induction s with
  | nil => cases h
  | cons e s ih =>
    obtain ⟨j, w⟩ := e
    simp only [get?] at h
    split at h
    · cases h
      exact List.mem_cons_self
    · exact List.mem_cons_of_mem _ (ih h)

/-- A new key makes the scope larger by its value. -/
theorem mem_insert (h : s.get? k = none) : w ∈ (s.insert k v).map Prod.snd ↔ w = v ∨ w ∈ s.map Prod.snd := by
  induction s with
  | nil => simp [insert]
  | cons e s ih =>
    obtain ⟨j, u⟩ := e
    simp only [get?] at h
    split at h
    · cases h
    next hj =>
    simp only [insert, if_neg hj, List.map_cons, List.mem_cons, ih h]
    exact or_left_comm

end Scope

namespace Scopes

variable {κ ν : Type} {s : Scopes κ ν} {k : κ} {v w : ν}

/-- Everything that is bound in some scope, visible or not. -/
def values (s : Scopes κ ν) : List ν := s.toList.flatMap fun scope => scope.map Prod.snd

@[simp] theorem values_openScope : s.openScope.values = s.values := by
  simp [values, openScope, toList]

variable [DecidableEq κ]

theorem mem_of_findWithDepth? {d : Nat} {scopes : List (Scope κ ν)}
    (h : findWithDepth? k scopes = some (d, v)) : v ∈ scopes.flatMap fun scope => scope.map Prod.snd := by
  induction scopes with
  | nil => cases h
  | cons scope outer ih =>
    rw [List.flatMap_cons, List.mem_append]
    simp only [findWithDepth?] at h
    split at h
    · next u hu =>
      cases h
      exact .inl (Scope.mem_of_get? hu)
    · exact .inr (ih h)

theorem mem_values_of_get? (h : s.get? k = some v) : v ∈ s.values := by
  obtain ⟨⟨d, w⟩, hd, rfl⟩ := Option.map_eq_some_iff.mp h
  exact mem_of_findWithDepth? hd

theorem mem_values_add (h : s.innermostContains k = false) :
    w ∈ (s.add k v).values ↔ w = v ∨ w ∈ s.values := by
  obtain ⟨inner, outermost⟩ := s
  cases inner with
  | nil =>
    have hnone : outermost.get? k = none := by simpa [innermostContains, innermost] using h
    simpa [values, toList, add] using Scope.mem_insert (v := v) (w := w) hnone
  | cons scope rest =>
    have hnone : scope.get? k = none := by simpa [innermostContains, innermost] using h
    have hinsert := Scope.mem_insert (v := v) (w := w) hnone
    simp only [values, toList, add, List.cons_append, List.flatMap_cons, List.mem_append, hinsert, or_assoc]

theorem closeScope_add {scope : Scope κ ν} {rest : Scopes κ ν} (h : s.closeScope = (some scope, rest)) :
    ∃ scope', (s.add k v).closeScope = (some scope', rest) := by
  obtain ⟨inner, outermost⟩ := s
  cases inner with
  | nil => cases h
  | cons first others =>
    cases h
    exact ⟨_, rfl⟩

end Scopes

/-! ## States -/

namespace Resolver

variable {α β : Type} {r r' r'' : Resolver} {s : Symbol}

/-- Everything that is bound. -/
def bindings (r : Resolver) : List Binding := r.scopes.values

/-- Control is inside of a function. -/
def inside (r : Resolver) : Bool := !r.functions.isEmpty

/-- The state in a new scope. -/
def opened (r : Resolver) : Resolver := { r with scopes := r.scopes.openScope }

/-- The state inside of a function. -/
def entering (r : Resolver) (s : Symbol) : Resolver := { r with functions := s :: r.functions }

/-- The state after the declaration of a symbol. -/
def declaring (r : Resolver) (s : Symbol) : Resolver :=
  { r with
    scopes := r.scopes.add s.name ⟨s, r.functions.head?.map Symbol.id⟩
    nextId := s.id + 1 }

/-- The symbol can be the next to be declared. -/
structure Admissible (r : Resolver) (s : Symbol) : Prop where
  fresh : r.nextId ≤ s.id
  free : r.scopes.innermostContains s.name = false

@[simp] theorem bindings_opened : r.opened.bindings = r.bindings := Scopes.values_openScope

theorem mem_bindings_declaring (h : r.Admissible s) {b : Binding} :
    b ∈ (r.declaring s).bindings ↔ b = ⟨s, r.functions.head?.map Symbol.id⟩ ∨ b ∈ r.bindings :=
  Scopes.mem_values_add h.free

/-- The states differ in nothing that a name could refer to. -/
structure Like (r r' : Resolver) : Prop where
  functions : r'.functions = r.functions
  scopes : r'.scopes = r.scopes
  nextId_le : r.nextId ≤ r'.nextId

/-- Names were added to the innermost scope. -/
structure Grows (r r' : Resolver) : Prop where
  functions : r'.functions = r.functions
  nextId_le : r.nextId ≤ r'.nextId
  bindings : ∀ b ∈ r.bindings, b ∈ r'.bindings
  around : ∀ scope rest, r.scopes.closeScope = (some scope, rest) →
    ∃ scope', r'.scopes.closeScope = (some scope', rest)

theorem Like.refl (r : Resolver) : Like r r := ⟨rfl, rfl, Nat.le_refl _⟩

theorem Like.bindings (h : Like r r') : r'.bindings = r.bindings := congrArg Scopes.values h.scopes

theorem Like.grows (h : Like r r') : Grows r r' where
  functions := h.functions
  nextId_le := h.nextId_le
  bindings _ hb := h.bindings ▸ hb
  around scope rest hr := ⟨scope, by rw [h.scopes, hr]⟩

theorem Grows.refl (r : Resolver) : Grows r r := (Like.refl r).grows

theorem Grows.trans (h : Grows r r') (h' : Grows r' r'') : Grows r r'' where
  functions := h'.functions.trans h.functions
  nextId_le := Nat.le_trans h.nextId_le h'.nextId_le
  bindings b hb := h'.bindings b (h.bindings b hb)
  around scope rest hr := by
    obtain ⟨scope', hr'⟩ := h.around scope rest hr
    exact h'.around scope' rest hr'

theorem Grows.declaring (h : r.Admissible s) : Grows r (r.declaring s) where
  functions := rfl
  nextId_le := Nat.le_succ_of_le h.fresh
  bindings _ hb := (mem_bindings_declaring h).mpr (.inr hb)
  around _ _ hr := Scopes.closeScope_add hr

/-! ## Steps -/

/-- From any state like `r`, the resolution leads to a state like `r`, with a result as `P` says. -/
def Keeps (r : Resolver) (f : Resolve α) (P : α → Prop) : Prop :=
  ∀ r₁ a r', Like r r₁ → f r₁ = .ok a r' → Like r r' ∧ P a

/-- From any state like `r`, the resolution adds names, with a result and a state as `P` says. -/
def Advances (r : Resolver) (f : Resolve α) (P : α → Resolver → Prop) : Prop :=
  ∀ r₁ a r', Like r r₁ → f r₁ = .ok a r' → Grows r r' ∧ P a r'

variable {f : Resolve α} {k : α → Resolve β}

namespace Keeps

variable {P : α → Prop} {Q : β → Prop}

theorem pure {a : α} (h : P a) : Keeps r (pure a) P := by
  intro r₁ b r' hl hb
  cases hb
  exact ⟨hl, h⟩

theorem bind (h : Keeps r f P) (hk : ∀ a, P a → Keeps r (k a) Q) : Keeps r (f >>= k) Q := by
  intro r₁ b r'' hl hb
  obtain ⟨a, r', ha, hb⟩ := of_bind hb
  obtain ⟨hl', hp⟩ := h r₁ a r' hl ha
  exact hk a hp r' b r'' hl' hb

theorem imp {P' : α → Prop} (h : Keeps r f P) (hP : ∀ a, P a → P' a) : Keeps r f P' := by
  intro r₁ a r' hl ha
  obtain ⟨hl', hp⟩ := h r₁ a r' hl ha
  exact ⟨hl', hP a hp⟩

theorem reference {x : String} :
    Keeps r (reference x) fun s => ∃ b ∈ r.bindings, usableIn b r.functions.head? ∧ b.symbol = s := by
  intro r₁ s r' hl h
  obtain ⟨rfl, b, hb, husable, rfl⟩ := of_reference h
  rw [hl.scopes] at hb
  rw [hl.functions] at husable
  exact ⟨hl, b, Scopes.mem_values_of_get? hb, husable, rfl⟩

/-- What is declared in a scope of its own is forgotten. -/
theorem inScope (h : Advances r.opened f fun a _ => P a) : Keeps r (inScope f) P := by
  intro r₁ a r' hl ha
  obtain ⟨r₂, hf, rfl⟩ := of_inScope ha
  have hopened : Like r.opened r₁.opened := ⟨hl.functions, congrArg Scopes.openScope hl.scopes, hl.nextId_le⟩
  obtain ⟨hg, hp⟩ := h r₁.opened a r₂ hopened hf
  obtain ⟨scope, hclose⟩ := hg.around [] r.scopes rfl
  exact ⟨⟨hg.functions, congrArg Prod.snd hclose, hg.nextId_le⟩, hp⟩

theorem inFunction (h : Keeps (r.entering s) f P) : Keeps r (inFunction s f) P := by
  intro r₁ a r' hl ha
  obtain ⟨r₂, hf, rfl⟩ := of_inFunction ha
  have hentered : Like (r.entering s) (r₁.entering s) :=
    ⟨congrArg (s :: ·) hl.functions, hl.scopes, hl.nextId_le⟩
  obtain ⟨hl', hp⟩ := h (r₁.entering s) a r₂ hentered hf
  exact ⟨⟨congrArg List.tail hl'.functions, hl'.scopes, hl'.nextId_le⟩, hp⟩

end Keeps

namespace Advances

variable {P : α → Resolver → Prop} {Q : β → Resolver → Prop}

theorem pure {a : α} (h : ∀ r', Like r r' → P a r') : Advances r (pure a) P := by
  intro r₁ b r' hl hb
  cases hb
  exact ⟨hl.grows, h _ hl⟩

theorem keeps {P : α → Prop} (h : Keeps r f P) : Advances r f fun a r' => Like r r' ∧ P a := by
  intro r₁ a r' hl ha
  obtain ⟨hl', hp⟩ := h r₁ a r' hl ha
  exact ⟨hl'.grows, hl', hp⟩

theorem imp {P' : α → Resolver → Prop} (h : Advances r f P) (hP : ∀ a r', Grows r r' → P a r' → P' a r') :
    Advances r f P' := by
  intro r₁ a r' hl ha
  obtain ⟨hg, hp⟩ := h r₁ a r' hl ha
  exact ⟨hg, hP a r' hg hp⟩

theorem bind (h : Advances r f P) (hk : ∀ a r', Grows r r' → P a r' → Advances r' (k a) Q) :
    Advances r (f >>= k) Q := by
  intro r₁ b r'' hl hb
  obtain ⟨a, r', ha, hb⟩ := of_bind hb
  obtain ⟨hg, hp⟩ := h r₁ a r' hl ha
  obtain ⟨hg', hq⟩ := hk a r' hg hp r' b r'' (Like.refl r') hb
  exact ⟨hg.trans hg', hq⟩

/-- The result is only put together. -/
theorem map {g : α → β} (h : Advances r f P) (hg : ∀ a r', P a r' → Q (g a) r') :
    Advances r (f >>= fun a => Pure.pure (g a)) Q := by
  intro r₁ b r' hl hb
  obtain ⟨a, r'', ha, hb⟩ := of_bind hb
  cases hb
  obtain ⟨hgrows, hp⟩ := h r₁ a r' hl ha
  exact ⟨hgrows, hg a r' hp⟩

/-- After a step that keeps the state, resolution goes on in the same state. -/
theorem bind_keeps {P : α → Prop} (h : Keeps r f P) (hk : ∀ a, P a → Advances r (k a) Q) :
    Advances r (f >>= k) Q := by
  intro r₁ b r'' hl hb
  obtain ⟨a, r', ha, hb⟩ := of_bind hb
  obtain ⟨hl', hp⟩ := h r₁ a r' hl ha
  exact hk a hp r' b r'' hl' hb

/-- After a declaration, resolution goes on with the symbol declared. -/
theorem bind_declare {x : String} {k : Symbol → Resolve β}
    (hk : ∀ s, r.Admissible s → Advances (r.declaring s) (k s) Q) : Advances r (declare x >>= k) Q := by
  intro r₁ b r'' hl hb
  obtain ⟨s, r', hs, hb⟩ := of_bind hb
  obtain ⟨hfree, rfl, rfl⟩ := of_declare hs
  have hadmissible : r.Admissible ⟨x, r₁.nextId⟩ := ⟨hl.nextId_le, hl.scopes ▸ hfree⟩
  have hlike : Like (r.declaring ⟨x, r₁.nextId⟩)
      { r₁ with
        scopes := r₁.scopes.add x ⟨⟨x, r₁.nextId⟩, r₁.functions.head?.map Symbol.id⟩
        nextId := r₁.nextId + 1 } := by
    refine ⟨hl.functions, ?_, Nat.le_refl _⟩
    rw [hl.scopes, hl.functions]
    rfl
  obtain ⟨hg, hq⟩ := hk _ hadmissible _ b r'' hlike hb
  exact ⟨(Grows.declaring hadmissible).trans hg, hq⟩

end Advances

end Resolver

end ExactScript
