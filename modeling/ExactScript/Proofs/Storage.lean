import ExactScript.Proofs.Flow
import ExactScript.Proofs.Linking
import ExactScript.Proofs.Placement
import ExactScript.Proofs.References
import ExactScript.Proofs.Scoping

/-!
# Stored symbols

Every symbol that a reference loads has been stored: in the globals when it is declared outside of all
functions, in the frame of the running call otherwise. The facts at a position are the ids that are known
to be stored there, and they come from what resolution can see at that place of the source.

A function that is made outside of all functions may use its own name, which is stored right after it is
made. Until then the name is *pending*, and nothing is called.

## Contents
* `Stored`, `storage`, the discipline, and `Serves`, its flow through an expression;
* `Resolver.facts`, what resolution knows, and `Expr.follows`;
* `Program.exists_facts`, the facts of a program.
-/

namespace ExactScript

/-- What is known of the memory at a position, and of a function that was just made. -/
structure Stored where
  /-- Control is inside of a call. -/
  inside : Bool
  /-- The ids that are stored, each on its own side. -/
  known : Nat → Prop
  /-- The id that functions may rely on before it is stored. -/
  pending : Option Nat := none
  /-- The function on top of the stack, right after it is made. -/
  made : Option FunctionRef := none

namespace Stored

/-- What is known after any other instruction. -/
def done (a : Stored) : Stored := { a with made := none }

theorem done_eq {a : Stored} (h : a.made = none) : a.done = a := by
  obtain ⟨inside, known, pending, made⟩ := a
  obtain rfl : made = none := h
  rfl

/-- What is known after an id is stored. -/
def add (a : Stored) (id : Nat) : Stored where
  inside := a.inside
  known j := a.known j ∨ j = id
  pending := if a.pending = some id then none else a.pending

/-- Storing the id puts it on its own side: in a call, ids from outside have to be there already. -/
structure Allows (outer : Nat → Prop) (a : Stored) (id : Nat) : Prop where
  known : outer id → a.inside = true → a.known id
  inside : ¬outer id → a.inside = true

/-- The first says no less than the second. -/
structure Implies (a b : Stored) : Prop where
  inside : a.inside = b.inside
  pending : a.pending = b.pending
  made : a.made = b.made
  known : ∀ id, b.known id → a.known id

/-- What may be known when a function is entered. -/
structure Entry (x : Stored) : Prop where
  inside : x.inside = true
  pending : x.pending = none
  made : x.made = none

/-- What is known after ids are stored one after the other. -/
def addAll (a : Stored) (ids : List Nat) : Stored := ids.foldl add a

section

variable {a : Stored} {ids : List Nat}

theorem inside_addAll : (a.addAll ids).inside = a.inside := by
  induction ids generalizing a with
  | nil => rfl
  | cons id ids ih => exact ih

theorem pending_addAll (h : a.pending = none) : (a.addAll ids).pending = none := by
  induction ids generalizing a with
  | nil => exact h
  | cons id ids ih => exact ih (by simp [add, h])

theorem known_addAll {id : Nat} : (a.addAll ids).known id ↔ a.known id ∨ id ∈ ids := by
  induction ids generalizing a with
  | nil => simp [addAll]
  | cons j ids ih =>
    rw [List.mem_cons, ← or_assoc]
    exact ih

end

end Stored

/-- How instructions use the memory, where `outer` are the ids that are declared outside of functions. -/
def storage (outer : Nat → Prop) : Discipline Stored where
  Implies := Stored.Implies
  Step instr a b :=
    match instr with
    | .load id => a.known id ∧ b = a.done
    | .store id => a.Allows outer id ∧ b = a.add id
    | .call _ => a.pending = none ∧ b = a.done
    | _ => b = a.done
  Defines f a x b :=
    x.Entry ∧ a.pending = none ∧ (∀ id, x.known id → outer id ∧ (a.known id ∨ b.pending = some id)) ∧
      (∀ id, b.pending = some id → a.inside = false ∧ outer id) ∧
      b = { a with pending := b.pending, made := some f }
  refl _ := ⟨rfl, rfl, rfl, fun _ h => h⟩
  trans h h' := ⟨h.inside.trans h'.inside, h.pending.trans h'.pending, h.made.trans h'.made,
    fun id hid => h.known id (h'.known id hid)⟩

variable {outer : Nat → Prop} {a : Stored}

namespace Instr

/-- The instruction goes on with the next and does not touch the memory. -/
def Idle : Instr Nat → Prop
  | load _ => False
  | store _ => False
  | call _ => False
  | jump _ => False
  | jumpIf _ _ => False
  | makeFunction _ _ => False
  | ret => False
  | halt => False
  | _ => True

end Instr

/-! ## The flow of facts -/

section Instructions

theorem storage_idle {instr : Instr Nat} (h : instr.Idle) : (storage outer).Goes instr a a.done := by
  intro arrive i hn
  cases instr with
  | load => cases h
  | store => cases h
  | call => cases h
  | jump => cases h
  | jumpIf => cases h
  | makeFunction => cases h
  | ret => cases h
  | halt => cases h
  | _ => exact ⟨_, rfl, hn⟩

theorem storage_load {id : Nat} (h : a.known id) : (storage outer).Goes (.load id) a a.done :=
  fun _ _ hn => ⟨_, ⟨h, rfl⟩, hn⟩

theorem storage_store {id : Nat} (h : a.Allows outer id) : (storage outer).Goes (.store id) a (a.add id) :=
  fun _ _ hn => ⟨_, ⟨h, rfl⟩, hn⟩

theorem storage_call {n : Nat} (h : a.pending = none) : (storage outer).Goes (.call n) a a.done :=
  fun _ _ hn => ⟨_, ⟨h, rfl⟩, hn⟩

/-- What is stored once more is known as before. -/
theorem implies_add {id : Nat} (hp : a.pending = none) : (a.add id).Implies a.done :=
  ⟨rfl, by simp [Stored.add, Stored.done, hp], rfl, fun _ h => .inl h⟩

end Instructions

/-- The piece leaves what is known as it is. -/
def Steady (outer : Nat → Prop) (a : Stored) (p : Piece) : Prop :=
  a.made = none → ∀ i, (storage outer).Passes i a p a

namespace Steady

variable {p q r : Piece}

theorem nil : Steady outer a (.ofList []) := fun _ _ => .nil ((storage outer).refl a)

theorem append (hp : Steady outer a p) (hq : Steady outer a q) : Steady outer a (p ++ q) := fun h i =>
  (hp h i).append (hq h _)

theorem goes {instr : Instr Nat} (h : (storage outer).Goes instr a a.done) :
    Steady outer a (.ofList [instr]) := fun ha _ =>
  .goes (Stored.done_eq ha ▸ h)

theorem idle (instr : Instr Nat) (h : instr.Idle) : Steady outer a (.ofList [instr]) :=
  .goes (storage_idle h)

theorem cons {instr : Instr Nat} {is : List (Instr Nat)} (hp : Steady outer a (.ofList [instr]))
    (hq : Steady outer a (.ofList is)) : Steady outer a (.ofList (instr :: is)) := by
  have h := hp.append hq
  rwa [Piece.ofList_append] at h

/-- A variable that may be used is stored again. -/
theorem store {id : Nat} (hp : a.pending = none) (h : a.Allows outer id) :
    Steady outer a (.ofList [.store id]) := fun ha _ =>
  Discipline.Passes.imp ((storage outer).refl a) (.goes (storage_store h))
    (Stored.done_eq ha ▸ implies_add hp)

variable (hp : Steady outer a p) (hq : Steady outer a q)
include hp hq

theorem logical {decisive : Bool} : Steady outer a (.logical decisive p q) := fun h i =>
  have hidle : ∀ {instr : Instr Nat}, instr.Idle → (storage outer).Goes instr a a := fun hi =>
    Stored.done_eq h ▸ storage_idle hi
  .logical (hp h i) (hidle trivial) (fun _ => (Stored.done_eq h).symm) (hidle trivial) (hq h _)

theorem cond (hr : Steady outer a r) : Steady outer a (.cond p q r) := fun h i =>
  .cond (hp h i) (fun _ => (Stored.done_eq h).symm) (hq h _) (hr h _)

theorem loop : Steady outer a (.loop p q) := fun h i =>
  have hunit : (storage outer).Goes .pushUnit a a := Stored.done_eq h ▸ storage_idle trivial
  .loop (hp h i) (fun _ => (Stored.done_eq h).symm) (hq h _) hunit

end Steady

/-! ## Operands -/

/-- The expression uses only what is known, also as the target of a put. -/
structure Serves (outer : Nat → Prop) (a : Stored) (e : Expr Symbol) : Prop where
  value : Steady outer a e.piece
  restore : Steady outer a (.ofList (restoreCode e))
  target : ∀ {k v}, Steady outer a k → Steady outer a v → Steady outer a (e.pieceOfPut k v)

namespace Serves

open ExactScript.Expr

theorem of_value {e : Expr Symbol} (h : Steady outer a e.piece) (hr : restoreCode e = [] := by rfl)
    (hp : ∀ k v, e.pieceOfPut k v = .ofList [] := by intros; rfl) : Serves outer a e where
  value := h
  restore := hr ▸ .nil
  target {k v} _ _ := hp k v ▸ .nil

theorem var {x : Symbol} (hp : a.pending = none) (hx : a.known x.id) (hs : a.Allows outer x.id) :
    Serves outer a (.var x) := by
  have hload : Steady outer a (.ofList [.load x.id]) := .goes (storage_load hx)
  have hkeep : Steady outer a (.ofList [.dup, .store x.id]) := .cons (.idle .dup trivial) (.store hp hs)
  exact ⟨hload, hkeep, fun hk hv => hload.append (hk.append (hv.append (.cons (.idle .put trivial) hkeep)))⟩

theorem index {target key : Expr Symbol} (ht : Serves outer a target) (hk : Serves outer a key) :
    Serves outer a (.index target key) := by
  have hfind : Steady outer a (.ofList [.find]) := .idle .find trivial
  have hput : Steady outer a (.ofList [.put]) := .idle .put trivial
  refine ⟨ht.value.append (hk.value.append hfind), .nil, fun hk' hv => ht.target hk.value ?_⟩
  exact ht.value.append (hk.value.append (hfind.append (hk'.append (hv.append hput))))

variable {es : List (Expr Symbol)}

theorem all (h : ∀ e ∈ es, Serves outer a e) : Steady outer a (pieceOfAll es) := by
  induction es with
  | nil => exact .nil
  | cons e es ih =>
    obtain ⟨he, hes⟩ := List.forall_mem_cons.mp h
    exact he.value.append (ih hes)

theorem reversed (h : ∀ e ∈ es, Serves outer a e) : Steady outer a (pieceOfReversed es) := by
  induction es with
  | nil => exact .nil
  | cons e es ih =>
    obtain ⟨he, hes⟩ := List.forall_mem_cons.mp h
    exact (ih hes).append he.value

end Serves

/-! ## What resolution knows -/

namespace Resolver

open Discipline (Passes)

variable {r r' : Resolver} {s : Symbol}

/-- The ids that a name could refer to. -/
def facts (r : Resolver) : Stored where
  inside := r.inside
  known id := ∃ b ∈ r.bindings, usableIn b r.functions.head? ∧ b.symbol.id = id

/-- Bindings are on the side that their ids are on, and belong to functions around. -/
structure Sorted (outer : Nat → Prop) (r : Resolver) : Prop where
  side : ∀ b ∈ r.bindings, outer b.symbol.id ↔ b.owner = none
  owner : ∀ b ∈ r.bindings, ∀ g ∈ b.owner, ∃ f ∈ r.functions, f.id = g
  fresh : ∀ f ∈ r.functions, f.id < r.nextId

theorem facts_of_like (h : Like r r') : r'.facts = r.facts := by
  simp only [facts, inside, h.bindings, h.functions]

theorem Sorted.of_like (h : Like r r') (hr : r.Sorted outer) : r'.Sorted outer where
  side := h.bindings ▸ hr.side
  owner := by
    rw [h.bindings, h.functions]
    exact hr.owner
  fresh f hf := Nat.lt_of_lt_of_le (hr.fresh f (h.functions ▸ hf)) h.nextId_le

@[simp] theorem facts_opened : r.opened.facts = r.facts := by
  simp only [facts, bindings_opened]
  rfl

theorem Sorted.opened (hr : r.Sorted outer) : r.opened.Sorted outer where
  side := by
    rw [bindings_opened]
    exact hr.side
  owner := by
    rw [bindings_opened]
    exact hr.owner
  fresh := hr.fresh

theorem Sorted.declaring (hr : r.Sorted outer) (hs : r.Admissible s)
    (hside : outer s.id ↔ r.inside = false) : (r.declaring s).Sorted outer where
  side b hb := by
    rcases (mem_bindings_declaring hs).mp hb with rfl | hb
    · rw [hside]
      simp [inside]
    · exact hr.side b hb
  owner b hb g hg := by
    rcases (mem_bindings_declaring hs).mp hb with rfl | hb
    · obtain ⟨f, hf, rfl⟩ := Option.map_eq_some_iff.mp hg
      exact ⟨f, List.mem_of_mem_head? hf, rfl⟩
    · exact hr.owner b hb g hg
  fresh f hf := Nat.lt_succ_of_lt (Nat.lt_of_lt_of_le (hr.fresh f hf) hs.fresh)

theorem Sorted.entering (hr : r.Sorted outer) (hs : s.id < r.nextId) : (r.entering s).Sorted outer where
  side := hr.side
  owner b hb g hg := by
    obtain ⟨f, hf, hid⟩ := hr.owner b hb g hg
    exact ⟨f, List.mem_cons_of_mem _ hf, hid⟩
  fresh := List.forall_mem_cons.mpr ⟨hs, hr.fresh⟩

/-- Names that were added can be forgotten. -/
theorem Grows.implies (h : Grows r r') : r'.facts.Implies r.facts := by
  refine ⟨by simp only [facts, inside, h.functions], rfl, rfl, fun id hid => ?_⟩
  obtain ⟨b, hb, husable, rfl⟩ := hid
  exact ⟨b, h.bindings b hb, h.functions ▸ husable, rfl⟩

theorem implies_declaring (hs : r.Admissible s) : (r.facts.add s.id).Implies (r.declaring s).facts := by
  refine ⟨rfl, rfl, rfl, fun id hid => ?_⟩
  obtain ⟨b, hb, husable, rfl⟩ := hid
  rcases (mem_bindings_declaring hs).mp hb with rfl | hb
  · exact .inr rfl
  · exact .inl ⟨b, hb, husable, rfl⟩

theorem allows_declaring (hside : outer s.id ↔ r.inside = false) : r.facts.Allows outer s.id where
  known ho hin := Bool.noConfusion ((hside.mp ho).symm.trans hin)
  inside hno := by
    cases hin : r.inside with
    | false => exact absurd (hside.mpr hin) hno
    | true => exact hin

/-- **A reference serves.** -/
theorem Sorted.serves_var (hr : r.Sorted outer) (h : r.facts.known s.id) :
    Serves outer r.facts (.var s) := by
  refine .var rfl h ⟨fun _ _ => h, fun hno => ?_⟩
  obtain ⟨b, hb, -, hid⟩ := h
  cases howner : b.owner with
  | none => exact absurd (hid ▸ (hr.side b hb).mpr howner) hno
  | some g =>
    obtain ⟨f, hf, -⟩ := hr.owner b hb g howner
    have hne : r.functions ≠ [] := List.ne_nil_of_mem hf
    simpa [Resolver.facts, Resolver.inside] using hne

end Resolver

/-- The declarations are on the sides of their ids. -/
def Sided (outer : Nat → Prop) (ds : List (Bool × Symbol)) : Prop :=
  ∀ d ∈ ds, outer d.2.id ↔ d.1 = false

theorem sided_append {ds es : List (Bool × Symbol)} :
    Sided outer (ds ++ es) ↔ Sided outer ds ∧ Sided outer es := List.forall_mem_append

theorem sided_cons {d : Bool × Symbol} {ds : List (Bool × Symbol)} :
    Sided outer (d :: ds) ↔ (outer d.2.id ↔ d.1 = false) ∧ Sided outer ds := List.forall_mem_cons

namespace Expr

open Resolver

variable {r r' : Resolver}

/-- An operand, resolved in the state `r`. -/
def Settles (outer : Nat → Prop) (r : Resolver) (e : Expr Symbol) : Prop :=
  r.Sorted outer → Sided outer (e.declarations r.inside) → Serves outer r.facts e

/-- A statement, whose resolution leads from the state `r` to the state `r'`. -/
def Leads (outer : Nat → Prop) (r : Resolver) (e : Expr Symbol) (r' : Resolver) : Prop :=
  r.Sorted outer → Sided outer (e.declarations r.inside) →
    r'.Sorted outer ∧ ∀ i, (storage outer).Passes i r.facts e.piece r'.facts

/-- What is shown of every tree. -/
structure Follows (outer : Nat → Prop) (e : Expr String) : Prop where
  operand : e.Plain → ∀ r, Keeps r e.resolve (Settles outer r)
  statement : e.Placed → ∀ r, Advances r e.resolve (Leads outer r)

theorem Follows.of_operand {e : Expr String} (hd : ¬e.IsDeclaration)
    (h : e.Plain → ∀ r, Keeps r e.resolve (Settles outer r)) : e.Follows outer := by
  refine ⟨h, fun hp r => (Advances.keeps (h ⟨hp, hd⟩ r)).imp fun e' r' _ ⟨hl, he⟩ hr hs => ?_⟩
  exact ⟨hr.of_like hl, facts_of_like hl ▸ (he hr hs).value rfl⟩

section Lists

variable {es : List (Expr String)}

theorem keeps_resolveAll (h : ∀ e ∈ es, e.Follows outer) (hp : ∀ e ∈ es, e.Plain) :
    Keeps r (resolveAll es) fun es' => r.Sorted outer → Sided outer (declarationsOfAll r.inside es') →
      ∀ e ∈ es', Serves outer r.facts e := by
  induction es with
  | nil => exact .pure fun _ _ e he => by cases he
  | cons e es ih =>
    obtain ⟨he, hes⟩ := List.forall_mem_cons.mp h
    obtain ⟨hpe, hpes⟩ := List.forall_mem_cons.mp hp
    refine (he.operand hpe r).bind fun e' h₁ => (ih hes hpes).bind fun es' h₂ => .pure fun hr hs => ?_
    obtain ⟨hs₁, hs₂⟩ := sided_append.mp hs
    exact List.forall_mem_cons.mpr ⟨h₁ hr hs₁, h₂ hr hs₂⟩

theorem keeps_resolveEntries {es : List (Expr String × Expr String)}
    (h : ∀ kv ∈ es, kv.1.Follows outer ∧ kv.2.Follows outer)
    (hp : ∀ kv ∈ es, kv.1.Plain ∧ kv.2.Plain) :
    Keeps r (resolveEntries es) fun es' => r.Sorted outer →
      Sided outer (declarationsOfEntries r.inside es') → Steady outer r.facts (pieceOfEntries es') := by
  induction es with
  | nil => exact .pure fun _ _ => .nil
  | cons kv es ih =>
    obtain ⟨⟨hk, hv⟩, hes⟩ := List.forall_mem_cons.mp h
    obtain ⟨⟨hpk, hpv⟩, hpes⟩ := List.forall_mem_cons.mp hp
    refine (hk.operand hpk r).bind fun k h₁ => (hv.operand hpv r).bind fun v h₂ =>
      (ih hes hpes).bind fun es' h₃ => .pure fun hr hs => ?_
    obtain ⟨hs₁, hs⟩ := sided_append.mp hs
    obtain ⟨hs₂, hs₃⟩ := sided_append.mp hs
    exact (h₁ hr hs₁).value.append ((h₂ hr hs₂).value.append (h₃ hr hs₃))

/-- What is known of statements: their values are all dropped, or all but the last. -/
structure StatementsLead (outer : Nat → Prop) (r : Resolver) (es : List (Expr Symbol)) (r' : Resolver) :
    Prop where
  sorted : r'.Sorted outer
  statements : ∀ i, (storage outer).Passes i r.facts (pieceOfStatements es) r'.facts
  block : ∀ i, (storage outer).Passes i r.facts (pieceOfBlock es) r'.facts

theorem advances_all (h : ∀ e ∈ es, e.Follows outer) (hp : ∀ e ∈ es, e.Placed) (r : Resolver) :
    Advances r (resolveAll es) fun es' r' => r.Sorted outer →
      Sided outer (declarationsOfAll r.inside es') → StatementsLead outer r es' r' := by
  have hdrop : ∀ a, Steady outer a (.ofList [.pop]) := fun a => .idle .pop trivial
  induction es generalizing r with
  | nil =>
    refine .pure fun r' hl hr _ => ⟨hr.of_like hl, ?_, ?_⟩
    · rw [facts_of_like hl]
      exact Steady.nil rfl
    · rw [facts_of_like hl]
      exact Steady.idle .pushUnit trivial rfl
  | cons e es ih =>
    obtain ⟨he, hes⟩ := List.forall_mem_cons.mp h
    obtain ⟨hpe, hpes⟩ := List.forall_mem_cons.mp hp
    refine (he.statement hpe r).bind fun e' r₁ hg h₁ => (ih hes hpes r₁).map fun es' r₂ h₂ hr hs => ?_
    obtain ⟨hs₁, hs₂⟩ := sided_append.mp hs
    obtain ⟨hr₁, he'⟩ := h₁ hr hs₁
    have hinside : r₁.inside = r.inside := by simp only [Resolver.inside, hg.functions]
    obtain ⟨hr₂, hstatements, hblock⟩ := h₂ hr₁ (hinside ▸ hs₂)
    refine ⟨hr₂, fun i => (he' i).append ((hdrop _ rfl _).append (hstatements _)), fun i => ?_⟩
    cases es' with
    | nil =>
      have hlast := (he' i).append (hstatements _)
      rwa [pieceOfStatements, Piece.append_nil] at hlast
    | cons f es' => exact (he' i).append ((hdrop _ rfl _).append (hblock _))

/-- Statements in a scope of their own. -/
theorem keeps_resolveScope (h : ∀ e ∈ es, e.Follows outer) (hp : ∀ e ∈ es, e.Placed) :
    Keeps r (inScope (resolveAll es)) fun es' => r.Sorted outer →
      Sided outer (declarationsOfAll r.inside es') → Steady outer r.facts (pieceOfBlock es') := by
  refine .inScope ((advances_all h hp r.opened).imp fun es' r' hg h₁ hr hs _ i => ?_)
  have hblock := (h₁ hr.opened hs).block i
  have hforget := hg.implies
  rw [facts_opened] at hblock hforget
  exact .imp ((storage outer).refl _) hblock hforget

end Lists

/-- A value that is kept in a variable. -/
theorem passes_store {p : Piece} {s : Symbol} (hp : Steady outer r.facts p) (h : r.facts.Allows outer s.id)
    (i : Nat) : (storage outer).Passes i r.facts (p ++ .ofList [.dup, .store s.id]) (r.facts.add s.id) := by
  have hdup : Steady outer r.facts (.ofList [.dup]) := .idle .dup trivial
  have hkeep := (hdup rfl (i + p.width)).append (.goes (storage_store h))
  rw [Piece.ofList_append] at hkeep
  exact (hp rfl i).append hkeep

/-- A value that is bound in a scope of its own. -/
theorem steady_bound {p q : Piece} {s : Symbol} (hs : r.opened.Admissible s)
    (hside : outer s.id ↔ r.inside = false) (hp : Steady outer r.facts p)
    (hq : Steady outer (r.opened.declaring s).facts q) :
    Steady outer r.facts (p ++ (.ofList [.store s.id] ++ q)) := by
  have hbound := implies_declaring hs
  have hforget := (Grows.declaring hs).implies
  rw [facts_opened] at hbound hforget
  refine fun _ i => (hp rfl i).append ?_
  exact .append (.goes (storage_store (allows_declaring hside))) (.imp hbound (hq rfl _) hforget)

theorem keeps_resolveAlternative {no : Option (List (Expr String))}
    (h : ∀ body ∈ no, ∀ e ∈ body, e.Follows outer) (hp : ∀ body ∈ no, ∀ e ∈ body, e.Placed) :
    Keeps r (resolveAlternative no) fun no' => r.Sorted outer →
      Sided outer (declarationsOfAlternative r.inside no') →
        Steady outer r.facts (pieceOfAlternative no') := by
  cases no with
  | none => exact .pure fun _ _ => .idle .pushUnit trivial
  | some body => exact (keeps_resolveScope (h body rfl) (hp body rfl)).bind fun es h₁ => .pure h₁

theorem keeps_resolveStep {step : Option (Expr String)} (h : ∀ e ∈ step, e.Follows outer)
    (hp : ∀ e ∈ step, e.Plain) :
    Keeps r (resolveStep step) fun step' => r.Sorted outer →
      Sided outer (declarationsOfStep r.inside step') → Steady outer r.facts (pieceOfStep step') := by
  cases step with
  | none => exact .pure fun _ _ => .idle _ trivial
  | some e =>
    exact ((h e rfl).operand (hp e rfl) r).bind fun e' h₁ => .pure fun hr hs => (h₁ hr hs).value

theorem keeps_reference {x : String} : Keeps r (reference x) fun s => r.facts.known s.id :=
  Keeps.reference.imp fun _ ⟨b, hb, husable, hs⟩ => ⟨b, hb, husable, congrArg Symbol.id hs⟩

/-! ## Functions -/

/-- Parameters belong to their function. -/
theorem advances_params (outer : Nat → Prop) (xs : List String) (r : Resolver) :
    Advances r (declareAll xs) fun ss r' => r.Sorted outer → r.inside = true →
      (∀ s ∈ ss, ¬outer s.id) →
        r'.Sorted outer ∧ ∀ id, r'.facts.known id → r.facts.known id ∨ id ∈ ss.map Symbol.id := by
  induction xs generalizing r with
  | nil => exact .pure fun r' hl hr _ _ => ⟨hr.of_like hl, fun id hid => .inl (facts_of_like hl ▸ hid)⟩
  | cons x xs ih =>
    refine .bind_declare fun s hs => (ih (r.declaring s)).map fun ss r' h hr hin hout => ?_
    obtain ⟨hs', hss⟩ := List.forall_mem_cons.mp hout
    have hside : outer s.id ↔ r.inside = false := by simp [hin, hs']
    obtain ⟨hr', hknown⟩ := h (hr.declaring hs hside) hin hss
    refine ⟨hr', fun id hid => ?_⟩
    rw [List.map_cons, List.mem_cons]
    rcases hknown id hid with hid | hid
    · exact ((implies_declaring hs).known id hid).imp_right .inl
    · exact .inr (.inr hid)

theorem passes_stores {xs : List Symbol} (h : ∀ x ∈ xs, ¬outer x.id) (hin : a.inside = true) (i : Nat) :
    (storage outer).Passes i a (.ofList (xs.map fun x => .store x.id)) (a.addAll (xs.map Symbol.id)) := by
  induction xs generalizing a i with
  | nil => exact .nil ((storage outer).refl a)
  | cons x xs ih =>
    obtain ⟨hx, hxs⟩ := List.forall_mem_cons.mp h
    have hallows : a.Allows outer x.id := ⟨fun ho => absurd ho hx, fun _ => hin⟩
    have hwhole := Discipline.Passes.append (p := .ofList [.store x.id]) (.goes (storage_store hallows))
      (ih (a := a.add x.id) hxs hin (i + 1))
    rwa [Piece.ofList_append] at hwhole

/-- What a function may rely on when it is entered: the symbols from outside that were known when it was
made, its own name among them. -/
def entryFacts (outer : Nat → Prop) (r : Resolver) (s : Symbol) : Stored where
  inside := true
  known id := outer id ∧ (r.facts.known id ∨ id = s.id)

/-- After its prologue a function knows what resolution knows of its body. -/
theorem implies_entry {r' : Resolver} {s : Symbol} {params : List Symbol} (hr : r.Sorted outer)
    (hs : r.Admissible s) (hin : r'.inside = true)
    (hknown : ∀ id, r'.facts.known id →
      ((r.declaring s).entering s).facts.known id ∨ id ∈ params.map Symbol.id) :
    Stored.Implies (((entryFacts outer r s).addAll (params.reverse.map Symbol.id)).add s.id)
      r'.facts := by
  refine ⟨?_, ?_, rfl, fun id hid => ?_⟩
  · simp only [Stored.add, Stored.inside_addAll]
    exact hin.symm
  · simp [Stored.add, Stored.pending_addAll, entryFacts, facts]
  · simp only [Stored.add, Stored.known_addAll, List.map_reverse, List.mem_reverse]
    rcases hknown id hid with ⟨b, hb, husable, rfl⟩ | hid
    · rcases (mem_bindings_declaring hs).mp hb with rfl | hb
      · exact .inr rfl
      · cases howner : b.owner with
        | none =>
          refine .inl (.inl ⟨(hr.side b hb).mpr howner, .inl ⟨b, hb, ?_, rfl⟩⟩)
          simp [usableIn, howner]
        | some g =>
          -- the function is new, so that nothing around belongs to it
          obtain ⟨f, hf, rfl⟩ := hr.owner b hb g howner
          have hlt := Nat.lt_of_lt_of_le (hr.fresh f hf) hs.fresh
          simp only [usableIn, howner, entering, List.head?_cons, Bool.or_eq_true, beq_iff_eq] at husable
          rcases husable with husable | husable
          · exact absurd husable (Nat.ne_of_lt hlt)
          · exact .inr husable
    · exact .inl (.inr hid)

/-- **The definition of a function.** -/
theorem passes_function {r' : Resolver} {s : Symbol} {params : List Symbol} {source : List (Expr Symbol)}
    {p : Piece} {c : Stored} (hr : r.Sorted outer) (hs : r.Admissible s)
    (hside : outer s.id ↔ r.inside = false) (hparams : ∀ x ∈ params, ¬outer x.id)
    (hin : r'.inside = true)
    (hknown : ∀ id, r'.facts.known id →
      ((r.declaring s).entering s).facts.known id ∨ id ∈ params.map Symbol.id)
    (hbody : ∀ i, (storage outer).Passes i r'.facts p c) (i : Nat) :
    (storage outer).Passes i r.facts (.function s params source p) (r.declaring s).facts := by
  let x := entryFacts outer r s
  let b := x.addAll (params.reverse.map Symbol.id)
  let f : FunctionRef := ⟨i + 1, params.length⟩
  let own : Stored := { r.facts with pending := if r.inside then none else some s.id, made := some f }
  have hx : x.Entry := ⟨rfl, rfl, rfl⟩
  have hb : b.inside = true ∧ b.pending = none ∧ ∀ id, x.known id → b.known id :=
    ⟨Stored.inside_addAll, Stored.pending_addAll rfl, fun id hid => Stored.known_addAll.mpr (.inl hid)⟩
  have hself : (storage outer).Defines f b x { b with made := some f } := by
    refine ⟨hx, hb.2.1, fun id hid => ⟨hid.1, .inl (hb.2.2 id hid)⟩, fun id hid => ?_, rfl⟩
    exact absurd (hb.2.1.symm.trans hid) (by simp)
  have hname : Stored.Allows outer { b with made := some f } s.id :=
    ⟨fun ho _ => hb.2.2 s.id ⟨ho, .inr rfl⟩, fun _ => hb.1⟩
  have hroutine : (storage outer).Passes (i + 1) x (.routine s params p) r.facts :=
    .routine (passes_stores (fun x hx => hparams x (List.mem_reverse.mp hx)) rfl _) hself
      (storage_store hname) (.imp (implies_entry hr hs hin hknown) (hbody _) ((storage outer).refl c)) rfl
  have hdefines : (storage outer).Defines f r.facts x own := by
    refine ⟨hx, rfl, fun id hid => ⟨hid.1, hid.2.imp_right ?_⟩, fun id hid => ?_, rfl⟩
    · rintro rfl
      simp [own, hside.mp hid.1]
    · obtain ⟨hout, rfl⟩ : r.inside = false ∧ s.id = id := by simpa [own] using hid
      exact ⟨hout, hside.mpr hout⟩
  have hallows : own.done.Allows outer s.id :=
    ⟨(allows_declaring hside).known, (allows_declaring hside).inside⟩
  have hdone : (own.done.add s.id).Implies (r.declaring s).facts := by
    have hsymbol := implies_declaring hs
    refine ⟨hsymbol.inside, ?_, rfl, hsymbol.known⟩
    simp only [Stored.add, Stored.done, own]
    split <;> simp_all [facts]
  exact .imp ((storage outer).refl _)
    (.function hroutine hdefines (storage_idle trivial) (storage_store hallows)) hdone

/-- A counting loop binds its variable around the test, the step and the body. -/
theorem follows_count {x : String} {init test advance : Expr String} {body : List (Expr String)}
    (hi : init.Follows outer) (ht : test.Follows outer) (ha : advance.Follows outer)
    (hb : ∀ e ∈ body, e.Follows outer) : (count x init test advance body).Follows outer := by
  refine .of_operand id fun hp r => .inScope (.bind_keeps
    (hi.operand (hp.operand (by simp [operands])) r.opened) fun i h₁ => .bind_declare fun s hs =>
      .bind_keeps (ht.operand (hp.operand (by simp [operands])) _) fun t h₂ =>
        .bind_keeps (ha.operand (hp.operand (by simp [operands])) _) fun a h₃ => ?_)
  refine (Advances.keeps (keeps_resolveScope hb fun e he => hp.placed.statement he)).map
    fun es r' h₄ hr hsided => ?_
  obtain ⟨hs₁, hsided⟩ := sided_append.mp hsided
  obtain ⟨hside, hsided⟩ := sided_cons.mp hsided
  obtain ⟨hs₂, hsided⟩ := sided_append.mp hsided
  obtain ⟨hs₃, hs₄⟩ := sided_append.mp hsided
  have hinit := (h₁ hr.opened hs₁).value
  rw [facts_opened] at hinit
  have hr' := hr.opened.declaring hs hside
  have hpop : Steady outer (r.opened.declaring s).facts (.ofList [.pop]) := .idle .pop trivial
  exact .of_value (steady_bound hs hside hinit (.loop (h₂ hr' hs₂).value
    ((h₄.2 hr' hs₄).append (hpop.append ((h₃ hr' hs₃).value.append hpop)))))

/-- A function is declared before its parameters, which are known in its body and in its result. -/
theorem follows_function {name : String} {params : List String} {body : List (Expr String)} {ret : Expr String}
    (hb : ∀ e ∈ body, e.Follows outer) (hret : ret.Follows outer) :
    (function name params body ret).Follows outer := by
  refine ⟨fun hp => absurd trivial hp.not_declaration, fun hp r => .bind_declare fun s hs => ?_⟩
  have hinner : Advances ((r.declaring s).entering s).opened (declareAll params >>= fun params => do
      let body ← resolveAll body
      return function s params body (← ret.resolve)) fun e' _ => Leads outer r e' (r.declaring s) := by
    refine .bind (advances_params outer params _) fun ps r₁ hg₁ h₁ => .bind (advances_all hb
      (fun e he => hp.statement he) r₁) fun es r₂ hg₂ h₂ => ?_
    refine (Advances.keeps (hret.operand (hp.operand (by simp [operands])) r₂)).map
      fun e' r₃ h₃ hr hsided => ?_
    obtain ⟨hside, hsided⟩ := sided_cons.mp hsided
    obtain ⟨hs₁, hsided⟩ := sided_append.mp hsided
    obtain ⟨hs₂, hs₃⟩ := sided_append.mp hsided
    have hparams : ∀ x ∈ ps, ¬outer x.id := fun x hx ho => by
      simpa [ho] using hs₁ (true, x) (List.mem_map.mpr ⟨x, hx, rfl⟩)
    have hstart := ((hr.declaring hs hside).entering (Nat.lt_succ_self _)).opened
    obtain ⟨hr₁, hknown⟩ := h₁ hstart rfl hparams
    rw [facts_opened] at hknown
    have hin₁ : r₁.inside = true := by simp only [Resolver.inside, hg₁.functions]; rfl
    have hin₂ : r₂.inside = true := by simp only [Resolver.inside, hg₂.functions]; exact hin₁
    have hbody := h₂ hr₁ (hin₁ ▸ hs₂)
    have hresult := (h₃.2 hbody.sorted (hin₂ ▸ hs₃)).value
    have hwhole : ∀ i, (storage outer).Passes i r₁.facts (pieceOfStatements es ++ e'.piece) r₂.facts :=
      fun i => (hbody.statements i).append (hresult rfl _)
    exact ⟨hr.declaring hs hside, passes_function hr hs hside hparams hin₁ hknown hwhole⟩
  exact (Advances.keeps (.inFunction (.inScope hinner))).imp fun e' r' _ h hr hsided =>
    ⟨(h.2 hr hsided).1.of_like h.1, facts_of_like h.1 ▸ (h.2 hr hsided).2⟩

/-- **Resolution knows what is stored.** -/
theorem follows (e : Expr String) : e.Follows outer := by
  induction e using induct with
  | literal l => exact .of_operand id fun _ r => .pure fun _ _ => .of_value (.idle (.push l) trivial)
  | var x =>
    exact .of_operand id fun _ r => keeps_reference.bind fun s hs => .pure fun hr _ => hr.serves_var hs
  | declare x value hv =>
    refine ⟨fun hp => absurd trivial hp.not_declaration, fun hp r => ?_⟩
    refine .bind_keeps (hv.operand (hp.operand (by simp [operands, children])) r) fun v h₁ =>
      .bind_declare fun s hs => .pure fun r' hl hr hsided => ?_
    obtain ⟨hs₁, hside, -⟩ := sided_append.mp hsided |>.imp_right sided_cons.mp
    refine ⟨(hr.declaring hs hside).of_like hl, fun i => ?_⟩
    rw [facts_of_like hl]
    exact .imp ((storage outer).refl _)
      (passes_store (h₁ hr hs₁).value (allows_declaring hside) i) (implies_declaring hs)
  | assign x value hv =>
    refine .of_operand id fun hp r => (hv.operand (hp.operand (by simp [operands, children])) r).bind
      fun v h₁ => keeps_reference.bind fun s hs => .pure fun hr hsided => ?_
    exact .of_value ((h₁ hr hsided).value.append (hr.serves_var hs).restore)
  | letIn x value body hv hb =>
    refine .of_operand id fun hp r => (hv.operand (hp.operand (by simp [operands, children])) r).bind
      fun v h₁ => .inScope (.bind_declare fun s hs => ?_)
    refine (Advances.keeps (hb.operand (hp.operand (by simp [operands, children])) _)).map
      fun b r' h₂ hr hsided => ?_
    obtain ⟨hs₁, hsided⟩ := sided_append.mp hsided
    obtain ⟨hside, hs₂⟩ := sided_cons.mp hsided
    exact .of_value (steady_bound hs hside (h₁ hr hs₁).value
      (h₂.2 (hr.opened.declaring hs hside) hs₂).value)
  | unary op operand ho =>
    refine .of_operand id fun hp r => (ho.operand (hp.operand (by simp [operands, children])) r).bind
      fun v h₁ => .pure fun hr hsided => ?_
    exact .of_value ((h₁ hr hsided).value.append (.idle (.unary op) trivial))
  | binary op left right hl hr =>
    refine .of_operand id fun hp r => (hl.operand (hp.operand (by simp [operands, children])) r).bind
      fun x h₁ => (hr.operand (hp.operand (by simp [operands, children])) r).bind
        fun y h₂ => .pure fun hr hsided => ?_
    obtain ⟨hs₁, hs₂⟩ := sided_append.mp hsided
    exact .of_value ((h₁ hr hs₁).value.append ((h₂ hr hs₂).value.append (.idle (.binary op) trivial)))
  | logical op left right hl hr =>
    refine .of_operand id fun hp r => (hl.operand (hp.operand (by simp [operands, children])) r).bind
      fun x h₁ => (hr.operand (hp.operand (by simp [operands, children])) r).bind
        fun y h₂ => .pure fun hr hsided => ?_
    obtain ⟨hs₁, hs₂⟩ := sided_append.mp hsided
    exact .of_value (.logical (h₁ hr hs₁).value (h₂ hr hs₂).value)
  | block body hb =>
    refine .of_operand id fun hp r => (keeps_resolveScope hb fun e he => hp.placed.statement he).bind
      fun es h₁ => .pure fun hr hsided => ?_
    exact .of_value (h₁ hr hsided)
  | cond test yes no ht hy hn =>
    refine .of_operand id fun hp r => (ht.operand (hp.operand (by simp [operands])) r).bind fun t h₁ =>
      (keeps_resolveScope hy fun e he => hp.placed.statement (by simp [statements, he])).bind fun y h₂ =>
        (keeps_resolveAlternative hn fun body hb e he => hp.placed.statement ?_).bind
          fun n h₃ => .pure fun hr hsided => ?_
    · obtain rfl : no = some body := hb
      simp [statements, he]
    · obtain ⟨hs₁, hsided⟩ := sided_append.mp hsided
      obtain ⟨hs₂, hs₃⟩ := sided_append.mp hsided
      exact .of_value (.cond (h₁ hr hs₁).value (h₂ hr hs₂) (h₃ hr hs₃))
  | loop test body ht hb =>
    refine .of_operand id fun hp r => (ht.operand (hp.operand (by simp [operands])) r).bind fun t h₁ =>
      (keeps_resolveScope hb fun e he => hp.placed.statement he).bind fun es h₂ => .pure fun hr hsided => ?_
    obtain ⟨hs₁, hs₂⟩ := sided_append.mp hsided
    exact .of_value (.loop (h₁ hr hs₁).value ((h₂ hr hs₂).append (.idle .pop trivial)))
  | count _ _ _ _ _ hi ht ha hb => exact follows_count hi ht ha hb
  | print args ha =>
    refine .of_operand id fun hp r => (keeps_resolveAll ha fun e he => hp.operand he).bind fun es h₁ =>
      .pure fun hr hsided => ?_
    exact .of_value ((Serves.reversed (h₁ hr hsided)).append (.idle (.print _) trivial))
  | list elems he =>
    refine .of_operand id fun hp r => (keeps_resolveAll he fun e he => hp.operand he).bind fun es h₁ =>
      .pure fun hr hsided => ?_
    exact .of_value ((Serves.all (h₁ hr hsided)).append
      (.cons (.idle _ trivial) (.idle .buildList trivial)))
  | fill value size hv hs =>
    refine .of_operand id fun hp r => (hv.operand (hp.operand (by simp [operands, children])) r).bind
      fun x h₁ => (hs.operand (hp.operand (by simp [operands, children])) r).bind
        fun y h₂ => .pure fun hr hsided => ?_
    obtain ⟨hs₁, hs₂⟩ := sided_append.mp hsided
    exact .of_value ((h₁ hr hs₁).value.append ((h₂ hr hs₂).value.append (.idle .listFill trivial)))
  | map entries he =>
    refine .of_operand id fun hp r => (keeps_resolveEntries he fun kv hkv => ?_).bind fun es h₁ =>
      .pure fun hr hsided => ?_
    · exact ⟨hp.operand (List.mem_flatMap.mpr ⟨kv, hkv, by simp⟩),
        hp.operand (List.mem_flatMap.mpr ⟨kv, hkv, by simp⟩)⟩
    · exact .of_value ((h₁ hr hsided).append (.cons (.idle _ trivial) (.idle .buildMap trivial)))
  | query op target ht =>
    refine .of_operand id fun hp r => (ht.operand (hp.operand (by simp [operands, children])) r).bind
      fun v h₁ => .pure fun hr hsided => ?_
    exact .of_value ((h₁ hr hsided).value.append (.idle (.query op) trivial))
  | update op target arg ht ha =>
    refine .of_operand id fun hp r => (ht.operand (hp.operand (by simp [operands, children])) r).bind
      fun x h₁ => (ha.operand (hp.operand (by simp [operands, children])) r).bind
        fun y h₂ => .pure fun hr hsided => ?_
    obtain ⟨hs₁, hs₂⟩ := sided_append.mp hsided
    exact .of_value ((h₁ hr hs₁).value.append ((h₂ hr hs₂).value.append
      (.cons (.idle (.update op) trivial) (h₁ hr hs₁).restore)))
  | index target key ht hk =>
    refine .of_operand id fun hp r => (ht.operand (hp.operand (by simp [operands, children])) r).bind
      fun x h₁ => (hk.operand (hp.operand (by simp [operands, children])) r).bind
        fun y h₂ => .pure fun hr hsided => ?_
    obtain ⟨hs₁, hs₂⟩ := sided_append.mp hsided
    exact .index (h₁ hr hs₁) (h₂ hr hs₂)
  | put target key value ht hk hv =>
    refine .of_operand id fun hp r => (ht.operand (hp.operand (by simp [operands, children])) r).bind
      fun x h₁ => (hk.operand (hp.operand (by simp [operands, children])) r).bind
        fun y h₂ => (hv.operand (hp.operand (by simp [operands, children])) r).bind
          fun z h₃ => .pure fun hr hsided => ?_
    obtain ⟨hs₁, hsided⟩ := sided_append.mp hsided
    obtain ⟨hs₂, hs₃⟩ := sided_append.mp hsided
    exact .of_value ((h₁ hr hs₁).target (h₂ hr hs₂).value (h₃ hr hs₃).value)
  | concat parts hp =>
    refine .of_operand id fun hp' r => (keeps_resolveAll hp fun e he => hp'.operand he).bind fun es h₁ =>
      .pure fun hr hsided => ?_
    exact .of_value ((Serves.reversed (h₁ hr hsided)).append (.idle (.strCat _) trivial))
  | slice target start stop step ht hs hp hst =>
    refine .of_operand id fun hp' r => (ht.operand (hp'.operand (by simp [operands, children])) r).bind
      fun x h₁ => (hs.operand (hp'.operand (by simp [operands, children])) r).bind
        fun y h₂ => (hp.operand (hp'.operand (by simp [operands, children])) r).bind
          fun z h₃ => (keeps_resolveStep hst fun e he => hp'.operand ?_).bind
            fun w h₄ => .pure fun hr hsided => ?_
    · obtain rfl : step = some e := he
      simp [operands, children]
    · obtain ⟨hs₁, hsided⟩ := sided_append.mp hsided
      obtain ⟨hs₂, hsided⟩ := sided_append.mp hsided
      obtain ⟨hs₃, hs₄⟩ := sided_append.mp hsided
      exact .of_value ((h₁ hr hs₁).value.append ((h₂ hr hs₂).value.append ((h₃ hr hs₃).value.append
        ((h₄ hr hs₄).append (.idle .strSlice trivial)))))
  | function _ _ _ _ hb hret => exact follows_function hb hret
  | call callee args ha =>
    refine .of_operand id fun hp r => keeps_reference.bind fun s hs =>
      (keeps_resolveAll ha fun e he => hp.operand he).bind fun es h₁ => .pure fun hr hsided => ?_
    have hcall : Steady outer r.facts (.ofList [.load s.id, .call es.length]) :=
      .cons (.goes (storage_load hs)) (.goes (storage_call rfl))
    exact .of_value ((Serves.all (h₁ hr hsided)).append hcall)

end Expr

namespace Program

variable {source : List (Expr String)} {tree : List (Expr Symbol)} {p : Program}

/-- Compiled programs have facts at their positions. Nothing is known at the first. -/
theorem exists_facts (hplaced : ∀ e ∈ source, e.Placed) (hresolve : resolve source = .ok tree)
    (h : Program.ofTree tree = .ok p) :
    ∃ ann, Stored.Implies { inside := false, known := fun _ => False } (ann 0) ∧
      (storage (· ∈ outsideIds tree)).Annotates p.code ann := by
  have hsided : Sided (· ∈ outsideIds tree) (Expr.declarationsOfAll false tree) := fun d hd =>
    mem_outsideIds_iff hresolve hd
  unfold resolve at hresolve
  split at hresolve
  · next tree' r hr =>
    cases hresolve
    obtain ⟨-, hlead⟩ := Expr.advances_all (fun e _ => e.follows) hplaced {} {} tree r (.refl {}) hr
    have hnew : Resolver.Sorted (· ∈ outsideIds tree) {} :=
      ⟨fun _ h => (by cases h), fun _ h => (by cases h), fun _ h => (by cases h)⟩
    obtain ⟨ann, h0, hann⟩ := Discipline.Passes.annotates ((hlead hnew hsided).block 0) ⟨_, rfl⟩
      (code_of_ofTree h)
    refine ⟨ann, ⟨h0.inside, h0.pending, h0.made, fun id hid => ?_⟩, hann⟩
    obtain ⟨b, hb, -⟩ := h0.known id hid
    cases hb
  · cases hresolve

end Program

end ExactScript
