import Mathlib.Data.List.Forall2
import ExactScript.Proofs.Piece

/-!
# From labels to positions

The compiler emits code with labels; `Expr.piece` is the same code with positions. Emission of a tree
adds instructions and labels to an assembly, places every label it creates, leaves the labels of others
alone, and once labels are replaced by their positions the added instructions are the tree's piece. So a
finished program is the piece of its tree, at position zero.

## Contents
* `Linked`, instructions whose labels are replaced by a table of positions;
* `Grown`, what emission does to an assembly, with the labels that still have to be placed;
* `Emits`, the specification of an emitter by a piece, and its joints;
* `Program.ofTree_eq_ok`, the program of a tree, and `Program.ofTree_eq_error`.
-/

namespace ExactScript

/-! ## Tables of positions -/

/-- A position for some of the labels. -/
abbrev Table := Nat → Option Nat

/-- The position of a label, if it has one. -/
def Table.locate (t : Table) (l : Label) : Except Unit Nat :=
  match t l.index with
  | some p => .ok p
  | none => .error ()

/-- What has a position in `t` has the same one in `u`. -/
def Table.Refines (t u : Table) : Prop := ∀ l p, t l = some p → u l = some p

/-- The instructions with every label replaced by its position. -/
def Linked (t : Table) : List (Instr Label) → List (Instr Nat) → Prop :=
  List.Forall₂ fun i j => i.mapTarget t.locate = .ok j

theorem Table.locate_eq_iff {t : Table} {l : Label} {p : Nat} : t.locate l = .ok p ↔ t l.index = some p := by
  unfold Table.locate
  cases t l.index <;> simp

/-- Targets that are found remain found by a map that knows more. -/
theorem Instr.mapTarget_mono {τ υ ε ε' : Type} {f : τ → Except ε υ} {g : τ → Except ε' υ}
    (h : ∀ l p, f l = .ok p → g l = .ok p) {i : Instr τ} {j : Instr υ} (hi : i.mapTarget f = .ok j) :
    i.mapTarget g = .ok j := by
  have key : ∀ l (k : υ → Instr υ), (do return k (← f l) : Except ε _) = .ok j →
      (do return k (← g l) : Except ε' _) = .ok j := by
    intro l k hk
    cases hl : f l with
    | error => rw [hl] at hk; cases hk
    | ok p =>
      rw [hl] at hk
      rw [h l p hl]
      cases hk
      rfl
  cases i with
  | jump l => exact key l _ hi
  | jumpIf sense l => exact key l _ hi
  | makeFunction l n => exact key l (.makeFunction · n) hi
  | _ => cases hi; rfl

section

variable {t : Table} {l : Label} {p : Nat} (h : t l.index = some p)
include h

theorem Instr.mapTarget_jump : (Instr.jump l).mapTarget t.locate = .ok (.jump p) := by
  simp only [mapTarget, Table.locate_eq_iff.mpr h]
  rfl

theorem Instr.mapTarget_jumpIf (sense : Bool) :
    (Instr.jumpIf sense l).mapTarget t.locate = .ok (.jumpIf sense p) := by
  simp only [mapTarget, Table.locate_eq_iff.mpr h]
  rfl

theorem Instr.mapTarget_makeFunction (n : Nat) :
    (Instr.makeFunction l n).mapTarget t.locate = .ok (.makeFunction p n) := by
  simp only [mapTarget, Table.locate_eq_iff.mpr h]
  rfl

end

namespace Linked

variable {t : Table} {is js : List (Instr Label)} {c d : List (Instr Nat)}

theorem append (hc : Linked t is c) (hd : Linked t js d) : Linked t (is ++ js) (c ++ d) :=
  List.rel_append hc hd

theorem one {i : Instr Label} {j : Instr Nat} (h : i.mapTarget t.locate = .ok j) : Linked t [i] [j] :=
  .cons h .nil

end Linked

/-! ## Growth of an assembly -/

namespace Assembly

/-- The positions of the labels that are placed. -/
def table (a : Assembly) : Table := fun l => (a.labels[l]?).join

/-- From `a` to `b` the instructions `is` were added and labels were created. Those in `pending` are not
placed yet, the other new ones are, and the labels that `a` had are as they were. -/
structure Grown (a b : Assembly) (pending : List Nat) (is : List (Instr Label)) : Prop where
  code : b.code.toList = a.code.toList ++ is
  size : a.labels.size ≤ b.labels.size
  old : ∀ l < a.labels.size, b.labels[l]? = a.labels[l]?
  fresh : ∀ l ∈ pending, a.labels.size ≤ l ∧ b.labels[l]? = some none
  placed : ∀ l, a.labels.size ≤ l → l < b.labels.size → l ∉ pending →
    ∃ p ≤ b.position, b.labels[l]? = some (some p)

namespace Grown

variable {a b c : Assembly} {pending : List Nat} {is js : List (Instr Label)}

theorem refl (a : Assembly) : Grown a a [] [] where
  code := by simp
  size := Nat.le_refl _
  old _ _ := rfl
  fresh := by simp
  placed l h h' := absurd h' (by omega)

theorem position_eq (h : Grown a b pending is) : b.position = a.position + is.length := by
  have := congrArg List.length h.code
  simpa [position] using this

theorem refines (h : Grown a b pending is) : a.table.Refines b.table := by
  intro l p hl
  unfold table at hl ⊢
  have hlt : l < a.labels.size := by
    by_contra hge
    rw [Array.getElem?_eq_none (by omega)] at hl
    cases hl
  rw [h.old l hlt]
  exact hl

theorem trans (h : Grown a b pending is) (h' : Grown b c [] js) : Grown a c pending (is ++ js) where
  code := by rw [h'.code, h.code, List.append_assoc]
  size := Nat.le_trans h.size h'.size
  old l hl := by rw [h'.old l (by have := h.size; omega), h.old l hl]
  fresh l hl := by
    obtain ⟨hle, hn⟩ := h.fresh l hl
    have hlt : l < b.labels.size := (Array.getElem?_eq_some_iff.mp hn).1
    exact ⟨hle, by rw [h'.old l hlt, hn]⟩
  placed l hle hlt hnot := by
    by_cases hb : l < b.labels.size
    · obtain ⟨p, hp, hl⟩ := h.placed l hle hb hnot
      refine ⟨p, ?_, by rw [h'.old l hb, hl]⟩
      rw [h'.position_eq]
      omega
    · exact h'.placed l (by omega) hlt (by simp)

theorem emit (h : Grown a b pending is) (i : Instr Label) : Grown a (b.emit i) pending (is ++ [i]) where
  code := by simp [Assembly.emit, h.code]
  size := h.size
  old := h.old
  fresh := h.fresh
  placed l hle hlt hnot := by
    obtain ⟨p, hp, hl⟩ := h.placed l hle hlt hnot
    refine ⟨p, ?_, hl⟩
    simp only [position, Assembly.emit, Array.size_push] at hp ⊢
    omega

theorem newLabel (h : Grown a b pending is) :
    Grown a b.newLabel.2 (b.labels.size :: pending) is where
  code := h.code
  size := by simp only [Assembly.newLabel, Array.size_push]; exact Nat.le_succ_of_le h.size
  old l hl := by
    have hlt : l < b.labels.size := Nat.lt_of_lt_of_le hl h.size
    simp only [Assembly.newLabel, Array.getElem?_push, if_neg (Nat.ne_of_lt hlt)]
    exact h.old l hl
  fresh l hl := by
    rcases List.mem_cons.mp hl with rfl | hl
    · exact ⟨h.size, by simp [Assembly.newLabel]⟩
    · obtain ⟨hle, hn⟩ := h.fresh l hl
      have hlt : l < b.labels.size := (Array.getElem?_eq_some_iff.mp hn).1
      refine ⟨hle, ?_⟩
      simp only [Assembly.newLabel, Array.getElem?_push, if_neg (Nat.ne_of_lt hlt)]
      exact hn
  placed l hle hlt hnot := by
    obtain ⟨hne, hnot⟩ := not_or.mp (List.mem_cons.not.mp hnot)
    simp only [Assembly.newLabel, Array.size_push] at hlt
    obtain ⟨p, hp, hl⟩ := h.placed l hle (by omega) hnot
    refine ⟨p, hp, ?_⟩
    simp only [Assembly.newLabel, Array.getElem?_push, if_neg hne]
    exact hl

/-- **Placing a pending label.** It succeeds, the label has the current position from then on, and the
labels that were placed keep theirs. -/
theorem place (h : Grown a b pending is) {l : Label} (hl : l.index ∈ pending) :
    ∃ c, b.place l = .ok c ∧ Grown a c (pending.filter (· ≠ l.index)) is ∧
      b.table.Refines c.table ∧ c.table l.index = some b.position ∧ c.position = b.position := by
  obtain ⟨hle, hn⟩ := h.fresh _ hl
  have hlt : l.index < b.labels.size := (Array.getElem?_eq_some_iff.mp hn).1
  refine ⟨{ b with labels := b.labels.setIfInBounds l.index (some b.position) }, ?_, ?_, ?_, ?_, rfl⟩
  · simp only [Assembly.place, hn]
  · refine ⟨h.code, by simpa using h.size, fun k hk => ?_, fun k hk => ?_, fun k hk hk' hnot => ?_⟩
    · rw [Array.getElem?_setIfInBounds_ne (by omega)]
      exact h.old k hk
    · obtain ⟨hk, hne⟩ := List.mem_filter.mp hk
      have hne : l.index ≠ k := fun e => by simp [e] at hne
      rw [Array.getElem?_setIfInBounds_ne hne]
      exact h.fresh k hk
    · by_cases hkl : l.index = k
      · subst hkl
        exact ⟨b.position, Nat.le_refl _, by simp [hlt]⟩
      · have hnot : k ∉ pending := fun hk => hnot (List.mem_filter.mpr ⟨hk, by simpa using Ne.symm hkl⟩)
        rw [Array.getElem?_setIfInBounds_ne hkl]
        exact h.placed k hk (by simpa using hk') hnot
  · intro k p hp
    have hkl : l.index ≠ k := by
      rintro rfl
      simp [table, hn] at hp
    simpa [table, Array.getElem?_setIfInBounds_ne hkl] using hp
  · simp [table, hlt]

end Grown

/-- From `a` to `b` the piece was added, up to the replacement of labels by a table that extends the
one of `b` and meets the condition `given` on the labels that are pending. -/
structure Emitted (a b : Assembly) (pending : List Nat) (given : Table → Prop) (p : Piece) : Prop where
  position_eq : b.position = a.position + p.width
  linked : ∃ is, Grown a b pending is ∧
    ∀ t : Table, b.table.Refines t → given t → Linked t is (p.code a.position)

/-- The piece was added, with all its labels placed. -/
abbrev Complete (a b : Assembly) (p : Piece) : Prop := Emitted a b [] (fun _ => True) p

namespace Emitted

variable {a b c : Assembly} {pending : List Nat} {given H : Table → Prop} {p q : Piece}

theorem refl (a : Assembly) : Complete a a (.ofList []) :=
  ⟨rfl, [], Grown.refl a, fun _ _ _ => .nil⟩

theorem assuming (h : Emitted a b pending given p) (hgiven : ∀ t, H t → given t) :
    Emitted a b pending H p := by
  obtain ⟨hpos, is, hg, hl⟩ := h
  exact ⟨hpos, is, hg, fun t ht h' => hl t ht (hgiven t h')⟩

theorem append (h : Emitted a b pending given p) (h' : Complete b c q) :
    Emitted a c pending given (p ++ q) := by
  obtain ⟨hpos, is, hg, hl⟩ := h
  obtain ⟨hpos', js, hg', hl'⟩ := h'
  refine ⟨by rw [hpos', hpos, Piece.width_append, Nat.add_assoc], is ++ js, hg.trans hg',
    fun t ht hgiven => ?_⟩
  have hc := hl t (fun l x hx => ht l x (hg'.refines l x hx)) hgiven
  have hd := hl' t ht trivial
  rw [hpos] at hd
  exact hc.append hd

/-- An instruction, given what its label will be replaced by. -/
theorem instr (h : Emitted a b pending given p) {i : Instr Label} {f : Nat → Instr Nat}
    (hi : ∀ t, b.table.Refines t → given t → i.mapTarget t.locate = .ok (f b.position)) :
    Emitted a (b.emit i) pending given (p ++ .jumping f) := by
  obtain ⟨hpos, is, hg, hl⟩ := h
  refine ⟨?_, is ++ [i], hg.emit i, fun t ht hgiven => (hl t ht hgiven).append (.one ?_)⟩
  · simp only [position, Assembly.emit, Array.size_push] at hpos ⊢
    simp [hpos, Nat.add_assoc]
  · rw [← hpos]
    exact hi t ht hgiven

theorem newLabel (h : Emitted a b pending given p) :
    Emitted a b.newLabel.2 (b.labels.size :: pending) given p := by
  obtain ⟨hpos, is, hg, hl⟩ := h
  refine ⟨hpos, is, hg.newLabel, fun t ht => hl t fun l x hx => ht l x ?_⟩
  have hlt : l < b.labels.size := by
    by_contra hge
    simp [table, Array.getElem?_eq_none (Nat.le_of_not_lt hge)] at hx
  simpa [table, Assembly.newLabel, Array.getElem?_push, Nat.ne_of_lt hlt] using hx

/-- Placing a pending label discharges what was assumed of its position. -/
theorem place (h : Emitted a b pending given p) {l : Label} (hl : l.index ∈ pending)
    (hgiven : ∀ t : Table, t l.index = some (a.position + p.width) → b.table.Refines t → H t → given t) :
    ∃ c, b.place l = .ok c ∧ Emitted a c (pending.filter (· ≠ l.index)) H p ∧
      b.table.Refines c.table ∧ c.table l.index = some (a.position + p.width) := by
  obtain ⟨hpos, is, hg, hlink⟩ := h
  obtain ⟨c, hc, hg', href, ht, hpos'⟩ := hg.place hl
  rw [hpos] at ht
  refine ⟨c, hc, ⟨hpos'.trans hpos, is, hg', fun t hct hH => ?_⟩, href, ht⟩
  have hbt : b.table.Refines t := fun k x hx => hct k x (href k x hx)
  exact hlink t hbt (hgiven t (hct _ _ ht) hbt hH)

end Emitted

end Assembly

/-! ## Specifications of emitters -/

open Assembly

/-- If `ok` holds, the result is an assembly as `Φ` says; otherwise a construct was refused. -/
structure Builds (Φ : Assembly → Prop) (ok : Prop) (m : Except CompileError Assembly) : Prop where
  built : ok → ∃ b, m = .ok b ∧ Φ b
  refused : ¬ok → ∃ s, m = .error (.unsupportedConstruct s)

/-- The emitter adds the piece if `ok` holds, and refuses a construct otherwise. -/
def Emits (f : Emitter) (ok : Prop) (p : Piece) : Prop := ∀ a, Builds (Complete a · p) ok (f a)

/-- The change of an assembly adds these instructions. -/
def Appends (g : Assembly → Assembly) (js : List (Instr Nat)) : Prop := ∀ a, Complete a (g a) (.ofList js)

section Appends

variable {g k : Assembly → Assembly} {js ks : List (Instr Nat)}

theorem Appends.comp (hg : Appends g js) (hk : Appends k ks) : Appends (fun a => k (g a)) (js ++ ks) := by
  intro a
  have e := (hg a).append (hk (g a))
  rwa [Piece.ofList_append] at e

theorem Appends.refines (hg : Appends g js) (a : Assembly) : a.table.Refines (g a).table := by
  obtain ⟨-, is, h, -⟩ := hg a
  exact h.refines

/-- An instruction without a label. -/
theorem appends_emit {i : Instr Label} {j : Instr Nat} (hij : ∀ t : Table, i.mapTarget t.locate = .ok j) :
    Appends (·.emit i) [j] := fun a =>
  ⟨by simp [position, emit], [i], (Grown.refl a).emit i, fun t _ _ => .one (hij t)⟩

/-- The name of a symbol is no part of the code. -/
theorem Assembly.code_note (a : Assembly) (s : Symbol) : (a.note s).code = a.code := by
  unfold note
  split <;> rfl

theorem Assembly.labels_note (a : Assembly) (s : Symbol) : (a.note s).labels = a.labels := by
  unfold note
  split <;> rfl

theorem appends_of_note {g : Assembly → Assembly} (s : Symbol) (hg : Appends g js) :
    Appends (fun a => g (a.note s)) js := by
  intro a
  have hcode := a.code_note s
  have hlabels := a.labels_note s
  have hn : Grown a (a.note s) [] [] := by
    refine ⟨by simp [hcode], by simp [hlabels], by simp [hlabels], by simp, fun l h h' => ?_⟩
    rw [hlabels] at h'
    omega
  obtain ⟨hpos, is, h, hl⟩ := hg (a.note s)
  have hp : (a.note s).position = a.position := congrArg Array.size hcode
  rw [hp] at hpos hl
  exact ⟨hpos, is, hn.trans h, hl⟩

theorem appends_load (x : Symbol) : Appends (·.load x) [.load x.id] :=
  appends_of_note x (appends_emit fun _ => rfl)

theorem appends_store (x : Symbol) : Appends (·.store x) [.store x.id] :=
  appends_of_note x (appends_emit fun _ => rfl)

theorem appends_storeAll (xs : List Symbol) : Appends (·.storeAll xs) (xs.map fun x => .store x.id) := by
  induction xs with
  | nil => exact Emitted.refl
  | cons x xs ih => exact (appends_store x).comp ih

/-- The instructions that keep a declared or assigned value. -/
theorem appends_dup_store (x : Symbol) : Appends (fun a => (a.emit .dup).store x) [.dup, .store x.id] :=
  (appends_emit fun _ => rfl).comp (appends_store x)

theorem appends_pushCount (n : Nat) : Appends (·.pushCount n) [countCode n] := appends_emit fun _ => rfl

theorem appends_restoreInto (target : Expr Symbol) :
    Appends (·.restoreInto target) (restoreCode target) := by
  cases target with
  | var x => exact appends_dup_store x
  | _ => exact Emitted.refl

end Appends

section Builds

variable {Φ Ψ : Assembly → Prop} {P Q : Prop} {m : Except CompileError Assembly}

theorem Builds.pure {b : Assembly} (h : Φ b) : Builds Φ True (.ok b) :=
  ⟨fun _ => ⟨b, rfl, h⟩, fun h => absurd trivial h⟩

theorem Builds.bind {k : Assembly → Except CompileError Assembly} (h : Builds Φ P m)
    (hk : ∀ b, Φ b → Builds Ψ Q (k b)) : Builds Ψ (P ∧ Q) (m >>= k) := by
  by_cases hP : P
  · obtain ⟨b, rfl, e⟩ := h.built hP
    exact ⟨fun hPQ => (hk b e).built hPQ.2, fun hPQ => (hk b e).refused fun hQ => hPQ ⟨hP, hQ⟩⟩
  · obtain ⟨s, rfl⟩ := h.refused hP
    exact ⟨fun hPQ => absurd hPQ.1 hP, fun _ => ⟨s, rfl⟩⟩

/-- What was built is as it should be, and there was nothing to refuse. -/
theorem Builds.of_ok {b : Assembly} (h : Builds Φ P m) (hm : m = .ok b) : P ∧ Φ b := by
  have hP : P := by
    by_contra hnot
    obtain ⟨s, hs⟩ := h.refused hnot
    rw [hm] at hs
    cases hs
  obtain ⟨b', hb', hΦ⟩ := h.built hP
  rw [hm] at hb'
  cases hb'
  exact ⟨hP, hΦ⟩

theorem Builds.imp (h : Builds Φ P m) (hPQ : P ↔ Q) (hΦ : ∀ b, Φ b → Ψ b) : Builds Ψ Q m where
  built hQ := by
    obtain ⟨b, hb, hΦb⟩ := h.built (hPQ.mpr hQ)
    exact ⟨b, hb, hΦ b hΦb⟩
  refused hQ := h.refused fun hP => hQ (hPQ.mp hP)

variable {a b : Assembly} {pending : List Nat} {given H : Table → Prop} {p q : Piece}

/-- The next emitter of a row. -/
theorem Assembly.Emitted.run {f : Emitter} (e : Emitted a b pending given p) (hf : Emits f Q q) :
    Builds (fun c => Emitted a c pending given (p ++ q) ∧ b.table.Refines c.table) Q (f b) where
  built hQ := by
    obtain ⟨c, hc, e'⟩ := (hf b).built hQ
    obtain ⟨-, is, hg, -⟩ := id e'
    exact ⟨c, hc, e.append e', hg.refines⟩
  refused := (hf b).refused

/-- Placing never fails, and the position of the label is known from then on. -/
theorem Assembly.Emitted.placing (e : Emitted a b pending given p) {l : Label} (hl : l.index ∈ pending)
    (hgiven : ∀ t : Table, t l.index = some (a.position + p.width) → b.table.Refines t → H t → given t) :
    Builds (fun c => Emitted a c (pending.filter (· ≠ l.index)) H p ∧ b.table.Refines c.table ∧
      c.table l.index = some (a.position + p.width)) True (b.place l) := by
  obtain ⟨c, hc, e'⟩ := e.place hl hgiven
  rw [hc]
  exact .pure e'

/-- Placing the last pending label. -/
theorem Assembly.Emitted.closing (e : Emitted a b pending given p) {l : Label} (hl : l.index ∈ pending)
    (hlast : ∀ k ∈ pending, k = l.index)
    (hgiven : ∀ t : Table, t l.index = some (a.position + p.width) → b.table.Refines t → given t) :
    Builds (fun c => Complete a c p ∧ b.table.Refines c.table) True (b.place l) := by
  have hnil : pending.filter (· ≠ l.index) = [] := by
    rw [List.filter_eq_nil_iff]
    intro k hk
    simp [hlast k hk]
  refine (e.placing (H := fun _ => True) hl fun t ht hbt _ => hgiven t ht hbt).imp Iff.rfl fun c h => ?_
  rw [hnil] at h
  exact ⟨h.1, h.2.1⟩

end Builds

namespace Emits

variable {f g h : Emitter} {P Q R : Prop} {p q r : Piece}

theorem of_appends {k : Assembly → Assembly} {js : List (Instr Nat)} (hk : Appends k js) :
    Emits (fun a => .ok (k a)) True (.ofList js) :=
  fun a => .pure (hk a)

theorem congr (hf : Emits f P p) (hpq : p = q) (hPQ : P ↔ Q) : Emits f Q q := by
  subst hpq
  exact fun a => (hf a).imp hPQ fun _ h => h

/-- One emitter after the other. -/
theorem bind (hf : Emits f P p) (hg : Emits g Q q) : Emits (fun a => f a >>= g) (P ∧ Q) (p ++ q) :=
  fun a => (hf a).bind fun _ e => (e.run hg).imp Iff.rfl fun _ h => h.1

/-- Instructions after an emitter. -/
theorem after {k : Assembly → Assembly} {js : List (Instr Nat)} (hf : Emits f P p) (hk : Appends k js) :
    Emits (fun a => f a >>= fun b => .ok (k b)) P (p ++ .ofList js) :=
  (hf.bind (of_appends hk)).congr rfl (and_iff_left trivial)

/-- Instructions before an emitter. -/
theorem before {k : Assembly → Assembly} {js : List (Instr Nat)} (hk : Appends k js) (hf : Emits f P p) :
    Emits (fun a => f (k a)) P (.ofList js ++ p) :=
  ((of_appends hk).bind hf).congr rfl (and_iff_right trivial)

/-- The joint of `and` and `or`: the label lies behind the right operand. -/
theorem logical {decisive : Bool} (hf : Emits f P p) (hg : Emits g Q q) :
    Emits (fun a => do
      let (stop, a) := (← f a).newLabel
      let a := ((a.emit .dup).emit (.jumpIf decisive stop)).emit .pop
      (← g a).place stop) (P ∧ Q) (.logical decisive p q) := by
  intro a
  have hPQ : (P ∧ Q ∧ True) ↔ (P ∧ Q) := by rw [and_true]
  refine Builds.imp ((hf a).bind fun b eb => ?_) hPQ fun _ h => h
  let stop := b.newLabel.1
  have e₀ : Emitted a b [] (fun t => t stop.index = some (a.position + (p.width + 3 + q.width))) p :=
    eb.assuming fun _ _ => trivial
  have e₁ := e₀.newLabel.instr (i := .dup) (f := fun _ => .dup) fun _ _ _ => rfl
  have e₂ := e₁.instr (i := .jumpIf decisive stop) (f := fun i => .jumpIf decisive (i + 2 + q.width))
    fun t _ ht => by
      rw [Instr.mapTarget_jumpIf ht, e₁.position_eq]
      simp only [Piece.width_append, Piece.width_jumping, Nat.add_assoc]
      congr 2
      omega
  have e₃ := e₂.instr (i := .pop) (f := fun _ => .pop) fun _ _ _ => rfl
  refine (e₃.run hg).bind fun c ⟨ec, _⟩ => ?_
  refine (ec.closing (l := stop) (by simp [stop, newLabel]) (by simp [stop, newLabel])
    fun t ht _ => ht).imp Iff.rfl fun d ⟨ed, _⟩ => ?_
  rw [Piece.append_assoc, Piece.append_assoc, Piece.append_assoc] at ed
  exact ed

/-- The joint of conditionals: one label before the alternative, one behind it. -/
theorem cond (hf : Emits f P p) (hg : Emits g Q q) (hh : Emits h R r) :
    Emits (fun a => do
      let (other, a) := (← f a).newLabel
      let (stop, a) := a.newLabel
      let a ← g (a.emit (.jumpIf false other))
      (← h (← (a.emit (.jump stop)).place other)).place stop) (P ∧ Q ∧ R) (.cond p q r) := by
  intro a
  have hPQR : (P ∧ Q ∧ True ∧ R ∧ True) ↔ (P ∧ Q ∧ R) := by rw [and_true, true_and]
  refine Builds.imp ((hf a).bind fun b eb => ?_) hPQR fun _ h => h
  let other := b.newLabel.1
  let stop := b.newLabel.2.newLabel.1
  have e₀ : Emitted a b [] (fun t => t other.index = some (a.position + (p.width + 1 + q.width + 1)) ∧
      t stop.index = some (a.position + (p.width + 1 + q.width + 1 + r.width))) p :=
    eb.assuming fun _ _ => trivial
  have e₁ := e₀.newLabel.newLabel.instr (i := .jumpIf false other)
    (f := fun i => .jumpIf false (i + q.width + 2)) fun t _ ht => by
      rw [Instr.mapTarget_jumpIf ht.1, e₀.newLabel.newLabel.position_eq]
      congr 2
      omega
  refine (e₁.run hg).bind fun c ⟨ec, _⟩ => ?_
  have e₂ := ec.instr (i := .jump stop) (f := fun i => .jump (i + 1 + r.width)) fun t _ ht => by
      rw [Instr.mapTarget_jump ht.2, ec.position_eq]
      simp only [Piece.width_append, Piece.width_jumping]
      congr 2
      omega
  refine (e₂.placing (l := other) (H := fun t =>
      t stop.index = some (a.position + (p.width + 1 + q.width + 1 + r.width)))
    (by simp [other, newLabel]) fun t ht _ hstop => ⟨ht, hstop⟩).bind fun d ⟨ed, _⟩ => ?_
  refine (ed.run hh).bind fun k ⟨ek, _⟩ => ?_
  refine (ek.closing (l := stop) (by simp [stop, other, newLabel]) (by simp [stop, other, newLabel])
    fun t ht _ => ht).imp Iff.rfl fun n ⟨en, _⟩ => ?_
  rw [Piece.append_assoc, Piece.append_assoc, Piece.append_assoc] at en
  exact en

/-- The joint of loops: one label before the test, one behind the jump back. -/
theorem loop (hf : Emits f P p) (hg : Emits g Q q) :
    Emits (Assembly.emitLoop f g) (P ∧ Q) (.loop p q) := by
  intro a
  have hPQ : (True ∧ P ∧ Q ∧ True ∧ True) ↔ (P ∧ Q) := by rw [true_and, and_true, and_true]
  let start := a.newLabel.1
  let stop := a.newLabel.2.newLabel.1
  have e₀ : Emitted a a [] (fun t => t start.index = some a.position ∧
      t stop.index = some (a.position + (p.width + 1 + q.width + 1))) (.ofList []) :=
    (Emitted.refl a).assuming fun _ _ => trivial
  refine Builds.imp ((e₀.newLabel.newLabel.placing (l := start) (H := fun t =>
      t stop.index = some (a.position + (p.width + 1 + q.width + 1)))
    (by simp [start, newLabel]) fun t ht _ hstop => ⟨ht, hstop⟩).bind fun b ⟨eb, _, hstart⟩ => ?_)
    hPQ fun _ h => h
  refine (eb.run hf).bind fun c ⟨ec, hbc⟩ => ?_
  have e₁ := ec.instr (i := .jumpIf false stop) (f := fun i => .jumpIf false (i + q.width + 2))
    fun t _ ht => by
      rw [Instr.mapTarget_jumpIf ht, ec.position_eq]
      simp only [Piece.width_append, Piece.width_ofList, List.length_nil]
      congr 2
      omega
  refine (e₁.run hg).bind fun d ⟨ed, hcd⟩ => ?_
  have e₂ := ed.instr (i := .jump start) (f := fun i => .jump (i - (p.width + 1 + q.width)))
    fun t hdt _ => by
      have hs := hdt _ _ (hcd _ _ (hbc _ _ hstart))
      rw [Instr.mapTarget_jump hs, ed.position_eq]
      simp only [Piece.width_append, Piece.width_jumping, Piece.width_ofList, List.length_nil]
      congr 2
      omega
  refine (e₂.closing (l := stop) (by simp [stop, start, newLabel]) (by simp [stop, start, newLabel])
    fun t ht _ => by simpa [Piece.width_append, Nat.add_assoc] using ht).bind fun k ⟨ek, _⟩ => ?_
  have e₃ := ek.instr (i := .pushUnit) (f := fun _ => .pushUnit) fun _ _ _ => rfl
  rw [Piece.nil_append, Piece.append_assoc, Piece.append_assoc, Piece.append_assoc] at e₃
  exact .pure e₃

/-- The joint of functions: one label before the routine, one behind it. -/
theorem function {name : Symbol} {params : List Symbol} {source : List (Expr Symbol)} (hf : Emits f P p) (hg : Emits g Q q) :
    Emits (fun a => do
      let (skip, a) := a.newLabel
      let (entry, a) := a.newLabel
      let a ← (a.emit (.jump skip)).place entry
      let a := a.storeAll params.reverse
      let a := (a.emit (.makeFunction entry params.length)).store name
      let a ← g (← f a)
      let a ← (a.emit .ret).place skip
      return ((a.emit (.makeFunction entry params.length)).emit .dup).store name) (P ∧ Q)
      (.function name params source (p ++ q)) := by
  intro a
  have hPQ : (True ∧ P ∧ Q ∧ True ∧ True) ↔ (P ∧ Q) := by rw [true_and, and_true, and_true]
  let skip := a.newLabel.1
  let entry := a.newLabel.2.newLabel.1
  have e₀ : Emitted a a [] (fun t => t entry.index = some (a.position + 1) ∧
      t skip.index = some (a.position + 1 + (Piece.routine name params (p ++ q)).width)) (.ofList []) :=
    (Emitted.refl a).assuming fun _ _ => trivial
  have e₁ := e₀.newLabel.newLabel.instr (i := .jump skip)
    (f := fun i => .jump (i + 1 + (Piece.routine name params (p ++ q)).width)) fun t _ ht => by
      rw [Instr.mapTarget_jump ht.2, e₀.newLabel.newLabel.position_eq]
      rfl
  refine Builds.imp ((e₁.placing (l := entry) (H := fun t =>
      t skip.index = some (a.position + 1 + (Piece.routine name params (p ++ q)).width))
    (by simp [entry, newLabel]) fun t ht _ hskip => ⟨ht, hskip⟩).bind fun b ⟨eb, _, hentry⟩ => ?_)
    hPQ fun _ h => h
  have e₂ := eb.append (appends_storeAll params.reverse b)
  have hstored := (appends_storeAll params.reverse).refines b
  have e₃ := e₂.instr (i := .makeFunction entry params.length) (f := fun i => .makeFunction (i - params.length) params.length)
    fun t hct _ => by
      have hs := hct _ _ (hstored _ _ hentry)
      rw [Instr.mapTarget_makeFunction hs, e₂.position_eq]
      simp only [Piece.width_append, Piece.width_jumping, Piece.width_ofList, List.length_map,
        List.length_reverse, List.length_nil]
      congr 2
      omega
  have e₄ := e₃.append (appends_store name _)
  have hnamed := (appends_store name).refines ((b.storeAll params.reverse).emit (.makeFunction entry params.length))
  refine (e₄.run hf).bind fun c ⟨ec, hbc⟩ => ?_
  refine (ec.run hg).bind fun c' ⟨ec', hcc⟩ => ?_
  have e₅ := ec'.append (appends_emit (i := .ret) (j := .ret) (fun _ => rfl) c')
  refine (e₅.closing (l := skip) (by simp [skip, entry, newLabel]) (by simp [skip, entry, newLabel])
    fun t ht _ => ?_).bind fun d ⟨ed, hcd⟩ => ?_
  · rw [ht]
    simp only [Piece.routine, Piece.width_append, Piece.width_jumping, Piece.width_ofList, List.length_map,
      List.length_reverse, List.length_nil, List.length_cons]
    congr 1
    omega
  have e₆ := ed.instr (i := .makeFunction entry params.length)
    (f := fun i => .makeFunction (i - (Piece.routine name params (p ++ q)).width) params.length) fun t hdt _ => by
      have hs := hdt _ _ (hcd _ _ (hcc _ _ (hbc _ _ (hnamed _ _ (hstored _ _ hentry)))))
      rw [Instr.mapTarget_makeFunction hs, ed.position_eq]
      simp only [Piece.routine, Piece.width_append, Piece.width_jumping, Piece.width_ofList,
        List.length_map, List.length_reverse, List.length_nil, List.length_cons]
      congr 2
      omega
  have e₇ := e₆.append (appends_dup_store name _)
  simp only [Piece.routine, Piece.append_assoc, Piece.nil_append] at e₇
  have e₈ : Complete a (((d.emit (.makeFunction entry params.length)).emit .dup).store name)
      (.definition name params (p ++ q)) := by
    simp only [Piece.definition, Piece.routine, Piece.append_assoc]
    exact e₇
  exact .pure ⟨e₈.position_eq, e₈.linked⟩

end Emits

/-! ## The code of trees -/

namespace Expr

variable {β : Type}

/-- A variable, or an element of a place. -/
def IsPlace : Expr β → Prop
  | var _ => True
  | index target _ => target.IsPlace
  | _ => False

instance decidableIsPlace : DecidablePred (IsPlace : Expr β → Prop)
  | var _ => .isTrue trivial
  | index target _ => decidableIsPlace target
  | literal _ | declare _ _ | assign _ _ | letIn _ _ _ | unary _ _ | binary _ _ _ | logical _ _ _
  | block _ | cond _ _ _ | loop _ _ | count _ _ _ _ _ | print _ | list _ | fill _ _ | map _ | query _ _
  | update _ _ _ | put _ _ _ | concat _ | slice _ _ _ _ | function _ _ _ _ | call _ _ => .isFalse id

/-- What the node itself has to satisfy. -/
def SetsPlace : Expr β → Prop
  | put target _ _ => target.IsPlace
  | _ => True

instance : DecidablePred (SetsPlace : Expr β → Prop)
  | put target _ _ => decidableIsPlace target
  | literal _ | var _ | declare _ _ | assign _ _ | letIn _ _ _ | unary _ _ | binary _ _ _
  | logical _ _ _ | block _ | cond _ _ _ | loop _ _ | count _ _ _ _ _ | print _ | list _ | fill _ _
  | map _ | query _ _ | update _ _ _ | index _ _ | concat _ | slice _ _ _ _ | function _ _ _ _
  | call _ _ => .isTrue trivial

/-- Every element that is set belongs to a place. -/
def Assignable (e : Expr β) : Prop := e.Everywhere SetsPlace

instance (e : Expr β) : Decidable e.Assignable := inferInstanceAs (Decidable (e.Everywhere SetsPlace))

theorem assignable_iff {e : Expr β} : e.Assignable ↔ e.SetsPlace ∧ ∀ c ∈ e.children, c.Assignable :=
  everywhere_iff

/-- What is shown of every tree: its own code, and its code as a target whose element is set. -/
structure Compiles (e : Expr Symbol) : Prop where
  value : Emits e.emit e.Assignable e.piece
  target : ∀ {f g K V k v}, Emits f K k → Emits g V v →
    Emits (e.emitPut f g) ((e.IsPlace ∧ e.Assignable) ∧ K ∧ V) (e.pieceOfPut k v)

section Lists

variable {es : List (Expr Symbol)}

theorem emits_all (h : ∀ e ∈ es, e.Compiles) :
    Emits (emitAll es) (∀ e ∈ es, e.Assignable) (pieceOfAll es) := by
  induction es with
  | nil => exact (Emits.of_appends Emitted.refl).congr rfl (by simp)
  | cons e es ih =>
    obtain ⟨he, hes⟩ := List.forall_mem_cons.mp h
    exact (he.value.bind (ih hes)).congr rfl List.forall_mem_cons.symm

theorem emits_reversed (h : ∀ e ∈ es, e.Compiles) :
    Emits (emitReversed es) (∀ e ∈ es, e.Assignable) (pieceOfReversed es) := by
  induction es with
  | nil => exact (Emits.of_appends Emitted.refl).congr rfl (by simp)
  | cons e es ih =>
    obtain ⟨he, hes⟩ := List.forall_mem_cons.mp h
    exact ((ih hes).bind he.value).congr rfl (and_comm.trans List.forall_mem_cons.symm)

theorem emits_statements (h : ∀ e ∈ es, e.Compiles) :
    Emits (emitStatements es) (∀ e ∈ es, e.Assignable) (pieceOfStatements es) := by
  induction es with
  | nil => exact (Emits.of_appends Emitted.refl).congr rfl (by simp)
  | cons e es ih =>
    obtain ⟨he, hes⟩ := List.forall_mem_cons.mp h
    exact (he.value.bind (.before (appends_emit fun _ => rfl) (ih hes))).congr rfl
      List.forall_mem_cons.symm

theorem emits_block (h : ∀ e ∈ es, e.Compiles) :
    Emits (emitBlock es) (∀ e ∈ es, e.Assignable) (pieceOfBlock es) := by
  induction es with
  | nil => exact (Emits.of_appends (appends_emit fun _ => rfl)).congr rfl (by simp)
  | cons e es ih =>
    obtain ⟨he, hes⟩ := List.forall_mem_cons.mp h
    cases es with
    | nil => exact he.value.congr rfl (by simp)
    | cons f es =>
      exact (he.value.bind (.before (appends_emit fun _ => rfl) (ih hes))).congr rfl
        List.forall_mem_cons.symm

theorem emits_entries {es : List (Expr Symbol × Expr Symbol)}
    (h : ∀ kv ∈ es, kv.1.Compiles ∧ kv.2.Compiles) :
    Emits (emitEntries es) (∀ kv ∈ es, kv.1.Assignable ∧ kv.2.Assignable) (pieceOfEntries es) := by
  induction es with
  | nil => exact (Emits.of_appends Emitted.refl).congr rfl (by simp)
  | cons kv es ih =>
    obtain ⟨⟨hk, hv⟩, hes⟩ := List.forall_mem_cons.mp h
    refine (hk.value.bind (hv.value.bind (ih hes))).congr rfl ?_
    rw [List.forall_mem_cons, and_assoc]

theorem emits_alternative {no : Option (List (Expr Symbol))} (h : ∀ body ∈ no, ∀ e ∈ body, e.Compiles) :
    Emits (emitAlternative no) (∀ body ∈ no, ∀ e ∈ body, e.Assignable) (pieceOfAlternative no) := by
  cases no with
  | none => exact (Emits.of_appends (appends_emit fun _ => rfl)).congr rfl (by simp)
  | some body => exact (emits_block (h body rfl)).congr rfl (by simp)

theorem emits_step {step : Option (Expr Symbol)} (h : ∀ e ∈ step, e.Compiles) :
    Emits (emitStep step) (∀ e ∈ step, e.Assignable) (pieceOfStep step) := by
  cases step with
  | none => exact (Emits.of_appends (appends_pushCount 1)).congr rfl (by simp)
  | some e => exact (h e rfl).value.congr rfl (by simp)

end Lists

/-- A tree that is no place cannot be a target, so only its own code matters. -/
theorem Compiles.of_value {e : Expr Symbol} {P : Prop} (he : ¬e.IsPlace) (hv : Emits e.emit P e.piece)
    (hP : P ↔ e.SetsPlace ∧ ∀ c ∈ e.children, c.Assignable)
    (hput : ∀ f g a, e.emitPut f g a =
      .error (.unsupportedConstruct ("assigning to an element of a " ++ e.kind))) : e.Compiles where
  value := hv.congr rfl (hP.trans assignable_iff.symm)
  target {f g} _ _ _ _ _ _ a := ⟨fun h => absurd h.1.1 he, fun _ => ⟨_, hput f g a⟩⟩

/-- **Compilation of a tree.** Its code is its piece, unless an element is set of what is no place. -/
theorem compiles (e : Expr Symbol) : e.Compiles := by
  induction e using Expr.induct with
  | literal l =>
    refine .of_value id (.of_appends (appends_emit fun _ => rfl)) ?_ fun _ _ _ => rfl
    simp [SetsPlace, children]
  | var x =>
    refine ⟨(Emits.of_appends (appends_load x)).congr rfl ?_, fun hf hg => ?_⟩
    · rw [assignable_iff]
      simp [SetsPlace, children]
    · have hput : Appends (fun a => (a.emit .put).restoreInto (.var x)) [.put, .dup, .store x.id] :=
        (appends_emit fun _ => rfl).comp (appends_restoreInto (.var x))
      refine (Emits.before (appends_load x) (hf.bind (hg.after hput))).congr rfl ?_
      rw [assignable_iff]
      simp [IsPlace, SetsPlace, children]
  | declare x value hv =>
    refine .of_value id (hv.value.after (appends_dup_store x)) ?_ fun _ _ _ => rfl
    simp [SetsPlace, children]
  | assign x value hv =>
    refine .of_value id (hv.value.after (appends_dup_store x)) ?_ fun _ _ _ => rfl
    simp [SetsPlace, children]
  | letIn x value body hv hb =>
    refine .of_value id (hv.value.bind (hb.value.before (appends_store x))) ?_ fun _ _ _ => rfl
    simp [SetsPlace, children]
  | unary op operand ho =>
    refine .of_value id (ho.value.after (appends_emit fun _ => rfl)) ?_ fun _ _ _ => rfl
    simp [SetsPlace, children]
  | binary op left right hl hr =>
    refine .of_value id (hl.value.bind (hr.value.after (appends_emit fun _ => rfl))) ?_ fun _ _ _ => rfl
    simp [SetsPlace, children]
  | logical op left right hl hr =>
    refine .of_value id (hl.value.logical hr.value) ?_ fun _ _ _ => rfl
    simp [SetsPlace, children]
  | block body hb =>
    refine .of_value id (emits_block hb) ?_ fun _ _ _ => rfl
    simp [SetsPlace, children]
  | cond test yes no ht hy hn =>
    refine .of_value id (ht.value.cond (emits_block hy) (emits_alternative hn)) ?_ fun _ _ _ => rfl
    cases no <;> simp [SetsPlace, children, or_imp, forall_and]
  | loop test body ht hb =>
    have hbody := (emits_block hb).after (appends_emit (i := .pop) fun _ => rfl)
    refine .of_value id (ht.value.loop hbody) ?_ fun _ _ _ => rfl
    simp [SetsPlace, children]
  | count x init test advance body hi ht ha hb =>
    have hadvance := ha.value.after (appends_emit (i := .pop) fun _ => rfl)
    have hbody := (emits_block hb).bind (hadvance.before (appends_emit (i := .pop) fun _ => rfl))
    refine .of_value id (hi.value.bind ((ht.value.loop hbody).before (appends_store x))) ?_
      fun _ _ _ => rfl
    simp only [SetsPlace, children, List.forall_mem_cons]
    tauto
  | print args ha =>
    refine .of_value id ((emits_reversed ha).after (appends_emit fun _ => rfl)) ?_ fun _ _ _ => rfl
    simp [SetsPlace, children]
  | list elems he =>
    have hbuild : Appends (fun a => (a.pushCount elems.length).emit .buildList)
        [countCode elems.length, .buildList] :=
      (appends_pushCount _).comp (appends_emit fun _ => rfl)
    refine .of_value id ((emits_all he).after hbuild) ?_ fun _ _ _ => rfl
    simp [SetsPlace, children]
  | fill value size hv hs =>
    refine .of_value id (hv.value.bind (hs.value.after (appends_emit fun _ => rfl))) ?_ fun _ _ _ => rfl
    simp [SetsPlace, children]
  | map entries he =>
    have hbuild : Appends (fun a => (a.pushCount entries.length).emit .buildMap)
        [countCode entries.length, .buildMap] :=
      (appends_pushCount _).comp (appends_emit fun _ => rfl)
    refine .of_value id ((emits_entries he).after hbuild) ?_ fun _ _ _ => rfl
    simp only [SetsPlace, children, List.forall_mem_flatMap, List.forall_mem_cons]
    simp
  | query op target ht =>
    refine .of_value id (ht.value.after (appends_emit fun _ => rfl)) ?_ fun _ _ _ => rfl
    simp [SetsPlace, children]
  | update op target arg ht ha =>
    have hup : Appends (fun a => (a.emit (.update op)).restoreInto target)
        (.update op :: restoreCode target) :=
      (appends_emit fun _ => rfl).comp (appends_restoreInto target)
    refine .of_value id (ht.value.bind (ha.value.after hup)) ?_ fun _ _ _ => rfl
    simp [SetsPlace, children]
  | index target key ht hk =>
    refine ⟨(ht.value.bind (hk.value.after (appends_emit fun _ => rfl))).congr rfl ?_, fun hf hg => ?_⟩
    · rw [assignable_iff (e := target.index key)]
      simp [SetsPlace, children]
    · -- the changed element is in turn what an element of the parent is set to
      have hput := (hf.bind (hg.after (appends_emit (i := .put) fun _ => rfl))).before
        (appends_emit (i := .find) fun _ => rfl)
      refine (ht.target hk.value (ht.value.bind (hk.value.bind hput))).congr rfl ?_
      rw [assignable_iff (e := target.index key)]
      simp only [IsPlace, SetsPlace, children, List.forall_mem_cons]
      simp
      tauto
  | put target key value ht hk hv =>
    refine .of_value id (ht.target hk.value hv.value) ?_ fun _ _ _ => rfl
    simp [SetsPlace, children, and_assoc]
  | concat parts hp =>
    refine .of_value id ((emits_reversed hp).after (appends_emit fun _ => rfl)) ?_ fun _ _ _ => rfl
    simp [SetsPlace, children]
  | slice target start stop step ht hs hp hst =>
    have hstep := (emits_step hst).after (appends_emit (i := .strSlice) fun _ => rfl)
    refine .of_value id (ht.value.bind (hs.value.bind (hp.value.bind hstep))) ?_ fun _ _ _ => rfl
    simp [SetsPlace, children]
  | function name params body ret hb hr =>
    refine .of_value id ((emits_statements hb).function hr.value) ?_ fun _ _ _ => rfl
    simp [SetsPlace, children, or_imp, forall_and]
  | call callee args ha =>
    have hcall : Appends (fun a => (a.load callee).emit (.call args.length))
        [.load callee.id, .call args.length] :=
      (appends_load callee).comp (appends_emit fun _ => rfl)
    refine .of_value id ((emits_all ha).after hcall) ?_ fun _ _ _ => rfl
    simp [SetsPlace, children]

end Expr

/-! ## Finished programs -/

namespace Assembly

variable {a : Assembly} {length : Nat}

theorem resolveAll_of_linked (hlt : ∀ l p, a.table l = some p → p < length)
    {is : List (Instr Label)} {c : List (Instr Nat)} (h : Linked a.table is c) :
    a.resolveAll length is = .ok c := by
  have hfound : ∀ l p, a.table.locate l = .ok p → a.resolve length l = .ok p := by
    intro l p hl
    have hp := Table.locate_eq_iff.mp hl
    have hq : a.labels[l.index]? = some (some p) := by
      unfold table at hp
      cases hx : a.labels[l.index]? with
      | none => rw [hx] at hp; cases hp
      | some x => rw [hx] at hp; rw [← hp]; rfl
    simp [resolve, hq, hlt _ _ hp]
  induction h with
  | nil => rfl
  | cons hi _ ih =>
    rw [resolveAll, Instr.mapTarget_mono hfound hi, ih]
    rfl

/-- Instructions are resolved one by one. -/
theorem getElem?_of_resolveAll {is : List (Instr Label)} {js : List (Instr Nat)}
    (h : a.resolveAll length is = .ok js) : js.length = is.length ∧
      ∀ (k : Nat) (j : Instr Nat), js[k]? = some j →
        ∃ i : Instr Label, is[k]? = some i ∧ i.mapTarget (a.resolve length) = .ok j := by
  induction is generalizing js with
  | nil =>
    cases h
    exact ⟨rfl, fun k j hk => by cases hk⟩
  | cons i is ih =>
    rw [resolveAll] at h
    cases hi : i.mapTarget (a.resolve length) with
    | error e => rw [hi] at h; cases h
    | ok j =>
      cases his : a.resolveAll length is with
      | error e => rw [hi, his] at h; cases h
      | ok js =>
        rw [hi, his] at h
        cases h
        obtain ⟨hlength, hrest⟩ := ih his
        refine ⟨congrArg (· + 1) hlength, fun k j' hk => ?_⟩
        cases k with
        | zero =>
          cases hk
          exact ⟨i, rfl, hi⟩
        | succ k => exact hrest k j' hk

/-- Finished code is the code with a `HALT` behind it, resolved. -/
theorem resolveAll_of_finish {p : Program} (h : a.finish = .ok p) :
    a.resolveAll (a.code.size + 1) (a.code.toList ++ [.halt]) = .ok p.code.toList ∧
      p.names = a.names := by
  have hcode : (a.emit .halt).resolveAll = a.resolveAll := by
    funext length is
    induction is with
    | nil => rfl
    | cons i is ih =>
      rw [resolveAll, resolveAll, ih]
      rfl
  simp only [finish, hcode] at h
  simp only [emit, Array.size_push, Array.toList_push] at h
  cases hc : a.resolveAll (a.code.size + 1) (a.code.toList ++ [.halt]) with
  | error e => rw [hc] at h; cases h
  | ok js =>
    rw [hc] at h
    cases h
    exact ⟨by simp, rfl⟩

/-- Every placed label of code made from nothing lies in it, or right behind it. -/
theorem Grown.position_of_empty {b : Assembly} {is : List (Instr Label)} (h : Grown .empty b [] is)
    {l p : Nat} (hl : b.table l = some p) : p ≤ b.position := by
  have hlt : l < b.labels.size := by
    by_contra hge
    simp [table, Array.getElem?_eq_none (Nat.le_of_not_lt hge)] at hl
  obtain ⟨q, hq, hb⟩ := h.placed l (Nat.zero_le l) hlt (by simp)
  simp only [table, hb, Option.join_some, Option.some.injEq] at hl
  omega

end Assembly

namespace Program

variable {tree : List (Expr Symbol)} {p : Program}

/-- **The program of a tree**, up to the names of its symbols. -/
theorem ofTree_eq_ok (h : ∀ e ∈ tree, e.Assignable) :
    ∃ b, Expr.emitBlock tree .empty = .ok b ∧ Program.ofTree tree =
      .ok { code := ((Expr.pieceOfProgram tree).code 0).toArray, names := b.names } := by
  obtain ⟨b, hb, eb⟩ := (Expr.emits_block (fun e _ => e.compiles) .empty).built h
  refine ⟨b, hb, ?_⟩
  have hlt : ∀ l p, (b.emit .halt).table l = some p → p < (b.emit .halt).code.size := by
    intro l p hl
    obtain ⟨-, is, hg, -⟩ := eb
    have := hg.position_of_empty (b := b) hl
    simp only [Assembly.emit, Array.size_push]
    exact Nat.lt_succ_of_le this
  obtain ⟨-, is, hg, hl⟩ := eb.append (appends_emit (i := .halt) (j := .halt) (fun _ => rfl) b)
  have hcode : (b.emit .halt).code.toList = is := by rw [hg.code]; rfl
  have hlink := resolveAll_of_linked hlt (hl _ (fun _ _ h => h) trivial)
  rw [Program.ofTree, hb]
  change b.finish = _
  simp only [Assembly.finish, hcode, hlink]
  rfl

/-- Everything else is refused. -/
theorem ofTree_eq_error (h : ¬∀ e ∈ tree, e.Assignable) :
    ∃ s, Program.ofTree tree = .error (.unsupportedConstruct s) := by
  obtain ⟨s, hs⟩ := (Expr.emits_block (fun e _ => e.compiles) .empty).refused h
  exact ⟨s, by rw [Program.ofTree, hs]; rfl⟩

theorem assignable_of_ofTree (h : Program.ofTree tree = .ok p) : ∀ e ∈ tree, e.Assignable := by
  by_contra hnot
  obtain ⟨s, hs⟩ := ofTree_eq_error hnot
  rw [hs] at h
  cases h

theorem code_of_ofTree (h : Program.ofTree tree = .ok p) :
    p.code.toList = (Expr.pieceOfProgram tree).code 0 := by
  obtain ⟨b, -, hp⟩ := ofTree_eq_ok (assignable_of_ofTree h)
  rw [hp] at h
  cases h
  rfl

/-- The code of a program is where it begins. -/
theorem codeAt_of_ofTree (h : Program.ofTree tree = .ok p) :
    CodeAt p.code 0 ((Expr.pieceOfProgram tree).code 0) := codeAt_of_drop (code_of_ofTree h)

end Program

end ExactScript
