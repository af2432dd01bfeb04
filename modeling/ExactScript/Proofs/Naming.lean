import ExactScript.Proofs.Linking

/-!
# The names of a program

A program keeps the name of every symbol that it loads or stores, and of no other. The names are noted on the
way, each before the instruction that needs it, so the names and the instructions of an assembly mention the same
ids at any time, and a name is that of a symbol of the tree. When an id has one name in the whole tree, that is
the name under which messages show it.

## Contents
* `Instr.symbol?`, the symbol of an instruction, and `Expr.Mentions`, a property of the symbols of a tree;
* `Assembly.Named`, kept by every step of emission, and `Expr.keeping`, by whole trees;
* `Program.named`, the names of a program, and `Program.nameOf?_of_load`, the name that goes with a `LOAD`.
-/

namespace ExactScript

variable {title : Nat → String} {K : Symbol → Prop}

/-! ## Symbols of instructions -/

namespace Instr

/-- The symbol that the instruction loads or stores. -/
def symbol? {τ : Type} : Instr τ → Option Nat
  | load id => some id
  | store id => some id
  | _ => none

/-- Replacing labels changes no symbol. -/
theorem symbol?_of_mapTarget {τ υ ε : Type} {f : τ → Except ε υ} {i : Instr τ} {j : Instr υ}
    (h : i.mapTarget f = .ok j) : j.symbol? = i.symbol? := by
  have htarget : ∀ l (k : υ → Instr υ), (∀ u, (k u).symbol? = none) →
      (do return k (← f l) : Except ε _) = .ok j → j.symbol? = none := by
    intro l k hk hl
    cases hf : f l with
    | error => rw [hf] at hl; cases hl
    | ok u =>
      rw [hf] at hl
      obtain rfl : k u = j := Except.ok.inj hl
      exact hk u
  cases i with
  | jump l => exact htarget l .jump (fun _ => rfl) h
  | jumpIf sense l => exact htarget l (.jumpIf sense) (fun _ => rfl) h
  | makeFunction l n => exact htarget l (.makeFunction · n) (fun _ => rfl) h
  | _ => cases h; rfl

end Instr

/-! ## Symbols of trees -/

namespace Expr

/-- Every symbol of the tree satisfies `K`. -/
def Mentions (K : Symbol → Prop) (e : Expr Symbol) : Prop := e.Everywhere fun t => ∀ x ∈ t.ownBindings, K x

theorem mentions_iff {e : Expr Symbol} :
    e.Mentions K ↔ (∀ x ∈ e.ownBindings, K x) ∧ ∀ c ∈ e.children, c.Mentions K :=
  everywhere_iff

theorem mentions_of_bindings {tree : List (Expr Symbol)} (h : ∀ x ∈ tree.flatMap bindings, K x) :
    ∀ e ∈ tree, e.Mentions K := fun e he t ht x hx =>
  h x (List.mem_flatMap.mpr ⟨e, he, List.mem_flatMap.mpr ⟨t, ht, hx⟩⟩)

/-- The symbols at the node itself have the names that `title` gives to their ids. -/
def TitledNode (title : Nat → String) (e : Expr Symbol) : Prop :=
  ∀ x ∈ e.ownBindings, x.name = title x.id

/-- Every id of the tree has the name that `title` gives to it. -/
def Titled (title : Nat → String) (e : Expr Symbol) : Prop := e.Everywhere (TitledNode title)

theorem titled_iff {e : Expr Symbol} :
    e.Titled title ↔ e.TitledNode title ∧ ∀ c ∈ e.children, c.Titled title :=
  everywhere_iff

/-- Names that agree are given by one function. -/
theorem exists_titled {tree : List (Expr Symbol)} (h : NamesAgree tree) :
    ∃ title, ∀ e ∈ tree, e.Titled title := by
  let xs := tree.flatMap bindings
  refine ⟨fun id => ((xs.find? fun x => x.id == id).map Symbol.name).getD "", fun e he t ht x hx => ?_⟩
  have hmem : x ∈ xs := List.mem_flatMap.mpr ⟨e, he, List.mem_flatMap.mpr ⟨t, ht, hx⟩⟩
  cases hfind : xs.find? fun y => y.id == x.id with
  | none => exact absurd (beq_self_eq_true x.id) (List.find?_eq_none.mp hfind x hmem)
  | some y =>
    have hid : y.id = x.id := by simpa using List.find?_some hfind
    simpa [hfind] using h x hmem y (List.mem_of_find?_eq_some hfind) hid.symm

end Expr

/-! ## Names of an assembly -/

namespace Assembly

section Note

variable {a : Assembly} {x : Symbol} {id : Nat} {n : String}

/-- Noting a symbol adds no other name. -/
theorem name_of_note (h : (a.note x).names.get? id = some n) : a.names.get? id = some n ∨ x = ⟨n, id⟩ := by
  unfold note at h
  split at h
  · exact .inl h
  · by_cases hid : id = x.id
    · subst hid
      obtain rfl : x.name = n := Option.some.inj ((IdMap.get?_insert_self ..).symm.trans h)
      exact .inr rfl
    · exact .inl ((IdMap.get?_insert_of_ne _ hid _).symm.trans h)

theorem isSome_note : ((a.note x).names.get? id).isSome ↔ (a.names.get? id).isSome ∨ x.id = id := by
  unfold note
  split
  · next hknown =>
    refine ⟨.inl, ?_⟩
    rintro (hid | rfl)
    · exact hid
    · exact hknown
  · show IdMap.contains _ id = true ↔ _
    rw [IdMap.contains_insert, or_comm, eq_comm (a := id)]
    rfl

end Note

/-- The names are those of symbols that satisfy `K`, and the ids that have one are those in the code. -/
structure Named (K : Symbol → Prop) (a : Assembly) : Prop where
  sound : ∀ id n, a.names.get? id = some n → K ⟨n, id⟩
  recorded : ∀ id, (a.names.get? id).isSome ↔ ∃ i ∈ a.code, i.symbol? = some id

namespace Named

variable {a : Assembly}

theorem empty : Named K .empty where
  sound _ _ h := by cases h
  recorded id := by simp [Assembly.empty]

theorem emit (h : Named K a) {i : Instr Label} (hi : i.symbol? = none) : Named K (a.emit i) where
  sound := h.sound
  recorded id := by
    rw [Assembly.emit, h.recorded id]
    simp [hi]

theorem newLabel (h : Named K a) : Named K a.newLabel.2 := ⟨h.sound, h.recorded⟩

/-- A symbol is noted right before the instruction that mentions it. -/
theorem mention (h : Named K a) {x : Symbol} (hx : K x) {i : Instr Label} (hi : i.symbol? = some x.id) :
    Named K ((a.note x).emit i) where
  sound id n hn := (name_of_note hn).elim (h.sound id n) fun heq => heq ▸ hx
  recorded id := by
    rw [Assembly.emit, isSome_note, h.recorded id, code_note]
    simp [or_and_right, exists_or, hi]

theorem load (h : Named K a) {x : Symbol} (hx : K x) : Named K (a.load x) := h.mention hx rfl

theorem store (h : Named K a) {x : Symbol} (hx : K x) : Named K (a.store x) := h.mention hx rfl

theorem storeAll (h : Named K a) {xs : List Symbol} (hxs : ∀ x ∈ xs, K x) : Named K (a.storeAll xs) := by
  induction xs generalizing a with
  | nil => exact h
  | cons x xs ih =>
    obtain ⟨hx, hxs⟩ := List.forall_mem_cons.mp hxs
    exact ih (h.store hx) hxs

theorem restoreInto (h : Named K a) {e : Expr Symbol} (he : ∀ x ∈ e.ownBindings, K x) :
    Named K (a.restoreInto e) := by
  cases e with
  | var x => exact (h.emit rfl).store (he x (by simp [Expr.ownBindings]))
  | _ => exact h

end Named

/-- What comes out is named, if anything comes out. -/
def Keeps (K : Symbol → Prop) (m : Except CompileError Assembly) : Prop :=
  ∀ b, m = .ok b → Named K b

theorem Keeps.pure {a : Assembly} (h : Named K a) : Keeps K (.ok a) := by
  rintro b ⟨⟩
  exact h

theorem Keeps.bind {m : Except CompileError Assembly} {k : Assembly → Except CompileError Assembly}
    (h : Keeps K m) (hk : ∀ a, Named K a → Keeps K (k a)) : Keeps K (m >>= k) := by
  intro b hb
  cases m with
  | error => cases hb
  | ok a => exact hk a (h a rfl) b hb

theorem Named.place {a : Assembly} (h : Named K a) (l : Label) : Keeps K (a.place l) := by
  intro b hb
  unfold Assembly.place at hb
  split at hb <;> cases hb
  exact ⟨h.sound, h.recorded⟩

/-- Emission from a named assembly keeps the names. -/
def Keeper (K : Symbol → Prop) (f : Emitter) : Prop := ∀ a, Named K a → Keeps K (f a)

theorem Keeper.loop {f g : Emitter} (hf : Keeper K f) (hg : Keeper K g) :
    Keeper K (Assembly.emitLoop f g) := fun _ ha =>
  (ha.newLabel.newLabel.place _).bind fun b hb => (hf b hb).bind fun _ hc =>
    (hg _ (hc.emit rfl)).bind fun _ hd =>
      ((hd.emit rfl).place _).bind fun _ he => .pure (he.emit rfl)

end Assembly

open Assembly

namespace Expr

/-- Names survive the code of the tree, and its code as a target. -/
structure Keeping (K : Symbol → Prop) (e : Expr Symbol) : Prop where
  value : e.Mentions K → Keeper K e.emit
  target : ∀ {f g}, e.Mentions K → Keeper K f → Keeper K g → Keeper K (e.emitPut f g)

section Lists

variable {es : List (Expr Symbol)}

theorem keeps_all (h : ∀ e ∈ es, e.Keeping K) (ht : ∀ e ∈ es, e.Mentions K) :
    Keeper K (emitAll es) := by
  induction es with
  | nil => exact fun _ ha => .pure ha
  | cons e es ih =>
    obtain ⟨he, hes⟩ := List.forall_mem_cons.mp h
    obtain ⟨hte, htes⟩ := List.forall_mem_cons.mp ht
    exact fun a ha => (he.value hte a ha).bind (ih hes htes)

theorem keeps_reversed (h : ∀ e ∈ es, e.Keeping K) (ht : ∀ e ∈ es, e.Mentions K) :
    Keeper K (emitReversed es) := by
  induction es with
  | nil => exact fun _ ha => .pure ha
  | cons e es ih =>
    obtain ⟨he, hes⟩ := List.forall_mem_cons.mp h
    obtain ⟨hte, htes⟩ := List.forall_mem_cons.mp ht
    exact fun a ha => (ih hes htes a ha).bind (he.value hte)

theorem keeps_statements (h : ∀ e ∈ es, e.Keeping K) (ht : ∀ e ∈ es, e.Mentions K) :
    Keeper K (emitStatements es) := by
  induction es with
  | nil => exact fun _ ha => .pure ha
  | cons e es ih =>
    obtain ⟨he, hes⟩ := List.forall_mem_cons.mp h
    obtain ⟨hte, htes⟩ := List.forall_mem_cons.mp ht
    exact fun a ha => (he.value hte a ha).bind fun _ hb => ih hes htes _ (hb.emit rfl)

theorem keeps_block (h : ∀ e ∈ es, e.Keeping K) (ht : ∀ e ∈ es, e.Mentions K) :
    Keeper K (emitBlock es) := by
  induction es with
  | nil => exact fun _ ha => .pure (ha.emit rfl)
  | cons e es ih =>
    obtain ⟨he, hes⟩ := List.forall_mem_cons.mp h
    obtain ⟨hte, htes⟩ := List.forall_mem_cons.mp ht
    cases es with
    | nil => exact he.value hte
    | cons f es =>
      exact fun a ha => (he.value hte a ha).bind fun _ hb => ih hes htes _ (hb.emit rfl)

theorem keeps_entries {es : List (Expr Symbol × Expr Symbol)}
    (h : ∀ kv ∈ es, kv.1.Keeping K ∧ kv.2.Keeping K)
    (ht : ∀ kv ∈ es, kv.1.Mentions K ∧ kv.2.Mentions K) : Keeper K (emitEntries es) := by
  induction es with
  | nil => exact fun _ ha => .pure ha
  | cons kv es ih =>
    obtain ⟨⟨hk, hv⟩, hes⟩ := List.forall_mem_cons.mp h
    obtain ⟨⟨htk, htv⟩, htes⟩ := List.forall_mem_cons.mp ht
    exact fun a ha => (hk.value htk a ha).bind fun b hb => (hv.value htv b hb).bind (ih hes htes)

end Lists

/-- A tree that is no place emits nothing as a target. -/
theorem Keeping.of_value {e : Expr Symbol}
    (hv : (∀ x ∈ e.ownBindings, K x) → (∀ c ∈ e.children, c.Mentions K) → Keeper K e.emit)
    (hput : ∀ f g a, e.emitPut f g a =
      .error (.unsupportedConstruct ("assigning to an element of a " ++ e.kind))) : e.Keeping K where
  value ht := hv (mentions_iff.mp ht).1 (mentions_iff.mp ht).2
  target {f g} _ _ _ a _ b hb := by
    rw [hput f g a] at hb
    cases hb

theorem keeping (e : Expr Symbol) : e.Keeping K := by
  induction e using Expr.induct with
  | literal l =>
    exact .of_value (fun _ _ _ ha => .pure (ha.emit rfl)) fun _ _ _ => rfl
  | var x =>
    refine ⟨fun ht a ha => .pure (ha.load ?_), fun ht hf hg a ha => ?_⟩
    · exact ht.self x (by simp [ownBindings])
    · have hx : K x := ht.self x (by simp [ownBindings])
      exact (hf _ (ha.load hx)).bind fun b hb => (hg b hb).bind fun c hc =>
        .pure ((hc.emit rfl).restoreInto ht.self)
  | declare x value hv =>
    refine .of_value (fun hx hc a ha => ?_) fun _ _ _ => rfl
    refine (hv.value (hc _ (by simp [children])) a ha).bind fun b hb => .pure ?_
    exact (hb.emit rfl).store (hx x (by simp [ownBindings]))
  | assign x value hv =>
    refine .of_value (fun hx hc a ha => ?_) fun _ _ _ => rfl
    refine (hv.value (hc _ (by simp [children])) a ha).bind fun b hb => .pure ?_
    exact (hb.emit rfl).store (hx x (by simp [ownBindings]))
  | letIn x value body hv hb =>
    refine .of_value (fun hx hc a ha => ?_) fun _ _ _ => rfl
    refine (hv.value (hc _ (by simp [children])) a ha).bind fun b h => ?_
    exact hb.value (hc _ (by simp [children])) _ (h.store (hx x (by simp [ownBindings])))
  | unary op operand ho =>
    refine .of_value (fun hx hc a ha => ?_) fun _ _ _ => rfl
    exact (ho.value (hc _ (by simp [children])) a ha).bind fun b hb => .pure (hb.emit rfl)
  | binary op left right hl hr =>
    refine .of_value (fun hx hc a ha => ?_) fun _ _ _ => rfl
    refine (hl.value (hc _ (by simp [children])) a ha).bind fun b hb => ?_
    exact (hr.value (hc _ (by simp [children])) b hb).bind fun _ h => .pure (h.emit rfl)
  | logical op left right hl hr =>
    refine .of_value (fun hx hc a ha => ?_) fun _ _ _ => rfl
    refine (hl.value (hc _ (by simp [children])) a ha).bind fun b hb => ?_
    refine (hr.value (hc _ (by simp [children])) _ ?_).bind fun _ h => h.place _
    exact ((hb.newLabel.emit rfl).emit rfl).emit rfl
  | block body hb => exact .of_value (fun _ hc => keeps_block hb hc) fun _ _ _ => rfl
  | cond test yes no ht hy hn =>
    refine .of_value (fun hx hc a ha => ?_) fun _ _ _ => rfl
    have hyes : Keeper K (emitBlock yes) := keeps_block hy fun e he => hc e (by simp [children, he])
    have hno : Keeper K (emitAlternative no) := by
      cases no with
      | none => exact fun _ h => .pure (h.emit rfl)
      | some body => exact keeps_block (hn body rfl) fun e he => hc e (by simp [children, he])
    refine (ht.value (hc _ (by simp [children])) a ha).bind fun b hb => ?_
    refine (hyes _ (hb.newLabel.newLabel.emit rfl)).bind fun c h => ?_
    exact ((h.emit rfl).place _).bind fun d hd => (hno d hd).bind fun _ h => h.place _
  | loop test body ht hb =>
    refine .of_value (fun hx hc => ?_) fun _ _ _ => rfl
    have hbody : Keeper K (emitBlock body) := keeps_block hb fun e he => hc e (by simp [children, he])
    exact (ht.value (hc _ (by simp [children]))).loop fun a ha =>
      (hbody a ha).bind fun _ h => .pure (h.emit rfl)
  | count x init test advance body hi ht ha hb =>
    refine .of_value (fun hx hc a h => ?_) fun _ _ _ => rfl
    have hbody : Keeper K (emitBlock body) := keeps_block hb fun e he => hc e (by simp [children, he])
    refine (hi.value (hc _ (by simp [children])) a h).bind fun b hb => ?_
    refine Keeper.loop (ht.value (hc _ (by simp [children]))) (fun a h => ?_) _
      (hb.store (hx x (by simp [ownBindings])))
    refine (hbody a h).bind fun c h => ?_
    exact (ha.value (hc _ (by simp [children])) _ (h.emit rfl)).bind fun _ h =>
      .pure (h.emit rfl)
  | print args ha =>
    exact .of_value (fun hx hc a h => (keeps_reversed ha hc a h).bind fun _ h =>
      .pure (h.emit rfl)) fun _ _ _ => rfl
  | list elems he =>
    exact .of_value (fun hx hc a h => (keeps_all he hc a h).bind fun _ h =>
      .pure ((h.emit rfl).emit rfl)) fun _ _ _ => rfl
  | fill value size hv hs =>
    refine .of_value (fun hx hc a ha => ?_) fun _ _ _ => rfl
    refine (hv.value (hc _ (by simp [children])) a ha).bind fun b hb => ?_
    exact (hs.value (hc _ (by simp [children])) b hb).bind fun _ h => .pure (h.emit rfl)
  | map entries he =>
    refine .of_value (fun hx hc a ha => ?_) fun _ _ _ => rfl
    have hmentions : ∀ kv ∈ entries, kv.1.Mentions K ∧ kv.2.Mentions K := by
      simp only [children, List.forall_mem_flatMap, List.forall_mem_cons] at hc
      exact fun kv hkv => ⟨(hc kv hkv).1, (hc kv hkv).2.1⟩
    exact (keeps_entries he hmentions a ha).bind fun _ h =>
      .pure ((h.emit rfl).emit rfl)
  | query op target ht =>
    refine .of_value (fun hx hc a ha => ?_) fun _ _ _ => rfl
    exact (ht.value (hc _ (by simp [children])) a ha).bind fun b hb => .pure (hb.emit rfl)
  | update op target arg ht ha =>
    refine .of_value (fun hx hc a h => ?_) fun _ _ _ => rfl
    have htarget : target.Mentions K := hc _ (by simp [children])
    refine (ht.value htarget a h).bind fun b hb => ?_
    exact (ha.value (hc _ (by simp [children])) b hb).bind fun _ h =>
      .pure ((h.emit rfl).restoreInto htarget.self)
  | index target key ht hk =>
    have hvalue : (index target key).Mentions K → target.Mentions K ∧ key.Mentions K := fun h =>
      ⟨(mentions_iff.mp h).2 _ (by simp [children]), (mentions_iff.mp h).2 _ (by simp [children])⟩
    refine ⟨fun h a ha => ?_, fun h hf hg => ?_⟩
    · refine (ht.value (hvalue h).1 a ha).bind fun b hb => ?_
      exact (hk.value (hvalue h).2 b hb).bind fun _ h => .pure (h.emit rfl)
    · refine ht.target (hvalue h).1 (hk.value (hvalue h).2) fun a ha => ?_
      refine (ht.value (hvalue h).1 a ha).bind fun b hb => ?_
      refine (hk.value (hvalue h).2 b hb).bind fun c hc => ?_
      exact (hf _ (hc.emit rfl)).bind fun d hd => (hg d hd).bind fun _ h =>
        .pure (h.emit rfl)
  | put target key value ht hk hv =>
    exact .of_value (fun hx hc => ht.target (hc _ (by simp [children])) (hk.value (hc _ (by simp [children])))
      (hv.value (hc _ (by simp [children])))) fun _ _ _ => rfl
  | concat parts hp =>
    exact .of_value (fun hx hc a h => (keeps_reversed hp hc a h).bind fun _ h =>
      .pure (h.emit rfl)) fun _ _ _ => rfl
  | slice target start stop step ht hs hp hst =>
    refine .of_value (fun hx hc a ha => ?_) fun _ _ _ => rfl
    have hstep : Keeper K (emitStep step) := by
      cases step with
      | none => exact fun _ h => .pure (h.emit rfl)
      | some e => exact (hst e rfl).value (hc _ (by simp [children]))
    refine (ht.value (hc _ (by simp [children])) a ha).bind fun b hb => ?_
    refine (hs.value (hc _ (by simp [children])) b hb).bind fun c h => ?_
    refine (hp.value (hc _ (by simp [children])) c h).bind fun d hd => ?_
    exact (hstep d hd).bind fun _ h => .pure (h.emit rfl)
  | function name params body ret hb hr =>
    refine .of_value (fun hx hc a ha => ?_) fun _ _ _ => rfl
    have hname : K name := hx name (by simp [ownBindings])
    have hparams : ∀ x ∈ params.reverse, K x := fun x h =>
      hx x (by simpa [ownBindings] using .inr (by simpa using h))
    have hbody : Keeper K (emitStatements body) :=
      keeps_statements hb fun e he => hc e (by simp [children, he])
    refine ((ha.newLabel.newLabel.emit rfl).place _).bind fun b h => ?_
    refine (hbody _ (((h.storeAll hparams).emit rfl).store hname)).bind fun c h => ?_
    refine (hr.value (hc _ (by simp [children])) c h).bind fun d hd => ?_
    exact ((hd.emit rfl).place _).bind fun _ h =>
      .pure (((h.emit rfl).emit rfl).store hname)
  | call callee args ha =>
    exact .of_value (fun hx hc a h => (keeps_all ha hc a h).bind fun _ h =>
      .pure ((h.load (hx callee (by simp [ownBindings]))).emit rfl)) fun _ _ _ => rfl

end Expr

/-! ## Names of a program -/

namespace Program

variable {tree : List (Expr Symbol)} {p : Program}

/-- **The names of a program** are those of symbols of its tree, and the ids that have one are those in the code. -/
theorem named (h : Program.ofTree tree = .ok p) (ht : ∀ e ∈ tree, e.Mentions K) :
    (∀ id n, p.names.get? id = some n → K ⟨n, id⟩) ∧
      ∀ id, (p.names.get? id).isSome ↔ ∃ i ∈ p.code, i.symbol? = some id := by
  cases hb : Expr.emitBlock tree .empty with
  | error e => rw [Program.ofTree, hb] at h; cases h
  | ok b =>
    have hnamed : Named K b := Expr.keeps_block (fun e _ => e.keeping) ht .empty .empty b hb
    rw [Program.ofTree, hb] at h
    obtain ⟨hcode, hnames⟩ := Assembly.resolveAll_of_finish (a := b) h
    obtain ⟨hsound, hrecorded⟩ := hnamed.emit (i := .halt) rfl
    rw [hnames]
    refine ⟨hsound, fun id => (hrecorded id).trans ?_⟩
    -- instructions keep their places when labels are replaced
    obtain ⟨hlength, horigin⟩ := Assembly.getElem?_of_resolveAll hcode
    constructor
    · rintro ⟨i, hi, hid⟩
      obtain ⟨k, hk⟩ := List.getElem?_of_mem (Array.mem_toList_iff.mpr hi)
      have hlt : k < p.code.toList.length := by
        rw [hlength]
        exact (List.getElem?_eq_some_iff.mp (by simpa [Assembly.emit] using hk)).1
      obtain ⟨i', hi', hmap⟩ := horigin k p.code.toList[k] (List.getElem?_eq_getElem hlt)
      obtain rfl : i' = i := Option.some.inj (hi'.symm.trans (by simpa [Assembly.emit] using hk))
      exact ⟨p.code.toList[k], Array.mem_toList_iff.mp (List.getElem_mem hlt),
        (Instr.symbol?_of_mapTarget hmap).trans hid⟩
    · rintro ⟨j, hj, hid⟩
      obtain ⟨k, hk⟩ := List.getElem?_of_mem (Array.mem_toList_iff.mpr hj)
      obtain ⟨i, hi, hmap⟩ := horigin k j hk
      refine ⟨i, ?_, (Instr.symbol?_of_mapTarget hmap).symm.trans hid⟩
      simpa [Assembly.emit] using List.mem_of_getElem? hi

/-- **Names in messages.** A program that loads an id knows its name. -/
theorem nameOf?_of_load (h : Program.ofTree tree = .ok p) (ht : ∀ e ∈ tree, e.Titled title) {i id : Nat}
    (hi : p.code[i]? = some (.load id)) : p.nameOf? id = some (title id) := by
  obtain ⟨hsound, hrecorded⟩ := named (K := fun x => x.name = title x.id) h ht
  obtain ⟨n, hn⟩ := Option.isSome_iff_exists.mp
    ((hrecorded id).mpr ⟨.load id, Array.mem_of_getElem? hi, rfl⟩)
  exact hn.trans (congrArg some (hsound id n hn))

end Program

end ExactScript
