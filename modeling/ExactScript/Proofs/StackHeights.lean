import ExactScript.Proofs.Flow
import ExactScript.Proofs.Linking
import ExactScript.Proofs.References

/-!
# The height of the stack

Every position of a program has a height: how many values the running call has on the stack whenever
control is there, no matter how it came there. The code of an expression adds one value, whatever is below
it; a call takes its arguments with the activation that it starts, and leaves one value in their place.

Heights count from the *base* of an activation, the height at which its call found the stack, without
the callee and the arguments.

## Contents
* `stackHeights`, the discipline, and `Expr.passes`, the flow of heights through a tree;
* `Tracked`, a run together with the bases of its activations, and the invariant `Level`;
* `Program.stack_discipline`, the theorem, with what follows from it for errors and for the end of a run.
-/

namespace ExactScript

/-- What is known of the stack at a position. -/
structure Level where
  /-- The number of values above the base. -/
  height : Nat
  /-- Control is inside of a call. -/
  inside : Bool
  /-- The constant on top of the stack, where it matters. -/
  top : Option Literal := none

namespace Instr

/-- The number of values taken off the stack, where that does not depend on the stack. -/
def takes : Instr Nat → Nat
  | pop => 1
  | dup => 1
  | binary _ => 2
  | unary _ => 1
  | jumpIf _ _ => 1
  | store _ => 1
  | strCat n => n
  | strSlice => 4
  | print n => n
  | listFill => 2
  | query _ => 1
  | update _ => 2
  | find => 2
  | put => 3
  | call n => n + 1
  | _ => 0

/-- The number of values put onto the stack. A call counts with its result. -/
def leaves : Instr Nat → Nat
  | pop => 0
  | dup => 2
  | jumpIf _ _ => 0
  | store _ => 0
  | _ => 1

end Instr

/-- How instructions change the height. A count has to be on top of the stack where it is needed; a call
ends with a single value on its stack, and so does the program. -/
def stackHeights : Discipline Level where
  Implies a b := a.height = b.height ∧ a.inside = b.inside ∧ (b.top = none ∨ a.top = b.top)
  Step instr a b :=
    match instr with
    | .push l => b = { height := a.height + 1, inside := a.inside, top := some l }
    | .buildList =>
      ∃ h x k, a.top = some (.num x) ∧ Stack.count? x = some k ∧ a.height = h + k + 1 ∧
        b = { height := h + 1, inside := a.inside }
    | .buildMap =>
      ∃ h x k, a.top = some (.num x) ∧ Stack.count? x = some k ∧ 2 * k < wordSize ∧
        a.height = h + 2 * k + 1 ∧ b = { height := h + 1, inside := a.inside }
    | .ret => a.height = 1 ∧ a.inside = true
    | .halt => a.height = 1 ∧ a.inside = false
    | instr => ∃ h, a.height = h + instr.takes ∧ b = { height := h + instr.leaves, inside := a.inside }
  Defines f a x b :=
    x = { height := f.arity, inside := true } ∧ b = { height := a.height + 1, inside := a.inside }
  refl _ := ⟨rfl, rfl, .inr rfl⟩
  trans := by
    rintro a b c ⟨h₁, i₁, t₁⟩ ⟨h₂, i₂, t₂⟩
    refine ⟨h₁.trans h₂, i₁.trans i₂, ?_⟩
    rcases t₂ with t₂ | t₂
    · exact .inl t₂
    · rcases t₁ with t₁ | t₁
      · exact .inl (t₂ ▸ t₁)
      · exact .inr (t₁.trans t₂)

/-- The stack holds `h` values above the base. -/
def level (h : Nat) (inside : Bool) : Level := { height := h, inside := inside }

namespace Instr

/-- The instruction goes on with the next, and its effect on the height does not depend on the stack. -/
def Plain : Instr Nat → Prop
  | push _ => False
  | buildList => False
  | buildMap => False
  | jump _ => False
  | jumpIf _ _ => False
  | makeFunction _ _ => False
  | ret => False
  | halt => False
  | _ => True

end Instr

/-! ## The flow of heights -/

/-- The piece turns `n` values into `k`, whatever is below them. -/
def Moves (n k : Nat) (p : Piece) : Prop :=
  ∀ i h inside, stackHeights.Passes i (level (h + n) inside) p (level (h + k) inside)

namespace Moves

variable {n k l : Nat} {p q r : Piece}

theorem nil : Moves n n (.ofList []) := fun _ _ _ => .nil (stackHeights.refl _)

theorem append (hp : Moves n k p) (hq : Moves k l q) : Moves n l (p ++ q) := fun i h inside =>
  (hp i h inside).append (hq _ h inside)

/-- More values below make no difference. -/
theorem above (j : Nat) (hp : Moves n k p) : Moves (j + n) (j + k) p := by
  intro i h inside
  rw [← Nat.add_assoc, ← Nat.add_assoc]
  exact hp i (h + j) inside

theorem cons {instr : Instr Nat} {is : List (Instr Nat)} (hp : Moves n k (.ofList [instr]))
    (hq : Moves k l (.ofList is)) : Moves n l (.ofList (instr :: is)) := by
  have h := hp.append hq
  rwa [Piece.ofList_append] at h

theorem plain (instr : Instr Nat) (hi : instr.Plain) :
    Moves instr.takes instr.leaves (.ofList [instr]) := by
  refine fun i h inside => .goes fun arrive i hn => ?_
  cases instr with
  | push => cases hi
  | buildList => cases hi
  | buildMap => cases hi
  | jump => cases hi
  | jumpIf => cases hi
  | makeFunction => cases hi
  | ret => cases hi
  | halt => cases hi
  | _ => exact ⟨_, ⟨h, rfl, rfl⟩, hn⟩

theorem push (l : Literal) : Moves 0 1 (.ofList [.push l]) := fun _ h inside =>
  Discipline.Passes.imp (stackHeights.refl _)
    (.goes (b := { height := h + 1, inside := inside, top := some l }) fun _ _ hn => ⟨_, rfl, hn⟩)
    ⟨rfl, rfl, .inl rfl⟩

/-- A list of known length is built. -/
theorem buildList (hn : n < wordSize) : Moves n 1 (.ofList [countCode n, .buildList]) := fun _ h inside =>
  have hpush : stackHeights.Goes (countCode n) (level (h + n) inside)
      { height := h + n + 1, inside := inside, top := some (.num (.ofNat n)) } :=
    fun _ _ hn => ⟨_, rfl, hn⟩
  have hbuild : stackHeights.Goes .buildList
      { height := h + n + 1, inside := inside, top := some (.num (.ofNat n)) } (level (h + 1) inside) :=
    fun _ _ hnext => ⟨_, ⟨h, .ofNat n, n, rfl, Stack.count?_ofNat hn, rfl, rfl⟩, hnext⟩
  Discipline.Passes.append (p := .ofList [countCode n]) (q := .ofList [.buildList]) (.goes hpush)
    (.goes hbuild)

/-- A map of a known number of entries is built. -/
theorem buildMap (hn : 2 * n < wordSize) : Moves (2 * n) 1 (.ofList [countCode n, .buildMap]) :=
  fun _ h inside =>
  have hpush : stackHeights.Goes (countCode n) (level (h + 2 * n) inside)
      { height := h + 2 * n + 1, inside := inside, top := some (.num (.ofNat n)) } :=
    fun _ _ hn => ⟨_, rfl, hn⟩
  have hbuild : stackHeights.Goes .buildMap
      { height := h + 2 * n + 1, inside := inside, top := some (.num (.ofNat n)) }
      (level (h + 1) inside) :=
    fun _ _ hnext => ⟨_, ⟨h, .ofNat n, n, rfl, Stack.count?_ofNat (by omega), hn, rfl, rfl⟩, hnext⟩
  Discipline.Passes.append (p := .ofList [countCode n]) (q := .ofList [.buildMap]) (.goes hpush)
    (.goes hbuild)

theorem jumpIf {h : Nat} {inside sense : Bool} (t : Nat) :
    stackHeights.Step (.jumpIf sense t) (level (h + 1) inside) (level h inside) := ⟨h, rfl, rfl⟩

theorem logical {decisive : Bool} (hp : Moves 0 1 p) (hq : Moves 0 1 q) :
    Moves 0 1 (.logical decisive p q) := fun i h inside =>
  have hdup : stackHeights.Goes .dup (level (h + 1) inside) (level (h + 2) inside) :=
    fun _ _ hn => ⟨_, ⟨h, rfl, rfl⟩, hn⟩
  have hpop : stackHeights.Goes .pop (level (h + 1) inside) (level h inside) :=
    fun _ _ hn => ⟨_, ⟨h, rfl, rfl⟩, hn⟩
  .logical (hp i h inside) hdup (jumpIf (h := h + 1)) hpop (hq _ h inside)

theorem cond (hp : Moves 0 1 p) (hq : Moves 0 1 q) (hr : Moves 0 1 r) : Moves 0 1 (.cond p q r) :=
  fun i h inside => .cond (hp i h inside) jumpIf (hq _ h inside) (hr _ h inside)

theorem loop (hp : Moves 0 1 p) (hq : Moves 0 0 q) : Moves 0 1 (.loop p q) := fun i h inside =>
  .loop (hp i h inside) jumpIf (hq _ h inside) fun _ _ hn => ⟨_, ⟨h, rfl, rfl⟩, hn⟩

theorem stores (xs : List Symbol) : Moves xs.length 0 (.ofList (xs.map fun x => .store x.id)) := by
  induction xs with
  | nil => exact nil
  | cons x xs ih =>
    have hstore : Moves (xs.length + 1) (xs.length + 0) (.ofList [.store x.id]) :=
      (plain (.store x.id) trivial).above xs.length
    exact hstore.cons ih

theorem function {name : Symbol} {params : List Symbol} {source : List (Expr Symbol)}
    (hp : Moves 0 1 p) : Moves 0 1 (.function name params source p) := by
  intro i h inside
  have hstore : ∀ {h' : Nat} {inside' : Bool},
      stackHeights.Goes (.store name.id) (level (h' + 1) inside') (level h' inside') :=
    fun _ _ hn => ⟨_, ⟨_, rfl, rfl⟩, hn⟩
  have hdup : stackHeights.Goes .dup (level (h + 1) inside) (level (h + 2) inside) :=
    fun _ _ hn => ⟨_, ⟨h, rfl, rfl⟩, hn⟩
  have hparams := stores params.reverse (i + 1) 0 true
  rw [List.length_reverse, Nat.zero_add] at hparams
  have hroutine : stackHeights.Passes (i + 1) (level params.length true) (.routine name params p)
      (level h inside) :=
    .routine hparams ⟨rfl, rfl⟩ hstore (hp _ 0 true) (y := level 0 true) ⟨rfl, rfl⟩
  exact .function hroutine ⟨rfl, rfl⟩ hdup hstore

end Moves

namespace Expr

/-- What the heights of a tree depend on. -/
structure Ready (e : Expr Symbol) : Prop where
  assignable : e.Assignable
  fits : e.Fits

theorem Ready.child {e c : Expr Symbol} (h : e.Ready) (hc : c ∈ e.children) : c.Ready :=
  ⟨(assignable_iff.mp h.assignable).2 c hc, (fits_iff.mp h.fits).2 c hc⟩

/-- What is shown of every tree: its own code, and its code as a target whose element is set. -/
structure Heights (e : Expr Symbol) : Prop where
  value : e.Ready → Moves 0 1 e.piece
  target : ∀ {k v}, e.IsPlace → e.Ready → Moves 0 1 k → Moves 0 1 v → Moves 0 1 (e.pieceOfPut k v)

section Lists

variable {es : List (Expr Symbol)}

theorem moves_all (h : ∀ e ∈ es, e.Heights) (hr : ∀ e ∈ es, e.Ready) :
    Moves 0 es.length (pieceOfAll es) := by
  induction es with
  | nil => exact .nil
  | cons e es ih =>
    obtain ⟨he, hes⟩ := List.forall_mem_cons.mp h
    obtain ⟨hre, hres⟩ := List.forall_mem_cons.mp hr
    rw [List.length_cons, Nat.add_comm]
    exact (he.value hre).append ((ih hes hres).above 1)

theorem moves_reversed (h : ∀ e ∈ es, e.Heights) (hr : ∀ e ∈ es, e.Ready) :
    Moves 0 es.length (pieceOfReversed es) := by
  induction es with
  | nil => exact .nil
  | cons e es ih =>
    obtain ⟨he, hes⟩ := List.forall_mem_cons.mp h
    obtain ⟨hre, hres⟩ := List.forall_mem_cons.mp hr
    exact (ih hes hres).append ((he.value hre).above es.length)

theorem moves_statements (h : ∀ e ∈ es, e.Heights) (hr : ∀ e ∈ es, e.Ready) :
    Moves 0 0 (pieceOfStatements es) := by
  induction es with
  | nil => exact .nil
  | cons e es ih =>
    obtain ⟨he, hes⟩ := List.forall_mem_cons.mp h
    obtain ⟨hre, hres⟩ := List.forall_mem_cons.mp hr
    exact (he.value hre).append ((Moves.plain .pop trivial).append (ih hes hres))

theorem moves_block (h : ∀ e ∈ es, e.Heights) (hr : ∀ e ∈ es, e.Ready) :
    Moves 0 1 (pieceOfBlock es) := by
  induction es with
  | nil => exact .plain .pushUnit trivial
  | cons e es ih =>
    obtain ⟨he, hes⟩ := List.forall_mem_cons.mp h
    obtain ⟨hre, hres⟩ := List.forall_mem_cons.mp hr
    cases es with
    | nil => exact he.value hre
    | cons f es =>
      exact (he.value hre).append ((Moves.plain .pop trivial).append (ih hes hres))

theorem moves_entries {es : List (Expr Symbol × Expr Symbol)}
    (h : ∀ kv ∈ es, kv.1.Heights ∧ kv.2.Heights) (hr : ∀ kv ∈ es, kv.1.Ready ∧ kv.2.Ready) :
    Moves 0 (2 * es.length) (pieceOfEntries es) := by
  induction es with
  | nil => exact .nil
  | cons kv es ih =>
    obtain ⟨⟨hk, hv⟩, hes⟩ := List.forall_mem_cons.mp h
    obtain ⟨⟨hrk, hrv⟩, hres⟩ := List.forall_mem_cons.mp hr
    rw [List.length_cons, Nat.mul_succ, Nat.add_comm]
    exact (hk.value hrk).append (((hv.value hrv).above 1).append ((ih hes hres).above 2))

end Lists

theorem moves_restore (e : Expr Symbol) : Moves 1 1 (.ofList (restoreCode e)) := by
  cases e with
  | var x =>
    have hdup : Moves 1 2 (.ofList [.dup]) := .plain .dup trivial
    exact hdup.cons ((Moves.plain (.store x.id) trivial).above 1)
  | _ => exact .nil

theorem heights (e : Expr Symbol) : e.Heights := by
  have hdrop : Moves 1 0 (.ofList [.pop]) := .plain .pop trivial
  have hkeep : ∀ x : Symbol, Moves 1 1 (.ofList [.dup, .store x.id]) := fun x => moves_restore (.var x)
  have hstore : ∀ x : Symbol, Moves 1 0 (.ofList [.store x.id]) := fun x =>
    .plain (.store x.id) trivial
  have hput : Moves 3 1 (.ofList [.put]) := .plain .put trivial
  have hfind : Moves 2 1 (.ofList [.find]) := .plain .find trivial
  induction e using Expr.induct with
  | literal l => exact ⟨fun _ => .push l, fun h => h.elim⟩
  | var x =>
    refine ⟨fun _ => .plain (.load x.id) trivial, fun _ _ hk hv => ?_⟩
    have hload : Moves 0 1 (.ofList [.load x.id]) := .plain (.load x.id) trivial
    exact hload.append ((hk.above 1).append ((hv.above 2).append (hput.cons (hkeep x))))
  | declare x value hv =>
    exact ⟨fun h => (hv.value (h.child (by simp [children]))).append (hkeep x), fun h => h.elim⟩
  | assign x value hv =>
    exact ⟨fun h => (hv.value (h.child (by simp [children]))).append (hkeep x), fun h => h.elim⟩
  | letIn x value body hv hb =>
    exact ⟨fun h => (hv.value (h.child (by simp [children]))).append
      ((hstore x).append (hb.value (h.child (by simp [children])))), fun h => h.elim⟩
  | unary op operand ho =>
    exact ⟨fun h => (ho.value (h.child (by simp [children]))).append
      (.plain (.unary op) trivial), fun h => h.elim⟩
  | binary op left right hl hr =>
    exact ⟨fun h => (hl.value (h.child (by simp [children]))).append
      (((hr.value (h.child (by simp [children]))).above 1).append
        (.plain (.binary op) trivial)), fun h => h.elim⟩
  | logical op left right hl hr =>
    exact ⟨fun h => .logical (hl.value (h.child (by simp [children])))
      (hr.value (h.child (by simp [children]))), fun h => h.elim⟩
  | block body hb => exact ⟨fun h => moves_block hb fun e he => h.child he, fun h => h.elim⟩
  | cond test yes no ht hy hn =>
    refine ⟨fun h => .cond (ht.value (h.child (by simp [children]))) (moves_block hy fun e he =>
      h.child (by simp [children, he])) ?_, fun h => h.elim⟩
    cases no with
    | none => exact .plain .pushUnit trivial
    | some body => exact moves_block (hn body rfl) fun e he => h.child (by simp [children, he])
  | loop test body ht hb =>
    exact ⟨fun h => .loop (ht.value (h.child (by simp [children])))
      ((moves_block hb fun e he => h.child (by simp [children, he])).append hdrop), fun h => h.elim⟩
  | count x init test advance body hi ht ha hb =>
    exact ⟨fun h => (hi.value (h.child (by simp [children]))).append ((hstore x).append
      (.loop (ht.value (h.child (by simp [children])))
        ((moves_block hb fun e he => h.child (by simp [children, he])).append (hdrop.append
          ((ha.value (h.child (by simp [children]))).append hdrop))))), fun h => h.elim⟩
  | print args ha =>
    exact ⟨fun h => (moves_reversed ha fun e he => h.child he).append
      (.plain (.print args.length) trivial), fun h => h.elim⟩
  | list elems he =>
    refine ⟨fun h => (moves_all he fun e he => h.child he).append (.buildList ?_), fun h => h.elim⟩
    have hlt : elems.length < sequenceLimit := h.fits.self
    simp only [sequenceLimit] at hlt
    omega
  | fill value size hv hs =>
    exact ⟨fun h => (hv.value (h.child (by simp [children]))).append
      (((hs.value (h.child (by simp [children]))).above 1).append
        (.plain .listFill trivial)), fun h => h.elim⟩
  | map entries he =>
    refine ⟨fun h => (moves_entries he fun kv hkv => ?_).append (.buildMap ?_), fun h => h.elim⟩
    · exact ⟨h.child (List.mem_flatMap.mpr ⟨kv, hkv, by simp⟩),
        h.child (List.mem_flatMap.mpr ⟨kv, hkv, by simp⟩)⟩
    · have hlt : entries.length < sequenceLimit := h.fits.self
      simp only [sequenceLimit] at hlt
      omega
  | query op target ht =>
    exact ⟨fun h => (ht.value (h.child (by simp [children]))).append
      (.plain (.query op) trivial), fun h => h.elim⟩
  | update op target arg ht ha =>
    refine ⟨fun h => (ht.value (h.child (by simp [children]))).append
      (((ha.value (h.child (by simp [children]))).above 1).append ?_), fun h => h.elim⟩
    have hup : Moves 2 1 (.ofList [.update op]) := .plain (.update op) trivial
    exact hup.cons (moves_restore target)
  | index target key ht hk =>
    have helem : (index target key).Ready → Moves 0 1 target.piece ∧ Moves 0 1 key.piece := fun h =>
      ⟨ht.value (h.child (by simp [children])), hk.value (h.child (by simp [children]))⟩
    refine ⟨fun h => (helem h).1.append (((helem h).2.above 1).append hfind), fun hp h hk' hv => ?_⟩
    refine ht.target hp (h.child (by simp [children])) (helem h).2 ?_
    exact (helem h).1.append (((helem h).2.above 1).append (hfind.append ((hk'.above 1).append
      ((hv.above 2).append hput))))
  | put target key value ht hk hv =>
    refine ⟨fun h => ht.target h.assignable.self (h.child (by simp [children]))
      (hk.value (h.child (by simp [children]))) (hv.value (h.child (by simp [children]))), fun h => h.elim⟩
  | concat parts hp =>
    exact ⟨fun h => (moves_reversed hp fun e he => h.child he).append
      (.plain (.strCat parts.length) trivial), fun h => h.elim⟩
  | slice target start stop step ht hs hp hst =>
    refine ⟨fun h => ?_, fun h => h.elim⟩
    have hstep : Moves 0 1 (pieceOfStep step) := by
      cases step with
      | none => exact .push _
      | some e => exact (hst e rfl).value (h.child (by simp [children]))
    have hslice : Moves 3 1 (pieceOfStep step ++ .ofList [.strSlice]) :=
      (hstep.above 3).append (.plain .strSlice trivial)
    exact (ht.value (h.child (by simp [children]))).append
      (((hs.value (h.child (by simp [children]))).above 1).append
        (((hp.value (h.child (by simp [children]))).above 2).append hslice))
  | function name params body ret hb hr =>
    exact ⟨fun h => .function ((moves_statements hb fun e he => h.child (by simp [children, he])).append
      (hr.value (h.child (by simp [children])))), fun h => h.elim⟩
  | call callee args ha =>
    refine ⟨fun h => (moves_all ha fun e he => h.child he).append ?_, fun h => h.elim⟩
    have hload : Moves args.length (args.length + 1) (.ofList [.load callee.id]) :=
      (Moves.plain (.load callee.id) trivial).above args.length
    exact hload.cons (.plain (.call args.length) trivial)

end Expr

/-! ## Runs with bases -/

namespace Machine

/-- **A run with the bases of its activations**, the innermost first. A call starts an activation where
its callee and arguments begin, and a return ends it. -/
inductive Tracked (p : Program) : Machine → List Nat → Prop
  | load (m : Machine) : Tracked p (m.load p) [0]
  | call {m m' : Machine} {bases : List Nat} {n : Nat} (h : Tracked p m bases)
      (hi : m.current? = some (.call n)) (hs : m.step = (.ok .more, m')) :
      Tracked p m' ((m.stack.length - (n + 1)) :: bases)
  | ret {m m' : Machine} {bases : List Nat} (h : Tracked p m bases) (hi : m.current? = some .ret)
      (hs : m.step = (.ok .more, m')) : Tracked p m' bases.tail
  | other {m m' : Machine} {bases : List Nat} (h : Tracked p m bases)
      (hcall : ∀ n, m.current? ≠ some (.call n)) (hret : m.current? ≠ some .ret)
      (hs : m.step = (.ok .more, m')) : Tracked p m' bases

theorem exists_tracked {p : Program} {m : Machine} (h : Reachable p m) : ∃ bases, Tracked p m bases := by
  obtain ⟨m₀, n, hs⟩ := h
  refine hs.invariant (P := fun m => ∃ bases, Tracked p m bases) ?_ ⟨[0], .load m₀⟩
  rintro m m' ⟨bases, h⟩ hstep
  by_cases hcall : ∃ n, m.current? = some (.call n)
  · obtain ⟨n, hn⟩ := hcall
    exact ⟨_, h.call hn hstep⟩
  · by_cases hret : m.current? = some .ret
    · exact ⟨_, h.ret hret hstep⟩
    · exact ⟨_, h.other (fun n hn => hcall ⟨n, hn⟩) hret hstep⟩

end Machine

/-- The stack is as the level says, above a base, in as many calls as there are return addresses. -/
structure Level.Holds (a : Level) (base : Nat) (addresses : List Nat) (stack : Stack) : Prop where
  height : stack.length = base + a.height
  inside : a.inside = !addresses.isEmpty
  top : ∀ l, a.top = some l → stack.head? = some (.ofLiteral l)

theorem Level.Holds.of_implies {a b : Level} {base : Nat} {addresses : List Nat} {stack : Stack}
    (h : a.Holds base addresses stack) (hab : stackHeights.Implies a b) :
    b.Holds base addresses stack := by
  obtain ⟨hheight, hinside, htop⟩ := hab
  refine ⟨hheight ▸ h.height, hinside ▸ h.inside, fun l hl => ?_⟩
  rcases htop with htop | htop
  · rw [htop] at hl
    cases hl
  · exact h.top l (htop.trans hl)

variable {ann : Nat → Level} {size : Nat}

/-- The function is entered with its arguments as the only values. -/
def Entered (ann : Nat → Level) (size : Nat) (f : FunctionRef) : Prop :=
  f.entry < size ∧ stackHeights.Implies (level f.arity true) (ann f.entry)

/-- The activations below the running one, with the values that each of them finds when it is returned
to: one more than the base of the activation above. -/
inductive Suspended (ann : Nat → Level) (size : Nat) : List Nat → List Nat → Prop
  | bottom : Suspended ann size [] [0]
  | call {address base below : Nat} {addresses bases : List Nat}
      (h : Suspended ann size addresses (below :: bases)) (hlt : address < size)
      (hback : ∀ stack : Stack, stack.length = base + 1 → (ann address).Holds below addresses stack) :
      Suspended ann size (address :: addresses) (base :: below :: bases)

/-- **The invariant.** -/
structure Balanced (ann : Nat → Level) (p : Program) (m : Machine) (base : Nat) (bases : List Nat) :
    Prop where
  program : m.program = p
  ip_lt : m.ip < p.code.size
  within : m.Within (Entered ann p.code.size)
  suspended : Suspended ann p.code.size m.memory.addresses (base :: bases)
  holds : (ann m.ip).Holds base m.memory.addresses m.stack

theorem Instr.length_of_combine {i : Instr Nat} {ops : List Value} {r : Except RunError Value}
    (hi : i.Plain) (h : i.combine ops = some r) : ops.length = i.takes ∧ i.leaves = 1 := by
  cases combination_of_combine h with
  | push => cases hi
  | buildList => cases hi
  | buildMap => cases hi
  | makeFunction => cases hi
  | _ => exact ⟨rfl, rfl⟩

/-- `t` values give way to `l` others. -/
theorem Level.Holds.exchange {a : Level} {base k t l : Nat} {addresses : List Nat}
    {stack stack' : Stack} (h : a.Holds base addresses stack) (hk : a.height = k + t)
    (hlen : stack'.length + t = stack.length + l) :
    ({ height := k + l, inside := a.inside } : Level).Holds base addresses stack' := by
  have hheight := h.height
  refine ⟨?_, h.inside, fun _ hl => by cases hl⟩
  simp only
  omega

/-- A result in the place of the operands. -/
theorem Level.Holds.combine {i : Instr Nat} {a b : Level} {base : Nat} {addresses : List Nat}
    {ops s : List Value} {v : Value} (h : a.Holds base addresses (ops ++ s))
    (hc : i.combine ops = some (.ok v)) (hb : stackHeights.Step i a b) :
    b.Holds base addresses (v :: s) := by
  have hheight := h.height
  rw [List.length_append] at hheight
  have hplain : i.Plain → (∃ h, a.height = h + i.takes ∧
      b = { height := h + i.leaves, inside := a.inside }) → b.Holds base addresses (v :: s) := by
    rintro hi ⟨k, hk, rfl⟩
    obtain ⟨htakes, hleaves⟩ := Instr.length_of_combine hi hc
    refine ⟨?_, h.inside, fun l hl => by cases hl⟩
    simp only [List.length_cons]
    omega
  generalize hr : Except.ok v = r at hc
  cases Instr.combination_of_combine hc with
  | push l =>
    cases hr
    obtain rfl : b = { height := a.height + 1, inside := a.inside, top := some l } := hb
    refine ⟨?_, h.inside, fun l' hl' => by cases hl'; rfl⟩
    simp only [List.length_cons, List.length_nil] at hheight ⊢
    omega
  | @buildList n elems hn =>
    obtain ⟨k, x, c, htop, hcount, hk, rfl⟩ := hb
    obtain rfl : n = x := by simpa [Value.ofLiteral] using h.top _ htop
    obtain rfl : elems.length = c := by simpa [hcount] using hn.symm
    refine ⟨?_, h.inside, fun l hl => by cases hl⟩
    simp only [List.length_cons] at hheight ⊢
    omega
  | @buildMap n flat hn =>
    obtain ⟨k, x, c, htop, hcount, hlt, hk, rfl⟩ := hb
    obtain rfl : n = x := by simpa [Value.ofLiteral] using h.top _ htop
    have hflat : 2 * c = flat.length := by simpa [hcount, Nat.mod_eq_of_lt hlt] using hn
    refine ⟨?_, h.inside, fun l hl => by cases hl⟩
    simp only [List.length_cons] at hheight ⊢
    omega
  | makeFunction entry arity =>
    obtain ⟨k, hk, rfl⟩ := hb
    refine ⟨?_, h.inside, fun l hl => by cases hl⟩
    simp only [List.length_cons, List.length_nil, Instr.takes, Instr.leaves] at hheight hk ⊢
    omega
  | _ => exact hplain trivial hb

/-- An instruction that neither calls nor returns leads to a level that holds again. -/
theorem Level.Holds.effect {arrive : Nat → Level → Prop} {i : Instr Nat} {a : Level} {m m' : Machine}
    {base : Nat} {addresses : List Nat} (h : a.Holds base addresses m.stack)
    (hadmits : stackHeights.Admits arrive m.ip a i) (he : Machine.Effect m i m')
    (hcall : ∀ n, i ≠ .call n) (hret : i ≠ .ret) :
    ∃ b, arrive m'.ip b ∧ b.Holds base addresses m'.stack := by
  cases he with
  | compute _ hs hc =>
    rw [hs] at h
    rcases hadmits.combine hc with ⟨b, hb, harrive⟩ | ⟨f, x, b, rfl, ⟨-, rfl⟩, -, harrive⟩
    · exact ⟨b, harrive, h.combine hc hb⟩
    · exact ⟨_, harrive, h.combine hc ⟨_, rfl, rfl⟩⟩
  | pop hs =>
    obtain ⟨b, ⟨k, hk, rfl⟩, harrive⟩ := hadmits
    exact ⟨_, harrive, h.exchange hk (by rw [hs]; rfl)⟩
  | dup hs =>
    obtain ⟨b, ⟨k, hk, rfl⟩, harrive⟩ := hadmits
    exact ⟨_, harrive, h.exchange hk (by rw [hs]; rfl)⟩
  | jump => exact ⟨a, hadmits, h⟩
  | taken hs =>
    obtain ⟨b, ⟨k, hk, rfl⟩, harrive, -⟩ := hadmits
    exact ⟨_, harrive, h.exchange hk (by rw [hs]; rfl)⟩
  | passed hs =>
    obtain ⟨b, ⟨k, hk, rfl⟩, -, harrive⟩ := hadmits
    exact ⟨_, harrive, h.exchange hk (by rw [hs]; rfl)⟩
  | load =>
    obtain ⟨b, ⟨k, hk, rfl⟩, harrive⟩ := hadmits
    exact ⟨_, harrive, h.exchange hk rfl⟩
  | store hs =>
    obtain ⟨b, ⟨k, hk, rfl⟩, harrive⟩ := hadmits
    exact ⟨_, harrive, h.exchange hk (by rw [hs]; rfl)⟩
  | print hs =>
    obtain ⟨b, ⟨k, hk, rfl⟩, harrive⟩ := hadmits
    refine ⟨_, harrive, h.exchange hk ?_⟩
    rw [hs, List.length_cons, List.length_append]
    simp only [Instr.takes, Instr.leaves]
    omega
  | @call f => exact absurd rfl (hcall f.arity)
  | ret => exact absurd rfl hret

/-- Such an instruction leaves the return addresses as they are. -/
theorem Machine.Effect.addresses_eq {m m' : Machine} {i : Instr Nat} (he : Effect m i m')
    (hcall : ∀ n, i ≠ .call n) (hret : i ≠ .ret) : m'.memory.addresses = m.memory.addresses := by
  cases he with
  | store => exact Memory.addresses_store _ _ _
  | @call f => exact absurd rfl (hcall f.arity)
  | ret => exact absurd rfl hret
  | _ => rfl

namespace Balanced

variable {p : Program} {m m' : Machine} {base : Nat} {bases : List Nat}

/-- An instruction that stays in the activation. -/
theorem of_arrive {b : Level} (h : Balanced ann p m base bases) (hprogram : m'.program = m.program)
    (hwithin : m'.Within (Entered ann p.code.size)) (haddresses : m'.memory.addresses = m.memory.addresses)
    (harrive : m'.ip < p.code.size ∧ stackHeights.Implies b (ann m'.ip))
    (hb : b.Holds base m.memory.addresses m'.stack) : Balanced ann p m' base bases where
  program := hprogram.trans h.program
  ip_lt := harrive.1
  within := hwithin
  suspended := haddresses ▸ h.suspended
  holds := haddresses ▸ hb.of_implies harrive.2

variable (hann : stackHeights.Annotates p.code ann)
include hann

theorem admits {i : Instr Nat} (h : Balanced ann p m base bases) (hi : m.current? = some i) :
    stackHeights.Admits (fun t x => t < p.code.size ∧ stackHeights.Implies x (ann t)) m.ip (ann m.ip) i :=
  hann m.ip i (h.program ▸ hi)

/-- A function that is made can be entered. -/
theorem entered {i : Instr Nat} (h : Balanced ann p m base bases) (hi : m.current? = some i) :
    ∀ entry arity, i = .makeFunction entry arity → Entered ann p.code.size ⟨entry, arity⟩ := by
  rintro entry arity rfl
  obtain ⟨x, b, ⟨rfl, -⟩, hentry, -⟩ := h.admits hann hi
  exact hentry

theorem within_of_effect {i : Instr Nat} (h : Balanced ann p m base bases) (hi : m.current? = some i)
    (he : Machine.Effect m i m') : m'.Within (Entered ann p.code.size) :=
  he.within h.within (h.entered hann hi)

/-- An instruction that stays in the activation. -/
theorem effect_other {i : Instr Nat} (h : Balanced ann p m base bases) (hi : m.current? = some i)
    (he : Machine.Effect m i m') (hcall : ∀ n, i ≠ .call n) (hret : i ≠ .ret) :
    Balanced ann p m' base bases := by
  obtain ⟨b, harrive, hb⟩ := h.holds.effect (h.admits hann hi) he hcall hret
  exact h.of_arrive he.program_eq (h.within_of_effect hann hi he) (he.addresses_eq hcall hret) harrive hb

/-- A call starts an activation above the running one, which waits for a single value. -/
theorem effect_call {n : Nat} (h : Balanced ann p m base bases) (hi : m.current? = some (.call n))
    (he : Machine.Effect m (.call n) m') :
    Balanced ann p m' (m.stack.length - (n + 1)) (base :: bases) := by
  obtain ⟨b, ⟨k, hk, rfl⟩, hlt, hback⟩ := h.admits hann hi
  have hwithin := h.within_of_effect hann hi he
  have hholds := h.holds
  obtain ⟨f, s, rfl, hs, hargs, rfl⟩ := he.of_call
  have hentered : Entered ann p.code.size f := h.within.callee hs
  have hlength : m.stack.length = s.length + 1 := by rw [hs, List.length_cons]
  have hheight := hholds.height
  simp only [Instr.takes] at hk
  refine ⟨h.program, hentered.1, hwithin, .call h.suspended hlt fun stack hstack => ?_, ?_⟩
  · have hdone : Level.Holds { height := k + 1, inside := (ann m.ip).inside } base
        m.memory.addresses stack := ⟨by simp only; omega, hholds.inside, fun _ hl => by cases hl⟩
    exact hdone.of_implies hback
  · have hstart : (level f.arity true).Holds (m.stack.length - (f.arity + 1))
        ((m.ip + 1) :: m.memory.addresses) s := ⟨by simp only [level]; omega, rfl, fun _ hl => by cases hl⟩
    exact hstart.of_implies hentered.2

/-- A return leaves one value on the stack of the activation below. -/
theorem effect_ret (h : Balanced ann p m base bases) (hi : m.current? = some .ret)
    (he : Machine.Effect m .ret m') : ∃ below rest, bases = below :: rest ∧ Balanced ann p m' below rest := by
  obtain ⟨b, hone, hinside⟩ := h.admits hann hi
  have hwithin := h.within_of_effect hann hi he
  have hsuspended := h.suspended
  have hheight := h.holds.height
  obtain ⟨frame, memory, hp, rfl⟩ := he.of_ret
  rw [Memory.addresses_of_popFrame hp] at hsuspended
  cases hsuspended with
  | @call _ _ below _ rest hbelow hlt hback =>
    rw [hone] at hheight
    exact ⟨below, rest, rfl, h.program, hlt, hwithin, hbelow, hback _ hheight⟩

end Balanced

/-! ## Compiled programs -/

namespace Program

variable {tree : List (Expr Symbol)} {p : Program}

/-- Trees that compile have heights. -/
theorem exists_heights (h : Program.ofTree tree = .ok p) (hfits : ∀ e ∈ tree, e.Fits) :
    ∃ ann, stackHeights.Implies (level 0 false) (ann 0) ∧ stackHeights.Annotates p.code ann := by
  have hready : ∀ e ∈ tree, e.Ready := fun e he => ⟨assignable_of_ofTree h e he, hfits e he⟩
  have hblock := Expr.moves_block (fun e _ => e.heights) hready 0 0 false
  exact hblock.annotates ⟨level 0 false, rfl, rfl⟩ (code_of_ofTree h)

end Program

/-- **The invariant holds throughout a run.** -/
theorem Balanced.of_tracked {p : Program} (h0 : stackHeights.Implies (level 0 false) (ann 0))
    (hann : stackHeights.Annotates p.code ann) (hsize : 0 < p.code.size) {m : Machine}
    {bases : List Nat} (h : Machine.Tracked p m bases) :
    ∃ base rest, bases = base :: rest ∧ Balanced ann p m base rest := by
  induction h with
  | load m =>
    refine ⟨0, [], rfl, rfl, hsize, Machine.within_load m p, .bottom, ?_⟩
    have hstart : (level 0 false).Holds 0 [] [] := ⟨rfl, rfl, fun _ hl => by cases hl⟩
    exact hstart.of_implies h0
  | call _ hi hs ih =>
    obtain ⟨base, rest, rfl, hb⟩ := ih
    obtain ⟨-, i, hi', he⟩ := Machine.effect_of_step hs
    obtain rfl := Option.some.inj (hi.symm.trans hi')
    exact ⟨_, _, rfl, hb.effect_call hann hi he⟩
  | ret _ hi hs ih =>
    obtain ⟨base, rest, rfl, hb⟩ := ih
    obtain ⟨-, i, hi', he⟩ := Machine.effect_of_step hs
    obtain rfl := Option.some.inj (hi.symm.trans hi')
    exact hb.effect_ret hann hi he
  | other _ hcall hret hs ih =>
    obtain ⟨base, rest, rfl, hb⟩ := ih
    obtain ⟨-, i, hi, he⟩ := Machine.effect_of_step hs
    exact ⟨base, rest, rfl, hb.effect_other hann hi he (fun n hn => hcall n (hn ▸ hi))
      fun hr => hret (hr ▸ hi)⟩

/-- **The invariant holds throughout the runs of a compiled program.** -/
theorem Program.exists_balanced {tree : List (Expr Symbol)} {p : Program} (h : Program.ofTree tree = .ok p)
    (hfits : ∀ e ∈ tree, e.Fits) : ∃ ann, stackHeights.Annotates p.code ann ∧
    ∀ m bases, Machine.Tracked p m bases → ∃ base rest, bases = base :: rest ∧ Balanced ann p m base rest := by
  obtain ⟨ann, h0, hann⟩ := exists_heights h hfits
  have hsize : 0 < p.code.size := by
    rw [← Array.length_toList, code_of_ofTree h]
    simp [Expr.pieceOfProgram]
  exact ⟨ann, hann, fun m bases => Balanced.of_tracked h0 hann hsize⟩

theorem Suspended.length_eq {addresses bases : List Nat} (h : Suspended ann size addresses bases) :
    bases.length = addresses.length + 1 := by
  induction h with
  | bottom => rfl
  | call _ _ _ ih => simpa using ih

section Consequences

variable {p : Program} {m m' : Machine} {base : Nat} {bases : List Nat}

theorem Stack.exists_append {s : Stack} {n : Nat} (h : n ≤ s.length) :
    ∃ ops rest, s = ops ++ rest ∧ ops.length = n :=
  ⟨s.take n, s.drop n, (List.take_append_drop n s).symm, List.length_take_of_le h⟩

/-- As many values as the instruction takes are enough. -/
theorem Instr.fed_of_takes {i : Instr Nat} {s : Stack} (hi : i.Plain ∨ i.combine [] ≠ none)
    (h : i.takes ≤ s.length) : i.Fed s := by
  obtain ⟨ops, rest, rfl, hops⟩ := Stack.exists_append h
  cases i with
  | push l => exact ⟨[], _, rfl, rfl⟩
  | pushUnit => exact ⟨[], _, rfl, rfl⟩
  | makeFunction entry arity => exact ⟨[], _, rfl, rfl⟩
  | binary op =>
    obtain ⟨y, x, rfl⟩ := List.length_eq_two.mp hops
    exact ⟨[y, x], rest, rfl, rfl⟩
  | unary op =>
    obtain ⟨x, rfl⟩ := List.length_eq_one_iff.mp hops
    exact ⟨[x], rest, rfl, rfl⟩
  | strCat n =>
    have hlen : ops.length = n := hops
    exact ⟨ops, rest, rfl, by rw [combine, if_pos hlen]; rfl⟩
  | strSlice =>
    obtain ⟨step, ops, rfl⟩ := List.exists_cons_of_length_eq_add_one hops
    obtain ⟨stop, start, x, rfl⟩ := List.length_eq_three.mp (Nat.succ.inj hops)
    exact ⟨[step, stop, start, x], rest, rfl, rfl⟩
  | listFill =>
    obtain ⟨size, x, rfl⟩ := List.length_eq_two.mp hops
    exact ⟨[size, x], rest, rfl, rfl⟩
  | query op =>
    obtain ⟨x, rfl⟩ := List.length_eq_one_iff.mp hops
    exact ⟨[x], rest, rfl, rfl⟩
  | update op =>
    obtain ⟨y, x, rfl⟩ := List.length_eq_two.mp hops
    exact ⟨[y, x], rest, rfl, rfl⟩
  | find =>
    obtain ⟨y, x, rfl⟩ := List.length_eq_two.mp hops
    exact ⟨[y, x], rest, rfl, rfl⟩
  | put =>
    obtain ⟨z, y, x, rfl⟩ := List.length_eq_three.mp hops
    exact ⟨[z, y, x], rest, rfl, rfl⟩
  | pop => exact List.ne_nil_of_length_pos h
  | dup => exact List.ne_nil_of_length_pos h
  | store id => exact List.ne_nil_of_length_pos h
  | print n => exact h
  | call n => exact h
  | load id => trivial
  | _ => simp [Plain, combine] at hi

/-- A valid count lies on top of its elements, in the running activation. -/
theorem Balanced.buildList (h : Balanced ann p m base bases) (hann : stackHeights.Annotates p.code ann)
    (hi : m.current? = some .buildList) : ∃ x n rest, m.stack = .num x :: rest ∧
      Stack.count? x = some n ∧ base + n ≤ rest.length := by
  obtain ⟨b, ⟨k, x, n, htop, hcount, hk, -⟩, -⟩ := h.admits hann hi
  obtain ⟨rest, hrest⟩ := List.head?_eq_some_iff.mp (h.holds.top _ htop)
  have hheight := h.holds.height
  rw [hrest, List.length_cons] at hheight
  exact ⟨x, n, rest, hrest, hcount, by omega⟩

/-- A valid count lies on top of twice as many values, in the running activation. -/
theorem Balanced.buildMap (h : Balanced ann p m base bases) (hann : stackHeights.Annotates p.code ann)
    (hi : m.current? = some .buildMap) : ∃ x n rest, m.stack = .num x :: rest ∧
      Stack.count? x = some n ∧ 2 * n < wordSize ∧ base + 2 * n ≤ rest.length := by
  obtain ⟨b, ⟨k, x, n, htop, hcount, hlt, hk, -⟩, -⟩ := h.admits hann hi
  obtain ⟨rest, hrest⟩ := List.head?_eq_some_iff.mp (h.holds.top _ htop)
  have hheight := h.holds.height
  rw [hrest, List.length_cons] at hheight
  exact ⟨x, n, rest, hrest, hcount, hlt, by omega⟩

/-- Instructions find their operands in the running activation. -/
theorem Balanced.fed (h : Balanced ann p m base bases) (hann : stackHeights.Annotates p.code ann)
    {i : Instr Nat} (hi : m.current? = some i) : i.Fed m.stack := by
  have hheight := h.holds.height
  have hadmits := h.admits hann hi
  cases i with
  | push l => exact Instr.fed_of_takes (.inr (by simp [Instr.combine])) (Nat.zero_le _)
  | makeFunction entry arity =>
    exact Instr.fed_of_takes (.inr (by simp [Instr.combine])) (Nat.zero_le _)
  | jump => trivial
  | ret => trivial
  | halt => trivial
  | jumpIf sense target =>
    obtain ⟨b, ⟨k, hk, -⟩, -⟩ := hadmits
    simp only [Instr.takes] at hk
    exact List.ne_nil_of_length_pos (by omega)
  | buildList =>
    obtain ⟨x, n, rest, hs, hcount, hlen⟩ := h.buildList hann hi
    obtain ⟨elems, rest, rfl, rfl⟩ := Stack.exists_append (s := rest) (n := n) (by omega)
    exact ⟨.num x :: elems, rest, hs, by rw [Instr.combine, if_pos hcount]; rfl⟩
  | buildMap =>
    obtain ⟨x, n, rest, hs, hcount, hlt, hlen⟩ := h.buildMap hann hi
    obtain ⟨flat, rest, rfl, hflat⟩ := Stack.exists_append (s := rest) (n := 2 * n) (by omega)
    refine ⟨.num x :: flat, rest, hs, ?_⟩
    rw [Instr.combine, hcount, Option.map_some, Nat.mod_eq_of_lt hlt, if_pos (by rw [hflat])]
    rfl
  | _ =>
    obtain ⟨b, ⟨k, hk, -⟩, -⟩ := hadmits
    exact Instr.fed_of_takes (.inl trivial) (by omega)

/-- Balanced machines fail for other reasons than a missing operand or call. -/
theorem Balanced.error (h : Balanced ann p m base bases) (hann : stackHeights.Annotates p.code ann)
    {e : RunError} (hs : m.step = (.error e, m')) : e ≠ .stackUnderflow ∧ e ≠ .returnOutsideFunction := by
  rcases Machine.fault_of_step hs with ⟨-, rfl⟩ | ⟨-, rfl⟩ | ⟨i, hi, hf⟩
  · exact ⟨by simp, by simp⟩
  · exact ⟨by simp, by simp⟩
  cases hf with
  | starved hstarved => exact absurd (h.fed hann hi) hstarved
  | operation hs hc =>
    have hgives : Gives (Value.Within (Entered ann p.code.size)) (.error e) :=
      gives_combine hc (fun v hv => h.within.stack v (by simp [hs, hv])) (h.entered hann hi)
    constructor <;> (rintro rfl; exact hgives)
  | outside hnil =>
    obtain ⟨b, -, hinside⟩ := h.admits hann hi
    rw [h.holds.inside, Memory.addresses, hnil] at hinside
    cases hinside
  | _ => exact ⟨by simp [RunError.mismatch], by simp [RunError.mismatch]⟩

end Consequences

/-- **Stack discipline.** Every position of a compiled program has a height, which is that of the stack
above the base of the running activation whenever control is there. Hence no instruction lacks operands,
counts are as they have to be, and the program ends outside of all calls with its result alone. -/
theorem Program.stack_discipline {tree : List (Expr Symbol)} {p : Program}
    (h : Program.ofTree tree = .ok p) (hfits : ∀ e ∈ tree, e.Fits) :
    (∃ heights : Nat → Nat, ∀ m bases, Machine.Tracked p m bases → ∃ base rest, bases = base :: rest ∧
      rest.length = m.memory.depth ∧ m.stack.length = base + heights m.ip) ∧
    ∀ m, Machine.Reachable p m →
      (∃ bases, Machine.Tracked p m bases) ∧
      (∀ e m', m.step = (.error e, m') → e ≠ .stackUnderflow ∧ e ≠ .returnOutsideFunction) ∧
      (m.current? = some .buildList → ∃ x n rest, m.stack = .num x :: rest ∧
        Stack.count? x = some n ∧ n ≤ rest.length) ∧
      (m.current? = some .buildMap → ∃ x n rest, m.stack = .num x :: rest ∧
        Stack.count? x = some n ∧ 2 * n < wordSize ∧ 2 * n ≤ rest.length) ∧
      (m.current? = some .halt → m.memory.frames = [] ∧ m.stack.length = 1) := by
  obtain ⟨ann, hann, hinv⟩ := exists_balanced h hfits
  refine ⟨⟨fun i => (ann i).height, fun m bases ht => ?_⟩, fun m hm => ?_⟩
  · obtain ⟨base, rest, rfl, hb⟩ := hinv m bases ht
    refine ⟨base, rest, rfl, ?_, hb.holds.height⟩
    simpa [Memory.addresses, Memory.depth] using hb.suspended.length_eq
  · obtain ⟨bases, ht⟩ := Machine.exists_tracked hm
    obtain ⟨base, rest, rfl, hb⟩ := hinv m bases ht
    refine ⟨⟨_, ht⟩, fun e m' hs => hb.error hann hs, fun hi => ?_, fun hi => ?_, fun hi => ?_⟩
    · obtain ⟨x, n, rest, hs, hcount, hlen⟩ := hb.buildList hann hi
      exact ⟨x, n, rest, hs, hcount, by omega⟩
    · obtain ⟨x, n, rest, hs, hcount, hlt, hlen⟩ := hb.buildMap hann hi
      exact ⟨x, n, rest, hs, hcount, hlt, by omega⟩
    · obtain ⟨b, hone, hout⟩ := hb.admits hann hi
      have hsuspended := hb.suspended
      have hnil : m.memory.addresses = [] := by simpa [hout] using hb.holds.inside
      rw [hnil] at hsuspended
      cases hsuspended
      refine ⟨by simpa [Memory.addresses] using hnil, ?_⟩
      rw [hb.holds.height, hone]

/-- A loop that defines and calls a function, which answers with a list. -/
def sampleLoop : List (Expr Symbol) :=
  [.loop (.literal (.bool true))
    [.function ⟨"f", 0⟩ [⟨"x", 1⟩] [] (.list [.var ⟨"x", 1⟩, .literal (.bool true)]),
      .call ⟨"f", 0⟩ [.literal (.bool false)]]]

theorem Program.stack_discipline_loop :
    ∃ p, Program.ofTree sampleLoop = .ok p ∧
      ∃ heights : Nat → Nat, ∀ m bases, Machine.Tracked p m bases → ∃ base rest, bases = base :: rest ∧
        rest.length = m.memory.depth ∧ m.stack.length = base + heights m.ip := by
  have hplaces : ∀ e ∈ sampleLoop, e.Assignable := by decide
  have hfits : ∀ e ∈ sampleLoop, e.Fits := by decide
  obtain ⟨b, -, hp⟩ := Program.ofTree_eq_ok hplaces
  exact ⟨_, hp, (Program.stack_discipline hp hfits).1⟩

end ExactScript
