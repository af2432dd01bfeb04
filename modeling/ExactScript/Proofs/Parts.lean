import ExactScript.Proofs.Piece

/-!
# Code part by part

The code of a tree is joined from the code of its subtrees and a few instructions of its own. So what is kept
when pieces are joined, and holds of the instructions that stand between the parts, holds of the code of every
tree. Of the instructions, those that push a constant come from a literal of the tree, or count something; calls
come from calls of the tree. Jumps only occur where alternatives, loops and functions are joined.

## Contents
* `Instr.Accounted`, what a single instruction owes to the tree, and `Expr.cycle?`, what the code of a loop repeats;
* `Piece.Structural`, what is asked of a property of code, joint by joint, with `Piece.Structural.piece` and
  `Piece.Structural.program`, the induction over trees;
* `Piece.Compositional`, for properties that single jumps have, with `Piece.Compositional.piece` and
  `Piece.Compositional.program`.
-/

namespace ExactScript

open ExactScript.Expr (pieceOfBlock pieceOfStatements pieceOfAll pieceOfReversed pieceOfEntries)

/-- The body of a function is a block that ends with the result. -/
theorem Expr.pieceOfBlock_concat (es : List (Expr Symbol)) (e : Expr Symbol) :
    pieceOfBlock (es ++ [e]) = pieceOfStatements es ++ e.piece := by
  induction es with
  | nil => rw [List.nil_append, pieceOfBlock, pieceOfStatements, Piece.nil_append]
  | cons d es ih =>
    rw [pieceOfStatements, Piece.append_assoc, Piece.append_assoc, ← ih]
    cases es <;> rfl

/-- An instruction outside of a joint: constants and calls have a tree with the property `K` that they come from,
and there are no jumps, functions and returns. -/
@[simp] def Instr.Accounted (K : Expr Symbol → Prop) : Instr Nat → Prop
  | push l => K (.literal l) ∨ ∃ n, l = .num (.ofNat n)
  | call _ => ∃ callee args, K (.call callee args)
  | jump _ | jumpIf _ _ | makeFunction _ _ | ret => False
  | _ => True

/-- The number that leaves a count is accounted for. -/
theorem accounted_countCode {K : Expr Symbol → Prop} (n : Nat) : (countCode n).Accounted K := .inr ⟨n, rfl⟩

/-- The test and the body that are repeated when the tree is a loop. -/
def Expr.cycle? : Expr Symbol → Option (Piece × Piece)
  | loop test body => some (test.piece, pieceOfBlock body ++ .ofList [.pop])
  | count _ _ test advance body =>
    some (test.piece, pieceOfBlock body ++ (.ofList [.pop] ++ (advance.piece ++ .ofList [.pop])))
  | _ => none

namespace Piece

/-- A property `C` of code that passes from the parts to the whole, in trees with the property `K`. -/
structure Structural (C : Piece → Prop) (K : Expr Symbol → Prop) : Prop where
  child : ∀ {e c : Expr Symbol}, K e → c ∈ e.children → K c
  list : ∀ {is : List (Instr Nat)}, (∀ i ∈ is, i.Accounted K) → C (ofList is)
  append : ∀ {p q : Piece}, C p → C q → C (p ++ q)
  logical : ∀ {decisive : Bool} {left right : Piece}, C left → C right → C (.logical decisive left right)
  cond : ∀ {test yes no : Piece}, C test → C yes → C no → C (.cond test yes no)
  loop : ∀ {e : Expr Symbol} {test body : Piece}, K e → e.cycle? = some (test, body) → C test → C body →
    C (.loop test body)
  function : ∀ {name params body ret}, K (.function name params body ret) →
    C (pieceOfBlock (body ++ [ret])) →
    C (.function name params (body ++ [ret]) (pieceOfBlock (body ++ [ret])))

namespace Structural

variable {C : Piece → Prop} {K : Expr Symbol → Prop} (h : Structural C K)

include h

/-- A piece with instructions behind it. -/
theorem followed {p : Piece} {is : List (Instr Nat)} (hp : C p) (his : ∀ i ∈ is, i.Accounted K) :
    C (p ++ ofList is) :=
  h.append hp (h.list his)

/-- A piece with instructions in front of it. -/
theorem preceded {p : Piece} {is : List (Instr Nat)} (his : ∀ i ∈ is, i.Accounted K) (hp : C p) :
    C (ofList is ++ p) :=
  h.append (h.list his) hp

section Lists

variable {es : List (Expr Symbol)}

theorem all (hes : ∀ e ∈ es, C e.piece) : C (pieceOfAll es) := by
  induction es with
  | nil => exact h.list (by simp)
  | cons e es ih =>
    obtain ⟨he, hes⟩ := List.forall_mem_cons.mp hes
    exact h.append he (ih hes)

theorem reversed (hes : ∀ e ∈ es, C e.piece) : C (pieceOfReversed es) := by
  induction es with
  | nil => exact h.list (by simp)
  | cons e es ih =>
    obtain ⟨he, hes⟩ := List.forall_mem_cons.mp hes
    exact h.append (ih hes) he

theorem block (hes : ∀ e ∈ es, C e.piece) : C (pieceOfBlock es) := by
  induction es with
  | nil => exact h.list (by simp)
  | cons e es ih =>
    obtain ⟨he, hes⟩ := List.forall_mem_cons.mp hes
    cases es with
    | nil => exact he
    | cons f es => exact h.append he (h.preceded (by simp) (ih hes))

theorem entries {es : List (Expr Symbol × Expr Symbol)} (hes : ∀ kv ∈ es, C kv.1.piece ∧ C kv.2.piece) :
    C (pieceOfEntries es) := by
  induction es with
  | nil => exact h.list (by simp)
  | cons kv es ih =>
    obtain ⟨⟨hk, hv⟩, hes⟩ := List.forall_mem_cons.mp hes
    exact h.append hk (h.append hv (ih hes))

end Lists

/-- What is shown of every tree: its own code, and its code as a target whose element is set. -/
structure Parts (C : Piece → Prop) (K : Expr Symbol → Prop) (e : Expr Symbol) : Prop where
  value : K e → C e.piece
  target : ∀ {k v}, K e → C k → C v → C (e.pieceOfPut k v)

theorem parts (e : Expr Symbol) : Parts C K e := by
  -- what is no place has no code as a target
  have hplain : ∀ {e : Expr Symbol}, (∀ k v, e.pieceOfPut k v = .ofList []) → (K e → C e.piece) →
      Parts C K e := fun hput hvalue =>
    ⟨hvalue, fun _ _ _ => by rw [hput]; exact h.list (by simp)⟩
  have hchild : ∀ {e c : Expr Symbol}, Parts C K c → K e → c ∈ e.children → C c.piece :=
    fun hc he hmem => hc.value (h.child he hmem)
  induction e using Expr.induct with
  | literal l =>
    exact hplain (fun _ _ => rfl) fun hl => h.list (List.forall_mem_singleton.mpr (.inl hl))
  | var x =>
    exact ⟨fun _ => h.list (by simp), fun _ hk hv =>
      h.preceded (by simp) (h.append hk (h.followed hv (by simp)))⟩
  | declare x value hv =>
    exact hplain (fun _ _ => rfl) fun he => h.followed (hchild hv he (by simp [Expr.children])) (by simp)
  | assign x value hv =>
    exact hplain (fun _ _ => rfl) fun he => h.followed (hchild hv he (by simp [Expr.children])) (by simp)
  | letIn x value body hv hb =>
    exact hplain (fun _ _ => rfl) fun he => h.append (hchild hv he (by simp [Expr.children]))
      (h.preceded (by simp) (hchild hb he (by simp [Expr.children])))
  | unary op operand ho =>
    exact hplain (fun _ _ => rfl) fun he => h.followed (hchild ho he (by simp [Expr.children])) (by simp)
  | binary op left right hl hr =>
    exact hplain (fun _ _ => rfl) fun he => h.append (hchild hl he (by simp [Expr.children]))
      (h.followed (hchild hr he (by simp [Expr.children])) (by simp))
  | logical op left right hl hr =>
    exact hplain (fun _ _ => rfl) fun he => h.logical (hchild hl he (by simp [Expr.children]))
      (hchild hr he (by simp [Expr.children]))
  | block body hb =>
    exact hplain (fun _ _ => rfl) fun he => h.block fun c hc => hchild (hb c hc) he hc
  | cond test yes no ht hy hn =>
    refine hplain (fun _ _ => rfl) fun he => h.cond (hchild ht he (by simp [Expr.children]))
      (h.block fun c hc => hchild (hy c hc) he (by simp [Expr.children, hc])) ?_
    cases no with
    | none => exact h.list (by simp)
    | some body => exact h.block fun c hc => hchild (hn body rfl c hc) he (by simp [Expr.children, hc])
  | loop test body ht hb =>
    exact hplain (fun _ _ => rfl) fun he => h.loop he rfl (hchild ht he (by simp [Expr.children]))
      (h.followed (h.block fun c hc => hchild (hb c hc) he (by simp [Expr.children, hc])) (by simp))
  | count x init test advance body hi ht ha hb =>
    refine hplain (fun _ _ => rfl) fun he => h.append (hchild hi he (by simp [Expr.children])) ?_
    have hbody : C (pieceOfBlock body) :=
      h.block fun c hc => hchild (hb c hc) he (by simp [Expr.children, hc])
    exact h.preceded (by simp) (h.loop he rfl (hchild ht he (by simp [Expr.children])) (h.append hbody
      (h.preceded (by simp) (h.followed (hchild ha he (by simp [Expr.children])) (by simp)))))
  | print args ha =>
    exact hplain (fun _ _ => rfl) fun he =>
      h.followed (h.reversed fun c hc => hchild (ha c hc) he hc) (by simp)
  | list elems hes =>
    exact hplain (fun _ _ => rfl) fun he => h.append (h.all fun c hc => hchild (hes c hc) he hc)
      (h.list (List.forall_mem_cons.mpr ⟨accounted_countCode _, by simp⟩))
  | fill value size hv hs =>
    exact hplain (fun _ _ => rfl) fun he => h.append (hchild hv he (by simp [Expr.children]))
      (h.followed (hchild hs he (by simp [Expr.children])) (by simp))
  | map entries hes =>
    refine hplain (fun _ _ => rfl) fun he => h.append (h.entries fun kv hkv => ?_)
      (h.list (List.forall_mem_cons.mpr ⟨accounted_countCode _, by simp⟩))
    exact ⟨hchild (hes kv hkv).1 he (List.mem_flatMap.mpr ⟨kv, hkv, by simp⟩),
      hchild (hes kv hkv).2 he (List.mem_flatMap.mpr ⟨kv, hkv, by simp⟩)⟩
  | query op target ht =>
    exact hplain (fun _ _ => rfl) fun he => h.followed (hchild ht he (by simp [Expr.children])) (by simp)
  | update op target arg ht ha =>
    refine hplain (fun _ _ => rfl) fun he => h.append (hchild ht he (by simp [Expr.children]))
      (h.followed (hchild ha he (by simp [Expr.children])) ?_)
    cases target <;> simp [restoreCode]
  | index target key ht hk =>
    have helem : K (.index target key) → C target.piece ∧ C key.piece := fun he =>
      ⟨hchild ht he (by simp [Expr.children]), hchild hk he (by simp [Expr.children])⟩
    refine ⟨fun he => h.append (helem he).1 (h.followed (helem he).2 (by simp)), fun he hk' hv => ?_⟩
    exact ht.target (h.child he (by simp [Expr.children])) (helem he).2 (h.append (helem he).1
      (h.append (helem he).2 (h.preceded (by simp) (h.append hk' (h.followed hv (by simp))))))
  | put target key value ht hk hv =>
    exact hplain (fun _ _ => rfl) fun he => ht.target (h.child he (by simp [Expr.children]))
      (hchild hk he (by simp [Expr.children])) (hchild hv he (by simp [Expr.children]))
  | concat parts hp =>
    exact hplain (fun _ _ => rfl) fun he =>
      h.followed (h.reversed fun c hc => hchild (hp c hc) he hc) (by simp)
  | slice target start stop step ht hs hp hst =>
    refine hplain (fun _ _ => rfl) fun he => h.append (hchild ht he (by simp [Expr.children]))
      (h.append (hchild hs he (by simp [Expr.children]))
        (h.append (hchild hp he (by simp [Expr.children])) (h.followed ?_ (by simp))))
    cases step with
    | none => exact h.list (List.forall_mem_singleton.mpr (accounted_countCode 1))
    | some e => exact hchild (hst e rfl) he (by simp [Expr.children])
  | function name params body ret hb hr =>
    refine hplain (fun _ _ => rfl) fun he => ?_
    have hbody : C (pieceOfBlock (body ++ [ret])) := h.block fun c hc => by
      rcases List.mem_append.mp hc with hmem | hmem
      · exact hchild (hb c hmem) he hc
      · exact List.mem_singleton.mp hmem ▸ hchild hr he (by simp [Expr.children])
    rw [Expr.piece, ← Expr.pieceOfBlock_concat]
    exact h.function he hbody
  | call callee args ha =>
    exact hplain (fun _ _ => rfl) fun he =>
      h.followed (h.all fun c hc => hchild (ha c hc) he hc) (by simpa using ⟨callee, args, he⟩)

/-- **The code of a tree** has the property. -/
theorem piece {e : Expr Symbol} (he : K e) : C e.piece := (h.parts e).value he

/-- **The code of a program** has the property. -/
theorem program {tree : List (Expr Symbol)} (ht : ∀ e ∈ tree, K e) : C (Expr.pieceOfProgram tree) :=
  h.followed (h.block fun e he => h.piece (ht e he)) (by simp)

end Structural

/-! ## Properties of single instructions -/

/-- A property `C` of code that passes from the parts to the whole, in trees with the property `K`. -/
structure Compositional (C : Piece → Prop) (K : Expr Symbol → Prop) : Prop where
  child : ∀ {e c : Expr Symbol}, K e → c ∈ e.children → K c
  list : ∀ {is : List (Instr Nat)},
    (∀ l, .push l ∈ is → K (.literal l) ∨ ∃ n, l = .num (.ofNat n)) → C (ofList is)
  jumping : ∀ {f : Nat → Instr Nat}, (∀ i l, f i ≠ .push l) → C (.jumping f)
  append : ∀ {p q : Piece}, C p → C q → C (p ++ q)
  function : ∀ {name params body ret}, K (.function name params body ret) →
    C (pieceOfBlock (body ++ [ret])) →
    C (.function name params (body ++ [ret]) (pieceOfBlock (body ++ [ret])))

namespace Compositional

variable {C : Piece → Prop} {K : Expr Symbol → Prop} (h : Compositional C K)

include h

/-- A jump between two pieces. -/
theorem around {p q : Piece} {f : Nat → Instr Nat} (hp : C p) (hf : ∀ i l, f i ≠ .push l) (hq : C q) :
    C (p ++ (.jumping f ++ q)) :=
  h.append hp (h.append (h.jumping hf) hq)

/-- Joints are rows of parts and of single instructions. -/
theorem structural : Structural C K where
  child := h.child
  list his := h.list fun _ hl => his _ hl
  append := h.append
  logical hl hr := h.append hl (h.append (h.list (by simp))
    (h.append (h.jumping (by simp)) (h.append (h.list (by simp)) hr)))
  cond ht hy hn := h.around ht (by simp) (h.around hy (by simp) hn)
  loop _ _ ht hb := h.around ht (by simp) (h.around hb (by simp) (h.list (by simp)))
  function := h.function

/-- **The code of a tree** has the property. -/
theorem piece {e : Expr Symbol} (he : K e) : C e.piece := h.structural.piece he

/-- **The code of a program** has the property. -/
theorem program {tree : List (Expr Symbol)} (ht : ∀ e ∈ tree, K e) : C (Expr.pieceOfProgram tree) :=
  h.structural.program ht

end Compositional

end Piece

end ExactScript
