import ExactScript.Machine

/-!
# What instructions do

The machine runs each instruction as a chain of actions that may stop anywhere. Here are the outcomes of
such chains in one piece: most instructions make one value of the values on top of the stack; the others
have an effect of their own. Proofs about runs start from `effect_of_exec` and `fault_of_exec`, and never
open an action again.

## Contents
* `Instr.combine`, the value that is made of operands, and `exec_of_combine`;
* `Effect`, every way to go on, `Fault`, every way to fail, and `of_done_step`, the way to end;
* `Composes`, what instructions are put together of, for properties of every instruction;
* `Steps`, a number of steps in a row, `Steps.of_after` to compute them, and `execute` in their terms.
-/

namespace ExactScript

/-! ## Operands -/

namespace Value

/-- The part of a value that should be a string. -/
def sliced (target start stop step : Value) : Except RunError Value :=
  match target with
  | .str s => slice s start stop step
  | other => .error (.mismatch "STR_SLICE" "str" other)

/-- The list of copies of a value, as many as another value counts. -/
def filled (v size : Value) : Except RunError Value :=
  match size with
  | .num n =>
    match Stack.count? n with
    | some k => v.replicate k
    | none => .error (.unsupported "LIST_FILL" (.invalidCount n))
  | other => .error (.mismatch "LIST_FILL" "num" other)

end Value

namespace Instr

/-- What the instruction makes of its operands, the topmost first, if these are all that it takes. -/
def combine : Instr Nat → List Value → Option (Except RunError Value)
  | push l, [] => some (.ok (.ofLiteral l))
  | pushUnit, [] => some (.ok .unit)
  | binary op, [r, l] => some (op.apply l r)
  | unary op, [v] => some (op.apply v)
  | strCat n, parts => if parts.length = n then some (Value.concat parts) else none
  | strSlice, [step, stop, start, target] => some (target.sliced start stop step)
  | buildList, .num n :: elems =>
    if Stack.count? n = some elems.length then some (.ok (.list elems.reverse)) else none
  | buildMap, .num n :: flat =>
    if (Stack.count? n).map (2 * · % wordSize) = some flat.length then some (Value.ofFlat flat.reverse)
    else none
  | listFill, [size, v] => some (v.filled size)
  | query op, [v] => some (op.apply v)
  | update op, [arg, coll] => some (op.apply coll arg)
  | find, [key, coll] => some (coll.find key)
  | put, [v, key, coll] => some (coll.put key v)
  | makeFunction entry arity, [] => some (.ok (.function ⟨entry, arity⟩))
  | _, _ => none

/-- The instruction makes `r` of these operands, one case for each kind of instruction. -/
inductive Combination : Instr Nat → List Value → Except RunError Value → Prop
  | push (l : Literal) : Combination (.push l) [] (.ok (.ofLiteral l))
  | pushUnit : Combination .pushUnit [] (.ok .unit)
  | binary (op : BinaryOp) (r l : Value) : Combination (.binary op) [r, l] (op.apply l r)
  | unary (op : UnaryOp) (v : Value) : Combination (.unary op) [v] (op.apply v)
  | strCat (parts : List Value) : Combination (.strCat parts.length) parts (Value.concat parts)
  | strSlice (step stop start target : Value) :
    Combination .strSlice [step, stop, start, target] (target.sliced start stop step)
  | buildList {n : Fraction} {elems : List Value} (h : Stack.count? n = some elems.length) :
    Combination .buildList (.num n :: elems) (.ok (.list elems.reverse))
  | buildMap {n : Fraction} {flat : List Value}
    (h : (Stack.count? n).map (2 * · % wordSize) = some flat.length) :
    Combination .buildMap (.num n :: flat) (Value.ofFlat flat.reverse)
  | listFill (size v : Value) : Combination .listFill [size, v] (v.filled size)
  | query (op : QueryOp) (v : Value) : Combination (.query op) [v] (op.apply v)
  | update (op : UpdateOp) (arg coll : Value) : Combination (.update op) [arg, coll] (op.apply coll arg)
  | find (key coll : Value) : Combination .find [key, coll] (coll.find key)
  | put (v key coll : Value) : Combination .put [v, key, coll] (coll.put key v)
  | makeFunction (entry arity : Nat) :
    Combination (.makeFunction entry arity) [] (.ok (.function ⟨entry, arity⟩))

theorem combination_of_combine {i : Instr Nat} {ops : List Value} {r : Except RunError Value}
    (h : i.combine ops = some r) : Combination i ops r := by
  unfold combine at h
  split at h
  case h_5 =>
    simp only [Option.ite_none_right_eq_some, Option.some.injEq] at h
    obtain ⟨rfl, rfl⟩ := h
    exact .strCat _
  case h_7 =>
    simp only [Option.ite_none_right_eq_some, Option.some.injEq] at h
    obtain ⟨hn, rfl⟩ := h
    exact .buildList hn
  case h_8 =>
    simp only [Option.ite_none_right_eq_some, Option.some.injEq] at h
    obtain ⟨hn, rfl⟩ := h
    exact .buildMap hn
  all_goals
    cases h
    try constructor

/-- The stack holds everything that the instruction takes. -/
def Fed (stack : Stack) : Instr Nat → Prop
  | pop => stack ≠ []
  | dup => stack ≠ []
  | store _ => stack ≠ []
  | jumpIf _ _ => stack ≠ []
  | print n => n ≤ stack.length
  | call n => n < stack.length
  | load _ => True
  | jump _ => True
  | ret => True
  | halt => True
  | i => ∃ ops s, stack = ops ++ s ∧ (i.combine ops).isSome

end Instr

/-! ## Parts of instructions -/

namespace Stack

variable {ops s : Stack} {n : Nat} {x : Fraction} {op : String}

theorem popMany_append (h : ops.length = n) : popMany n (ops ++ s) = .ok ops s := by
  have hlt : ¬(ops ++ s).length < n := by simp [h]
  subst h
  simp only [popMany, if_neg hlt, List.take_left, List.drop_left]

theorem takeTop_append (h : ops.length = n) : takeTop n (ops ++ s) = .ok ops.reverse s := by
  simp [takeTop, bind, EStateM.bind, popMany_append h, pure, EStateM.pure]

theorem popCount_num (h : count? x = some n) : popCount op (.num x :: s) = .ok n s := by
  simp [popCount, popNum, pop, bind, EStateM.bind, pure, EStateM.pure, h]

theorem count?_ofNat (h : n < wordSize) : count? (.ofNat n) = some n := by
  have hnum : 0 ≤ (Fraction.ofNat n).num ∧ (Fraction.ofNat n).num < wordSize :=
    ⟨Int.natCast_nonneg n, Int.ofNat_lt.mpr h⟩
  have hword : (Fraction.ofNat n).toWord? = some n := if_pos hnum
  exact (if_pos rfl).trans hword

theorem of_popMany {vs t : Stack} (h : popMany n s = .ok vs t) : s = vs ++ t ∧ vs.length = n := by
  unfold popMany at h
  split at h
  · cases h
  · next hn =>
    cases h
    exact ⟨(List.take_append_drop n s).symm, List.length_take_of_le (Nat.le_of_not_lt hn)⟩

theorem of_takeTop {vs t : Stack} (h : takeTop n s = .ok vs t) :
    s = vs.reverse ++ t ∧ vs.length = n := by
  cases hp : popMany n s with
  | ok us u =>
    simp only [takeTop, bind, EStateM.bind, hp, pure, EStateM.pure] at h
    cases h
    obtain ⟨hs, hn⟩ := of_popMany hp
    exact ⟨by rw [List.reverse_reverse, hs], by rw [List.length_reverse, hn]⟩
  | error e u =>
    simp only [takeTop, bind, EStateM.bind, hp] at h
    cases h

theorem of_popCount {t : Stack} (h : popCount op s = .ok n t) :
    ∃ x, s = .num x :: t ∧ count? x = some n := by
  match s, h with
  | .num x :: s, h =>
    cases hx : count? x with
    | some k =>
      rw [popCount_num hx] at h
      cases h
      exact ⟨x, rfl, hx⟩
    | none =>
      simp only [popCount, popNum, pop, bind, EStateM.bind, pure, EStateM.pure, hx] at h
      cases h

theorem of_popStr {text : String} {t : Stack} (h : popStr op s = .ok text t) : s = .str text :: t := by
  match s, h with
  | .str _ :: _, rfl => rfl

theorem of_popBool {b : Bool} {t : Stack} (h : popBool op s = .ok b t) : s = .bool b :: t := by
  match s, h with
  | .bool _ :: _, rfl => rfl

end Stack

section Counted

variable {vs : List Value} {n : Nat}

/-- The list of as many values as the count says. -/
theorem Instr.combine_buildList (hlength : vs.length = n) (hn : n < wordSize) :
    Instr.combine .buildList (.ofNat n :: vs.reverse) = some (.ok (.list vs)) := by
  rw [Value.ofNat, combine, Stack.count?_ofNat hn, List.length_reverse, hlength, if_pos rfl, List.reverse_reverse]

/-- The map of as many entries as the count says. -/
theorem Instr.combine_buildMap (hlength : vs.length = 2 * n) (hn : 2 * n < wordSize) :
    Instr.combine .buildMap (.ofNat n :: vs.reverse) = some (Value.ofFlat vs) := by
  rw [Value.ofNat, combine, Stack.count?_ofNat (by omega), List.length_reverse, hlength, Option.map_some,
    Nat.mod_eq_of_lt hn, if_pos rfl, List.reverse_reverse]

end Counted

namespace Memory

/-- Where the calls in progress return to, the innermost first. -/
def addresses (m : Memory) : List Nat := m.frames.map Frame.returnAddress

@[simp] theorem addresses_empty : Memory.empty.addresses = [] := rfl

@[simp] theorem addresses_store (m : Memory) (id : Nat) (v : Value) :
    (m.store id v).addresses = m.addresses := by
  unfold store
  split
  · rfl
  · next f rest hf =>
    split
    · rfl
    · simp [addresses, hf]

@[simp] theorem addresses_pushFrame (m : Memory) (f : Frame) :
    (m.pushFrame f).addresses = f.returnAddress :: m.addresses := rfl

theorem addresses_of_popFrame {m m' : Memory} {f : Frame} (h : m.popFrame? = some (f, m')) :
    m.addresses = f.returnAddress :: m'.addresses := by
  unfold popFrame? at h
  split at h
  · cases h
  · next g rest hg =>
    cases h
    simp [addresses, hg]

end Memory

namespace Machine

variable {m m' : Machine} {i : Instr Nat} {ops s : List Value} {e : RunError}

theorem bind_onStack {α β : Type} {op : Stack.Op α} {a : α} {k : α → Action β}
    (h : op m.stack = .ok a s) : (onStack op >>= k) m = k a { m with stack := s } := by
  simp only [bind, EStateM.bind, onStack, h]

theorem bind_pop {β : Type} {v : Value} {k : Value → Action β} (h : m.stack = v :: s) :
    (onStack Stack.pop >>= k) m = k v { m with stack := s } :=
  bind_onStack (by rw [h]; rfl)

theorem bind_onStack_error {α β : Type} {op : Stack.Op α} {k : α → Action β}
    (h : op m.stack = .error e s) : (onStack op >>= k) m = .error e { m with stack := s } := by
  simp only [bind, EStateM.bind, onStack, h]

section Writing

variable {β : Type} {k : Unit → Action β} {line : String}

theorem bind_writeLine (h : m.sink = .accepting) :
    (writeLine line >>= k) m = k () { m with output := m.output ++ line ++ "\n" } := by
  simp only [bind, EStateM.bind, writeLine, h]

theorem bind_writeLine_error {reason : String} (h : m.sink = .broken reason) :
    (writeLine line >>= k) m = .error (.output reason) m := by
  simp only [bind, EStateM.bind, writeLine, h]

end Writing

/-- **Instructions that combine their operands.** They go on with the result in the place of the
operands, or fail as the combination does. -/
theorem exec_of_combine {r : Except RunError Value} (hs : m.stack = ops ++ s)
    (hc : i.combine ops = some r) :
    (∃ v, r = .ok v ∧ exec i m = .ok .more { m with stack := v :: s, ip := m.ip + 1 }) ∨
      ∃ e s', r = .error e ∧ exec i m = .error e { m with stack := s' } := by
  have hyield : ∀ t : Stack, ((∃ v, r = .ok v ∧ yield r { m with stack := t } =
      .ok .more { m with stack := v :: t, ip := m.ip + 1 }) ∨
      ∃ e s', r = .error e ∧ yield r { m with stack := t } = .error e { m with stack := s' }) := by
    intro t
    cases r with
    | ok v => exact .inl ⟨v, rfl, rfl⟩
    | error e => exact .inr ⟨e, t, rfl, rfl⟩
  -- enough that the operands come off and the rest of the instruction yields the result
  suffices h : exec i m = yield r { m with stack := s } ∨
      ∃ e s', r = .error e ∧ exec i m = .error e { m with stack := s' } by
    rcases h with h | h
    · rw [h]
      exact hyield s
    · exact .inr h
  cases Instr.combination_of_combine hc with
  | push l => exact .inl (by rw [List.nil_append] at hs; rw [← hs]; rfl)
  | pushUnit => exact .inl (by rw [List.nil_append] at hs; rw [← hs]; rfl)
  | binary op y x => exact .inl ((bind_pop (s := x :: s) hs).trans (bind_pop (s := s) rfl))
  | unary op x => exact .inl (bind_pop hs)
  | strCat => exact .inl (bind_onStack (by rw [hs]; exact Stack.popMany_append rfl))
  | strSlice step stop start target =>
    have hrest : exec .strSlice m = (onStack (Stack.popStr "STR_SLICE") >>= fun text =>
        yield (Value.slice text start stop step)) { m with stack := target :: s } :=
      (bind_pop (s := stop :: start :: target :: s) hs).trans
        ((bind_pop (s := start :: target :: s) rfl).trans (bind_pop (s := target :: s) rfl))
    rw [hrest]
    cases target with
    | str text => exact .inl (bind_onStack rfl)
    | _ => exact .inr ⟨_, s, rfl, bind_onStack_error rfl⟩
  | @buildList n elems hn =>
    have hcount : Stack.popCount "BUILD_LIST" m.stack = .ok elems.length (elems ++ s) := by
      rw [hs]
      exact Stack.popCount_num hn
    exact .inl ((bind_onStack hcount).trans (bind_onStack (Stack.takeTop_append rfl)))
  | @buildMap n flat hn =>
    obtain ⟨k, hn, hk⟩ := Option.map_eq_some_iff.mp hn
    have hcount : Stack.popCount "BUILD_MAP" m.stack = .ok k (flat ++ s) := by
      rw [hs]
      exact Stack.popCount_num hn
    exact .inl ((bind_onStack hcount).trans (bind_onStack (Stack.takeTop_append hk.symm)))
  | listFill size x =>
    cases size with
    | num n =>
      cases hn : Stack.count? n with
      | some k =>
        have hcount : Stack.popCount "LIST_FILL" m.stack = .ok k (x :: s) := by
          rw [hs]
          exact Stack.popCount_num hn
        rw [Value.filled, hn]
        exact .inl ((bind_onStack hcount).trans (bind_pop rfl))
      | none =>
        have hcount : Stack.popCount "LIST_FILL" m.stack =
            .error (.unsupported "LIST_FILL" (.invalidCount n)) (x :: s) := by
          rw [hs]
          simp only [Stack.popCount, Stack.popNum, bind, EStateM.bind, Stack.pop, pure, EStateM.pure,
            List.cons_append, hn]
          rfl
        exact .inr ⟨_, x :: s, by rw [Value.filled, hn], bind_onStack_error hcount⟩
    | _ => exact .inr ⟨_, x :: s, rfl, bind_onStack_error (by rw [hs]; rfl)⟩
  | query op x => exact .inl (bind_pop hs)
  | update op y x => exact .inl ((bind_pop (s := x :: s) hs).trans (bind_pop (s := s) rfl))
  | find y x => exact .inl ((bind_pop (s := x :: s) hs).trans (bind_pop (s := s) rfl))
  | put v y x =>
    exact .inl ((bind_pop (s := y :: x :: s) hs).trans
      ((bind_pop (s := x :: s) rfl).trans (bind_pop (s := s) rfl)))
  | makeFunction entry arity => exact .inl (by rw [List.nil_append] at hs; rw [← hs]; rfl)

/-! ## Going on and failing -/

/-- What an instruction does when it goes on. -/
inductive Effect (m : Machine) : Instr Nat → Machine → Prop
  | compute {i : Instr Nat} (ops : Stack) {s : Stack} {v : Value} (hs : m.stack = ops ++ s)
      (hc : i.combine ops = some (.ok v)) : Effect m i { m with stack := v :: s, ip := m.ip + 1 }
  | pop {v : Value} {s : Stack} (hs : m.stack = v :: s) :
      Effect m .pop { m with stack := s, ip := m.ip + 1 }
  | dup {v : Value} {s : Stack} (hs : m.stack = v :: s) :
      Effect m .dup { m with stack := v :: v :: s, ip := m.ip + 1 }
  | jump {target : Nat} : Effect m (.jump target) { m with ip := target }
  | taken {sense : Bool} {target : Nat} {s : Stack} (hs : m.stack = .bool sense :: s) :
      Effect m (.jumpIf sense target) { m with stack := s, ip := target }
  | passed {sense b : Bool} {target : Nat} {s : Stack} (hs : m.stack = .bool b :: s) (hb : b ≠ sense) :
      Effect m (.jumpIf sense target) { m with stack := s, ip := m.ip + 1 }
  | load {id : Nat} {v : Value} (h : m.memory.load id = some v) :
      Effect m (.load id) { m with stack := v :: m.stack, ip := m.ip + 1 }
  | store {id : Nat} {v : Value} {s : Stack} (hs : m.stack = v :: s) :
      Effect m (.store id) { m with stack := s, memory := m.memory.store id v, ip := m.ip + 1 }
  | print {vs s : Stack} (hs : m.stack = vs ++ s) (hsink : m.sink = .accepting) :
      Effect m (.print vs.length)
        { m with
          stack := .str (" ".intercalate (vs.map Value.display)) :: s
          output := m.output ++ " ".intercalate (vs.map Value.display) ++ "\n"
          ip := m.ip + 1 }
  | call {f : FunctionRef} {s : Stack} (hs : m.stack = .function f :: s)
      (hdepth : m.memory.depth < m.maxCallDepth) (hargs : f.arity ≤ s.length) :
      Effect m (.call f.arity)
        { m with
          stack := s
          memory := m.memory.pushFrame { returnAddress := m.ip + 1, function := f }
          ip := f.entry }
  | ret {frame : Frame} {memory : Memory} (h : m.memory.popFrame? = some (frame, memory)) :
      Effect m .ret { m with memory := memory, ip := frame.returnAddress }

/-- Why an instruction fails. -/
inductive Fault (m : Machine) : Instr Nat → RunError → Prop
  /-- Operands are missing. -/
  | starved {i : Instr Nat} {e : RunError} (h : ¬i.Fed m.stack) : Fault m i e
  | operation {i : Instr Nat} {ops s : Stack} {e : RunError} (hs : m.stack = ops ++ s)
      (hc : i.combine ops = some (.error e)) : Fault m i e
  | condition {sense : Bool} {target : Nat} {v : Value} {s : Stack} (hs : m.stack = v :: s)
      (hv : ∀ b, v ≠ .bool b) : Fault m (.jumpIf sense target)
        (.mismatch (Instr.jumpIf sense target).mnemonic "bool" v)
  | unbound {id : Nat} (h : m.memory.load id = none) :
      Fault m (.load id) (.unboundSymbol (m.program.nameOf? id) id)
  | output {n : Nat} {reason : String} (h : m.sink = .broken reason) : Fault m (.print n) (.output reason)
  | notCallable {n : Nat} {v : Value} {s : Stack} (hs : m.stack = v :: s) (hv : ∀ f, v ≠ .function f) :
      Fault m (.call n) (.notCallable v.kind)
  | arity {n : Nat} {f : FunctionRef} {s : Stack} (hs : m.stack = .function f :: s) (hn : f.arity ≠ n) :
      Fault m (.call n) (.arityMismatch f.arity n)
  | depth {f : FunctionRef} {s : Stack} (hs : m.stack = .function f :: s)
      (h : m.maxCallDepth ≤ m.memory.depth) : Fault m (.call f.arity) (.callDepthExceeded m.maxCallDepth)
  | outside (h : m.memory.frames = []) : Fault m .ret .returnOutsideFunction

theorem Effect.exec_eq (h : Effect m i m') : exec i m = .ok .more m' := by
  cases h with
  | compute _ hs hc =>
    rcases exec_of_combine hs hc with ⟨v, hv, h⟩ | ⟨e, s, he, -⟩
    · cases hv
      exact h
    · cases he
  | pop hs => exact bind_pop hs
  | dup hs => exact bind_onStack (by rw [hs]; rfl)
  | jump => rfl
  | taken hs =>
    refine (bind_onStack (by rw [hs]; rfl)).trans ?_
    rw [if_pos rfl]
    rfl
  | passed hs hb =>
    refine (bind_onStack (by rw [hs]; rfl)).trans ?_
    rw [if_neg hb]
    rfl
  | load h =>
    simp only [exec, bind, EStateM.bind, readSymbol, h]
    rfl
  | store hs => exact bind_pop hs
  | print hs hsink =>
    refine (bind_onStack (by rw [hs]; exact Stack.popMany_append rfl)).trans ?_
    simp only [bind, EStateM.bind, writeLine, hsink]
    rfl
  | @call f s hs hdepth hargs =>
    refine (bind_pop hs).trans ?_
    have harity : ¬f.arity ≠ f.arity := fun h => h rfl
    have hlimit : ¬m.maxCallDepth ≤ m.memory.depth := Nat.not_le_of_lt hdepth
    have hlength : ¬s.length < f.arity := Nat.not_lt_of_le hargs
    simp only [enter, if_neg harity, if_neg hlimit, if_neg hlength]
  | ret h =>
    show leave m = _
    rw [leave, h]

section Inversion

variable {α β : Type} {x : StepResult}

theorem of_bind_onStack {op : Stack.Op α} {k : α → Action β} {b : β}
    (h : (onStack op >>= k) m = .ok b m') :
    ∃ a s, op m.stack = .ok a s ∧ k a { m with stack := s } = .ok b m' := by
  cases ho : op m.stack with
  | ok a s =>
    rw [bind_onStack ho] at h
    exact ⟨a, s, rfl, h⟩
  | error e s =>
    rw [bind_onStack_error ho] at h
    cases h

theorem of_bind_pop {k : Value → Action β} {b : β} (h : (onStack Stack.pop >>= k) m = .ok b m') :
    ∃ v s, m.stack = v :: s ∧ k v { m with stack := s } = .ok b m' := by
  obtain ⟨v, s, hv, h⟩ := of_bind_onStack h
  cases hs : m.stack with
  | nil => rw [hs] at hv; cases hv
  | cons w t =>
    rw [hs] at hv
    cases hv
    exact ⟨v, s, rfl, h⟩

theorem of_yield {r : Except RunError Value} (h : yield r m = .ok x m') :
    ∃ v, r = .ok v ∧ m' = { m with stack := v :: m.stack, ip := m.ip + 1 } := by
  cases r with
  | ok v => cases h; exact ⟨v, rfl, rfl⟩
  | error e => cases h

end Inversion

/-! Most instructions pop their operands one after the other, and make a value of them. -/

section Operands

variable {r : StepResult}

theorem effect_of_nullary {result : Except RunError Value} (hc : i.combine [] = some result)
    (h : yield result m = .ok r m') : Effect m i m' := by
  obtain ⟨v, hv, rfl⟩ := of_yield h
  exact .compute [] rfl (hc.trans (congrArg some hv))

theorem effect_of_unary {f : Value → Except RunError Value} (hc : ∀ x, i.combine [x] = some (f x))
    (h : (onStack Stack.pop >>= fun x => yield (f x)) m = .ok r m') : Effect m i m' := by
  obtain ⟨x, s, hs, h⟩ := of_bind_pop h
  obtain ⟨v, hv, rfl⟩ := of_yield h
  exact .compute [x] hs ((hc x).trans (congrArg some hv))

/-- The last operand is on top. -/
theorem effect_of_binary {f : Value → Value → Except RunError Value}
    (hc : ∀ y x, i.combine [y, x] = some (f y x))
    (h : (onStack Stack.pop >>= fun y => onStack Stack.pop >>= fun x => yield (f y x)) m = .ok r m') :
    Effect m i m' := by
  obtain ⟨y, s, hs, h⟩ := of_bind_pop h
  obtain ⟨x, t, ht, h⟩ := of_bind_pop h
  obtain ⟨v, hv, rfl⟩ := of_yield h
  obtain rfl : s = x :: t := ht
  exact .compute [y, x] hs ((hc y x).trans (congrArg some hv))

end Operands

theorem effect_of_jumpIf {sense : Bool} {target : Nat} (h : exec (.jumpIf sense target) m = .ok .more m') :
    Effect m (.jumpIf sense target) m' := by
  obtain ⟨b, s, hb, h⟩ := of_bind_onStack h
  have hs := Stack.of_popBool hb
  by_cases hbs : b = sense
  · rw [if_pos hbs] at h
    cases h
    subst hbs
    exact .taken hs
  · rw [if_neg hbs] at h
    cases h
    exact .passed hs hbs

theorem effect_of_strSlice (h : exec .strSlice m = .ok .more m') : Effect m .strSlice m' := by
  obtain ⟨step, s, hs, h⟩ := of_bind_pop h
  obtain ⟨stop, t, ht, h⟩ := of_bind_pop h
  obtain ⟨start, u, hu, h⟩ := of_bind_pop h
  obtain ⟨text, w, hw, h⟩ := of_bind_onStack h
  obtain ⟨v, hv, rfl⟩ := of_yield h
  obtain rfl : s = stop :: t := ht
  obtain rfl : t = start :: u := hu
  obtain rfl : u = .str text :: w := Stack.of_popStr hw
  exact .compute [step, stop, start, .str text] hs (congrArg some hv)

/-- A line is written before its text is put on the stack. -/
theorem effect_of_print {n : Nat} (h : exec (.print n) m = .ok .more m') : Effect m (.print n) m' := by
  obtain ⟨vs, s, hvs, hline⟩ := of_bind_onStack h
  obtain ⟨hs, rfl⟩ := Stack.of_popMany hvs
  change (writeLine _ >>= fun _ => yield _) { m with stack := s } = _ at hline
  cases hsink : m.sink with
  | accepting =>
    rw [bind_writeLine (m := { m with stack := s }) hsink] at hline
    obtain ⟨v, hv, rfl⟩ := of_yield hline
    cases hv
    exact .print hs hsink
  | broken reason =>
    rw [bind_writeLine_error (m := { m with stack := s }) hsink] at hline
    cases hline

/-- The number of elements is on top of them. -/
theorem effect_of_buildList (h : exec .buildList m = .ok .more m') : Effect m .buildList m' := by
  obtain ⟨n, s, hcount, h⟩ := of_bind_onStack h
  obtain ⟨elems, t, helems, h⟩ := of_bind_onStack h
  obtain ⟨v, hv, rfl⟩ := of_yield h
  obtain ⟨x, hs, hx⟩ := Stack.of_popCount hcount
  obtain ⟨rfl, hn⟩ := Stack.of_takeTop helems
  refine .compute (.num x :: elems.reverse) hs ?_
  rw [Instr.combine, List.length_reverse, hn, if_pos hx, List.reverse_reverse, hv]

theorem effect_of_buildMap (h : exec .buildMap m = .ok .more m') : Effect m .buildMap m' := by
  obtain ⟨n, s, hcount, h⟩ := of_bind_onStack h
  obtain ⟨flat, t, hflat, h⟩ := of_bind_onStack h
  obtain ⟨v, hv, rfl⟩ := of_yield h
  obtain ⟨x, hs, hx⟩ := Stack.of_popCount hcount
  obtain ⟨rfl, hn⟩ := Stack.of_takeTop hflat
  refine .compute (.num x :: flat.reverse) hs ?_
  rw [Instr.combine, List.length_reverse, hn, hx, Option.map_some, if_pos rfl,
    List.reverse_reverse, hv]

theorem effect_of_listFill (h : exec .listFill m = .ok .more m') : Effect m .listFill m' := by
  obtain ⟨n, s, hcount, h⟩ := of_bind_onStack h
  obtain ⟨x, t, ht, h⟩ := of_bind_pop h
  obtain ⟨v, hv, rfl⟩ := of_yield h
  obtain ⟨size, hs, hn⟩ := Stack.of_popCount hcount
  obtain rfl : s = x :: t := ht
  refine .compute [.num size, x] hs ?_
  simp only [Instr.combine, Value.filled, hn, hv]

/-- Of the checks of a call none has failed. -/
theorem effect_of_call {n : Nat} (h : exec (.call n) m = .ok .more m') : Effect m (.call n) m' := by
  obtain ⟨v, s, hs, h⟩ := of_bind_pop h
  cases v with
  | function f =>
    simp only [enter] at h
    split at h
    · cases h
    next harity =>
    split at h
    · cases h
    next hdepth =>
    split at h
    · cases h
    next hargs =>
    cases h
    obtain rfl : f.arity = n := Decidable.not_not.mp harity
    exact .call hs (Nat.lt_of_not_le hdepth) (Nat.le_of_not_lt hargs)
  | _ => cases h

/-- **Every way to go on.** -/
theorem effect_of_exec (h : exec i m = .ok .more m') : Effect m i m' := by
  cases i with
  | push l => exact effect_of_nullary rfl h
  | pushUnit => exact effect_of_nullary rfl h
  | pop =>
    obtain ⟨v, s, hs, h⟩ := of_bind_pop h
    cases h
    exact .pop hs
  | dup =>
    obtain ⟨v, s, hv, h⟩ := of_bind_onStack h
    cases hs : m.stack with
    | nil => rw [hs] at hv; cases hv
    | cons w t =>
      rw [hs] at hv
      cases hv
      cases h
      exact .dup hs
  | binary op => exact effect_of_binary (fun _ _ => rfl) h
  | unary op => exact effect_of_unary (fun _ => rfl) h
  | jump target => cases h; exact .jump
  | jumpIf _ _ => exact effect_of_jumpIf h
  | load id =>
    cases hl : m.memory.load id with
    | none => simp only [exec, bind, EStateM.bind, readSymbol, hl] at h; cases h
    | some v =>
      simp only [exec, bind, EStateM.bind, readSymbol, hl] at h
      obtain ⟨w, hw, rfl⟩ := of_yield h
      cases hw
      exact .load hl
  | store id =>
    obtain ⟨v, s, hs, h⟩ := of_bind_pop h
    cases h
    exact .store hs
  | strCat n =>
    obtain ⟨vs, s, hvs, h⟩ := of_bind_onStack h
    obtain ⟨hs, hn⟩ := Stack.of_popMany hvs
    obtain ⟨v, hv, rfl⟩ := of_yield h
    exact .compute vs hs (by rw [Instr.combine, if_pos hn, hv])
  | strSlice => exact effect_of_strSlice h
  | print _ => exact effect_of_print h
  | buildList => exact effect_of_buildList h
  | buildMap => exact effect_of_buildMap h
  | listFill => exact effect_of_listFill h
  | query op => exact effect_of_unary (fun _ => rfl) h
  | update op => exact effect_of_binary (fun _ _ => rfl) h
  | find => exact effect_of_binary (fun _ _ => rfl) h
  | put =>
    obtain ⟨z, s, hs, h⟩ := of_bind_pop h
    obtain ⟨y, t, ht, h⟩ := of_bind_pop h
    obtain ⟨x, u, hu, h⟩ := of_bind_pop h
    obtain ⟨v, hv, rfl⟩ := of_yield h
    obtain rfl : s = y :: t := ht
    obtain rfl : t = x :: u := hu
    exact .compute [z, y, x] hs (congrArg some hv)
  | makeFunction entry arity => exact effect_of_nullary rfl h
  | call _ => exact effect_of_call h
  | ret =>
    cases hp : m.memory.popFrame? with
    | none => simp only [exec, leave, hp] at h; cases h
    | some fm =>
      obtain ⟨frame, memory⟩ := fm
      simp only [exec, leave, hp] at h
      cases h
      exact .ret hp
  | halt =>
    cases hs : m.stack with
    | nil => simp only [exec, finish, hs] at h; cases h
    | cons => simp only [exec, finish, hs] at h; cases h

/-! ## What instructions are put together of -/

/-- The property of actions holds of all that instructions are put together of. -/
structure Composes (P : Action StepResult → Prop) : Prop where
  onStack : ∀ {β : Type} (op : Stack.Op β) {k : β → Action StepResult}, (∀ b, P (k b)) → P (onStack op >>= k)
  yield : ∀ r, P (yield r)
  advance : P advance
  goTo : ∀ target, P (goTo target)
  read : ∀ id, P (readSymbol id >>= fun v => Machine.yield (.ok v))
  write : ∀ id v, P (writeSymbol id v >>= fun _ => Machine.advance)
  print : ∀ line, P (writeLine line >>= fun _ => Machine.yield (.ok (.str line)))
  enter : ∀ f n, P (enter f n)
  refuse : ∀ e, P (throw e)
  leave : P leave

/-- **Every instruction but `HALT`** is put together of these. -/
theorem Composes.exec {P : Action StepResult → Prop} (h : Composes P) (hi : i ≠ .halt) : P (exec i) := by
  cases i with
  | push l => exact h.yield _
  | pushUnit => exact h.yield _
  | pop => exact h.onStack _ fun _ => h.advance
  | dup => exact h.onStack _ fun _ => h.yield _
  | binary op => exact h.onStack _ fun _ => h.onStack _ fun _ => h.yield _
  | unary op => exact h.onStack _ fun _ => h.yield _
  | jump target => exact h.goTo target
  | jumpIf sense target =>
    refine h.onStack _ fun b => ?_
    split
    · exact h.goTo target
    · exact h.advance
  | load id => exact h.read id
  | store id => exact h.onStack _ fun v => h.write id v
  | strCat n => exact h.onStack _ fun _ => h.yield _
  | strSlice => exact h.onStack _ fun _ => h.onStack _ fun _ => h.onStack _ fun _ => h.onStack _ fun _ => h.yield _
  | print n => exact h.onStack _ fun _ => h.print _
  | buildList => exact h.onStack _ fun _ => h.onStack _ fun _ => h.yield _
  | buildMap => exact h.onStack _ fun _ => h.onStack _ fun _ => h.yield _
  | listFill => exact h.onStack _ fun _ => h.onStack _ fun _ => h.yield _
  | query op => exact h.onStack _ fun _ => h.yield _
  | update op => exact h.onStack _ fun _ => h.onStack _ fun _ => h.yield _
  | find => exact h.onStack _ fun _ => h.onStack _ fun _ => h.yield _
  | put => exact h.onStack _ fun _ => h.onStack _ fun _ => h.onStack _ fun _ => h.yield _
  | makeFunction entry arity => exact h.yield _
  | call n =>
    refine h.onStack _ fun v => ?_
    cases v with
    | function f => exact h.enter f n
    | _ => exact h.refuse _
  | ret => exact h.leave
  | halt => exact absurd rfl hi

section Containment

variable {α : Type}

/-- A failure of the action changes nothing but the stack. -/
def Contained (f : Action α) : Prop := ∀ m e m', f m = .error e m' → m' = { m with stack := m'.stack }

theorem Contained.of_total {f : Action α} (h : ∀ m, ∃ a m', f m = .ok a m') : Contained f := by
  intro m e m' hm
  obtain ⟨a, n, hn⟩ := h m
  rw [hn] at hm
  cases hm

theorem composes_contained : Composes Contained where
  onStack op k h := by
    intro m e m' hm
    cases ho : op m.stack with
    | ok a s =>
      rw [bind_onStack ho] at hm
      exact h a { m with stack := s } e m' hm
    | error e' s =>
      rw [bind_onStack_error ho] at hm
      cases hm
      rfl
  yield r := by
    intro m e m' h
    cases r with
    | ok v => cases h
    | error e => cases h; rfl
  advance := .of_total fun m => ⟨_, _, rfl⟩
  goTo target := .of_total fun m => ⟨_, _, rfl⟩
  read id := by
    intro m e m' h
    cases hl : m.memory.load id with
    | none => simp only [bind, EStateM.bind, readSymbol, hl] at h; cases h; rfl
    | some v => simp only [bind, EStateM.bind, readSymbol, hl] at h; cases h
  write id v := .of_total fun m => ⟨_, _, rfl⟩
  print line := by
    intro m e m' h
    cases hsink : m.sink with
    | accepting => rw [bind_writeLine hsink] at h; cases h
    | broken reason =>
      rw [bind_writeLine_error hsink] at h
      cases h
      rw [← hsink]
  enter f n := by
    intro m e m' h
    simp only [Machine.enter] at h
    split at h
    · cases h; rfl
    split at h
    · cases h; rfl
    split at h
    · cases h; rfl
    · cases h
  refuse e := by
    intro m e m' h
    cases h
    rfl
  leave := by
    intro m e m' h
    cases hp : m.memory.popFrame? with
    | none => simp only [Machine.leave, hp] at h; cases h; rfl
    | some fm => simp only [Machine.leave, hp] at h; cases h

/-- A program ends in every state. -/
theorem exists_finish (m : Machine) : ∃ r m', finish m = .ok r m' := by
  cases hs : m.stack with
  | nil => exact ⟨.done .unit, m, by simp only [finish, hs]⟩
  | cons v s => exact ⟨.done v, { m with stack := s }, by simp only [finish, hs]⟩

/-- **A failing instruction changes nothing but the stack.** -/
theorem contained_exec (i : Instr Nat) : Contained (exec i) := by
  by_cases hi : i = .halt
  · subst hi
    exact .of_total exists_finish
  · exact composes_contained.exec hi

end Containment

theorem Fault.of_operands (hfed : ∃ ops s, m.stack = ops ++ s ∧ (i.combine ops).isSome)
    (h : exec i m = .error e m') : Fault m i e := by
  obtain ⟨ops, s, hs, hsome⟩ := hfed
  obtain ⟨r, hr⟩ := Option.isSome_iff_exists.mp hsome
  rcases exec_of_combine hs hr with ⟨v, rfl, hv⟩ | ⟨e', s', rfl, he⟩
  · rw [hv] at h
    cases h
  · rw [he] at h
    cases h
    exact .operation hs hr

theorem fault_of_jumpIf {sense : Bool} {target : Nat} (hfed : (Instr.jumpIf sense target : Instr Nat).Fed m.stack)
    (h : exec (.jumpIf sense target) m = .error e m') : Fault m (.jumpIf sense target) e := by
  obtain ⟨v, s, hs⟩ := List.exists_cons_of_ne_nil hfed
  cases v with
  | bool b =>
    rw [exec, bind_onStack (a := b) (s := s) (by rw [hs]; rfl)] at h
    split at h <;> cases h
  | _ =>
    rw [exec, bind_onStack_error (s := s) (by rw [hs]; rfl)] at h
    cases h
    exact .condition hs fun _ => by simp

theorem fault_of_print {n : Nat} (hfed : (Instr.print n : Instr Nat).Fed m.stack)
    (h : exec (.print n) m = .error e m') : Fault m (.print n) e := by
  have htake : Stack.popMany n m.stack = .ok (m.stack.take n) (m.stack.drop n) :=
    if_neg (Nat.not_lt_of_le hfed)
  rw [exec, bind_onStack htake] at h
  change (writeLine _ >>= fun _ => Machine.yield _) { m with stack := m.stack.drop n } = _ at h
  cases hsink : m.sink with
  | accepting =>
    rw [bind_writeLine (m := { m with stack := m.stack.drop n }) hsink] at h
    cases h
  | broken reason =>
    rw [bind_writeLine_error (m := { m with stack := m.stack.drop n }) hsink] at h
    cases h
    exact .output hsink

/-- The checks of a call come one after the other: what is called, the number of arguments, the depth. -/
theorem fault_of_call {n : Nat} (hfed : (Instr.call n : Instr Nat).Fed m.stack)
    (h : exec (.call n) m = .error e m') : Fault m (.call n) e := by
  obtain ⟨v, s, hs⟩ := List.exists_cons_of_length_pos (Nat.zero_lt_of_lt hfed)
  rw [exec, bind_pop hs] at h
  cases v with
  | function f =>
    simp only [enter] at h
    split at h
    · next hn => cases h; exact .arity hs hn
    next hn =>
    obtain rfl : f.arity = n := Decidable.not_not.mp hn
    split at h
    · next hd => cases h; exact .depth hs hd
    split at h
    · next hargs =>
      have hlt : f.arity < m.stack.length := hfed
      rw [hs, List.length_cons] at hlt
      omega
    · cases h
  | _ =>
    cases h
    exact .notCallable hs fun _ => by simp

/-- **Every way to fail.** -/
theorem fault_of_exec (h : exec i m = .error e m') : Fault m i e := by
  by_cases hfed : i.Fed m.stack
  case neg => exact .starved hfed
  cases i with
  | pop =>
    obtain ⟨v, s, hs⟩ := List.exists_cons_of_ne_nil hfed
    rw [exec, bind_pop hs] at h
    cases h
  | dup =>
    obtain ⟨v, s, hs⟩ := List.exists_cons_of_ne_nil hfed
    rw [exec, bind_onStack (a := v) (s := v :: s) (by rw [hs]; rfl)] at h
    cases h
  | store id =>
    obtain ⟨v, s, hs⟩ := List.exists_cons_of_ne_nil hfed
    rw [exec, bind_pop hs] at h
    cases h
  | jump target => cases h
  | jumpIf _ _ => exact fault_of_jumpIf hfed h
  | load id =>
    cases hl : m.memory.load id with
    | some v => simp only [exec, bind, EStateM.bind, readSymbol, hl] at h; cases h
    | none =>
      simp only [exec, bind, EStateM.bind, readSymbol, hl] at h
      cases h
      exact .unbound hl
  | print _ => exact fault_of_print hfed h
  | call _ => exact fault_of_call hfed h
  | ret =>
    cases hf : m.memory.frames with
    | nil =>
      simp only [exec, leave, Memory.popFrame?, hf] at h
      cases h
      exact .outside hf
    | cons f rest => simp only [exec, leave, Memory.popFrame?, hf] at h; cases h
  | halt =>
    cases hs : m.stack with
    | nil => simp only [exec, finish, hs] at h; cases h
    | cons => simp only [exec, finish, hs] at h; cases h
  | _ => exact .of_operands hfed h

/-! ## Ending -/

/-- The action does not end the program. -/
def GoesOn (f : Action StepResult) : Prop := ∀ m v m', f m ≠ .ok (.done v) m'

theorem GoesOn.bind {α : Type} {f : Action α} {k : α → Action StepResult} (h : ∀ a, GoesOn (k a)) :
    GoesOn (f >>= k) := by
  intro m v m' hm
  cases hf : f m with
  | ok a n =>
    simp only [Bind.bind, EStateM.bind, hf] at hm
    exact h a n v m' hm
  | error e n =>
    simp only [Bind.bind, EStateM.bind, hf] at hm
    cases hm

theorem goesOn_advance : GoesOn advance := fun _ _ _ h => by cases h

theorem goesOn_yield (r : Except RunError Value) : GoesOn (yield r) := .bind fun _ => goesOn_advance

/-- Only a `HALT` ends the program. -/
theorem composes_goesOn : Composes GoesOn where
  onStack _ _ h := .bind h
  yield := goesOn_yield
  advance := goesOn_advance
  goTo _ _ _ _ h := by cases h
  read _ := .bind fun _ => goesOn_yield _
  write _ _ := .bind fun _ => goesOn_advance
  print _ := .bind fun _ => goesOn_yield _
  enter f n := by
    intro m v m' h
    unfold Machine.enter at h
    repeat' split at h
    all_goals cases h
  refuse _ _ _ _ h := by cases h
  leave := by
    intro m v m' h
    unfold Machine.leave at h
    split at h <;> cases h

/-! ## Steps -/

theorem Effect.status_eq (h : Effect m i m') : m'.status = m.status := by cases h <;> rfl

theorem Effect.program_eq (h : Effect m i m') : m'.program = m.program := by cases h <;> rfl

theorem Effect.of_store {id : Nat} (h : Effect m (.store id) m') : ∃ v s, m.stack = v :: s ∧
    m' = { m with stack := s, memory := m.memory.store id v, ip := m.ip + 1 } := by
  cases h with
  | compute ops _ hc => cases ops <;> cases hc
  | @store _ v s hs => exact ⟨v, s, hs, rfl⟩

theorem Effect.of_call {n : Nat} (h : Effect m (.call n) m') : ∃ f s, f.arity = n ∧
    m.stack = .function f :: s ∧ n ≤ s.length ∧
    m' = { m with
      stack := s
      memory := m.memory.pushFrame { returnAddress := m.ip + 1, function := f }
      ip := f.entry } := by
  cases h with
  | compute ops _ hc => cases ops <;> cases hc
  | @call f s hs _ hargs => exact ⟨f, s, rfl, hs, hargs, rfl⟩

theorem Effect.of_ret (h : Effect m .ret m') : ∃ frame memory,
    m.memory.popFrame? = some (frame, memory) ∧
    m' = { m with memory := memory, ip := frame.returnAddress } := by
  cases h with
  | compute ops _ hc => cases ops <;> cases hc
  | @ret frame memory hp => exact ⟨frame, memory, hp, rfl⟩

theorem step_of_more (hm : m.status = .running) (hi : m.current? = some i)
    (h : exec i m = .ok .more m') : m.step = (.ok .more, m') := by
  simp only [step, hm, hi, h, ne_eq, not_true_eq_false, if_false]

theorem step_of_effect (hm : m.status = .running) (hi : m.current? = some i) (h : Effect m i m') :
    m.step = (.ok .more, m') := step_of_more hm hi h.exec_eq

theorem step_of_error (hm : m.status = .running) (hi : m.current? = some i)
    (h : exec i m = .error e m') : m.step = (.error e, { m' with status := .failed }) := by
  simp only [step, hm, hi, h, ne_eq, not_true_eq_false, if_false]

theorem effect_of_step (h : m.step = (.ok .more, m')) :
    m.status = .running ∧ ∃ i, m.current? = some i ∧ Effect m i m' := by
  unfold step at h
  split at h
  · cases h
  next hm =>
  refine ⟨Decidable.not_not.mp hm, ?_⟩
  split at h
  · cases h
  next i hi =>
  refine ⟨i, hi, ?_⟩
  split at h
  · next hx => cases h; exact effect_of_exec hx
  · cases h
  · cases h

/-- **The last step** is a `HALT`, which takes the value on top of the stack, or a unit when there is none. -/
theorem of_done_step {v : Value} (h : m.step = (.ok (.done v), m')) :
    m.current? = some .halt ∧ (m.stack = v :: m'.stack ∨ (v = .unit ∧ m'.stack = m.stack)) ∧
      m'.memory = m.memory := by
  unfold step at h
  split at h
  · cases h
  split at h
  · cases h
  next i hi =>
  split at h
  · cases h
  · next w n hx =>
    cases h
    obtain rfl : i = .halt := Decidable.byContradiction fun hne => composes_goesOn.exec hne _ _ _ hx
    refine ⟨hi, ?_⟩
    change finish m = _ at hx
    unfold finish at hx
    split at hx
    · next hnil =>
      cases hx
      exact ⟨.inr ⟨rfl, rfl⟩, rfl⟩
    · next hcons =>
      cases hx
      exact ⟨.inl hcons, rfl⟩
  · cases h

/-- A failing step: the machine was not running, has left the program, or its instruction failed. -/
theorem fault_of_step (h : m.step = (.error e, m')) :
    (m.status ≠ .running ∧ e = .notRunning) ∨
      (m.current? = none ∧ e = .instructionOutOfBounds m.ip) ∨ ∃ i, m.current? = some i ∧ Fault m i e := by
  unfold step at h
  split at h
  · next hm => cases h; exact .inl ⟨hm, rfl⟩
  right
  split at h
  · next hi => cases h; exact .inl ⟨hi, rfl⟩
  next i hi =>
  split at h
  · cases h
  · cases h
  · next hx => cases h; exact .inr ⟨i, hi, fault_of_exec hx⟩

/-- The machine after a number of steps, if they all succeed. -/
def after? : Nat → Machine → Option Machine
  | 0, m => some m
  | n + 1, m =>
    match m.step with
    | (.ok .more, m') => after? n m'
    | _ => none

/-- A number of successful steps. -/
inductive Steps : Nat → Machine → Machine → Prop
  | refl (m : Machine) : Steps 0 m m
  | head {n : Nat} {m m' m'' : Machine} (h : m.step = (.ok .more, m')) (hs : Steps n m' m'') :
      Steps (n + 1) m m''

namespace Steps

variable {m'' : Machine} {n k : Nat}

theorem one (h : m.step = (.ok .more, m')) : Steps 1 m m' := .head h (.refl _)

theorem trans (h : Steps n m m') (h' : Steps k m' m'') : Steps (n + k) m m'' := by
  induction h with
  | refl => rwa [Nat.zero_add]
  | head hstep _ ih =>
    rw [Nat.add_right_comm]
    exact .head hstep (ih h')

theorem of_after (h : m.after? n = some m') : Steps n m m' := by
  induction n generalizing m with
  | zero =>
    obtain rfl : m = m' := Option.some.inj h
    exact .refl m
  | succ n ih =>
    unfold after? at h
    split at h
    · next hs => exact .head hs (ih h)
    · cases h

/-- The first of a number of steps. -/
theorem take (h : Steps (n + k) m m'') : ∃ m', Steps n m m' ∧ Steps k m' m'' := by
  induction n generalizing m with
  | zero => exact ⟨m, .refl m, by rwa [Nat.zero_add] at h⟩
  | succ n ih =>
    rw [Nat.add_right_comm] at h
    cases h with
    | head hstep hs =>
      obtain ⟨m', h, h'⟩ := ih hs
      exact ⟨m', .head hstep h, h'⟩

theorem execute_add (h : Steps n m m') : m.execute (n + k) = m'.execute k := by
  induction h with
  | refl => rw [Nat.zero_add]
  | head hstep _ ih =>
    rw [Nat.add_right_comm, execute, hstep]
    exact ih

/-- What holds at first and survives every step holds in the end. -/
theorem invariant {P : Machine → Prop} (hstep : ∀ m m', P m → m.step = (.ok .more, m') → P m')
    (h : Steps n m m') (hm : P m) : P m' := by
  induction h with
  | refl => exact hm
  | head h _ ih => exact ih (hstep _ _ hm h)

end Steps

/-- A machine is still running after steps that succeed. -/
theorem Steps.running {n : Nat} (h : Steps n m m') (hm : m.status = .running) : m'.status = .running := by
  refine h.invariant (P := fun m => m.status = .running) (fun m m' hm hstep => ?_) hm
  obtain ⟨-, i, -, he⟩ := effect_of_step hstep
  exact he.status_eq.trans hm

/-- A state of a run of the program on a machine that was just loaded, whatever its settings. -/
def Reachable (p : Program) (m : Machine) : Prop := ∃ (m₀ : Machine) (n : Nat), Steps n (m₀.load p) m

theorem running_of_reachable {p : Program} (h : Reachable p m) : m.status = .running := by
  obtain ⟨m₀, n, hs⟩ := h
  exact hs.running rfl

end Machine

end ExactScript
