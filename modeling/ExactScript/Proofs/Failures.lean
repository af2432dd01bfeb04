import ExactScript.Proofs.References

/-!
# How instructions fail

An instruction that fails has taken some values off the stack by then, and has put none on it. Its error
blames the operands, the memory or the output. The two errors that blame the run, code that ended and a
machine that is not running, are raised by the machine itself, before any instruction is looked at.

## Contents
* `RunError.OfInstruction`, the errors of instructions;
* `Stack.Consumes`, operations on the stack, and `Machine.Retreats`, parts of instructions;
* `Machine.retreats_exec`, the theorem about every instruction, and `Machine.failed_step`, about steps;
* `Machine.step_cases`, whatever a step comes to, and `Machine.Everywhere.step`;
* `Machine.exists_failing_step`, where the error of a run comes from.
-/

namespace ExactScript

/-- The error is raised by an instruction. -/
def RunError.OfInstruction : RunError → Prop
  | instructionOutOfBounds _ => False
  | notRunning => False
  | _ => True

theorem RunError.OfOperation.ofInstruction {e : RunError} (h : e.OfOperation) : e.OfInstruction := by
  cases e with
  | instructionOutOfBounds => exact h
  | notRunning => exact h
  | _ => trivial

/-! ## The stack -/

namespace Stack

variable {α β : Type} {op : Op α}

/-- The operation takes values off the top at most, and so it does when it fails. -/
structure Consumes (op : Op α) : Prop where
  done : ∀ s a s', op s = .ok a s' → s' <:+ s
  failed : ∀ s e s', op s = .error e s' → s' <:+ s ∧ e.OfInstruction

namespace Consumes

theorem pure (a : α) : Consumes (Pure.pure a : Op α) where
  done s _ _ h := by
    cases h
    exact List.suffix_refl s
  failed _ _ _ h := by cases h

theorem throw {e : RunError} (he : e.OfInstruction) : Consumes (throw e : Op α) where
  done _ _ _ h := by cases h
  failed s _ _ h := by
    cases h
    exact ⟨List.suffix_refl s, he⟩

theorem bind {k : α → Op β} (h : Consumes op) (hk : ∀ a, Consumes (k a)) : Consumes (op >>= k) where
  done s b s' hs := by
    cases ho : op s with
    | ok a t =>
      simp only [Bind.bind, EStateM.bind, ho] at hs
      exact ((hk a).done t b s' hs).trans (h.done s a t ho)
    | error e t =>
      simp only [Bind.bind, EStateM.bind, ho] at hs
      cases hs
  failed s e s' hs := by
    cases ho : op s with
    | ok a t =>
      simp only [Bind.bind, EStateM.bind, ho] at hs
      obtain ⟨hsuffix, he⟩ := (hk a).failed t e s' hs
      exact ⟨hsuffix.trans (h.done s a t ho), he⟩
    | error e' t =>
      simp only [Bind.bind, EStateM.bind, ho] at hs
      cases hs
      exact h.failed s _ _ ho

end Consumes

theorem consumes_pop : Consumes pop where
  done s v s' h := by
    cases s with
    | nil => cases h
    | cons w t =>
      cases h
      exact List.suffix_cons v s'
  failed s e s' h := by
    cases s with
    | nil =>
      cases h
      exact ⟨List.suffix_refl [], trivial⟩
    | cons w t => cases h

theorem consumes_peek : Consumes peek where
  done s v s' h := by
    cases s with
    | nil => cases h
    | cons w t =>
      cases h
      exact List.suffix_refl _
  failed s e s' h := by
    cases s with
    | nil =>
      cases h
      exact ⟨List.suffix_refl [], trivial⟩
    | cons w t => cases h

theorem consumes_popMany (n : Nat) : Consumes (popMany n) where
  done s vs s' h := by
    obtain ⟨rfl, -⟩ := of_popMany h
    exact List.suffix_append vs s'
  failed s e s' h := by
    unfold popMany at h
    split at h
    · cases h
      exact ⟨List.suffix_refl s, trivial⟩
    · cases h

theorem consumes_takeTop (n : Nat) : Consumes (takeTop n) := (consumes_popMany n).bind fun _ => .pure _

theorem consumes_popNum (name : String) : Consumes (popNum name) := by
  refine consumes_pop.bind fun v => ?_
  cases v with
  | num n => exact .pure n
  | _ => exact .throw trivial

theorem consumes_popBool (name : String) : Consumes (popBool name) := by
  refine consumes_pop.bind fun v => ?_
  cases v with
  | bool b => exact .pure b
  | _ => exact .throw trivial

theorem consumes_popStr (name : String) : Consumes (popStr name) := by
  refine consumes_pop.bind fun v => ?_
  cases v with
  | str s => exact .pure s
  | _ => exact .throw trivial

theorem consumes_popCount (name : String) : Consumes (popCount name) := by
  refine (consumes_popNum name).bind fun n => ?_
  cases count? n with
  | some k => exact .pure k
  | none => exact .throw trivial

end Stack

/-! ## Instructions -/

namespace Machine

variable {α β : Type} {m m' : Machine} {e : RunError}

/-- When the action fails, values may be gone from the stack, and its error is that of an instruction. -/
def Retreats (f : Action α) : Prop :=
  ∀ m e m', f m = .error e m' → m'.stack <:+ m.stack ∧ e.OfInstruction

namespace Retreats

theorem bind {op : Stack.Op α} {k : α → Action β} (h : Stack.Consumes op) (hk : ∀ a, Retreats (k a)) :
    Retreats (onStack op >>= k) := by
  intro m e m' hm
  cases ho : op m.stack with
  | ok a s =>
    rw [bind_onStack ho] at hm
    obtain ⟨hsuffix, he⟩ := hk a { m with stack := s } e m' hm
    exact ⟨hsuffix.trans (h.done m.stack a s ho), he⟩
  | error e' s =>
    rw [bind_onStack_error ho] at hm
    cases hm
    exact h.failed m.stack _ _ ho

theorem of_total {f : Action α} (h : ∀ m, ∃ a m', f m = .ok a m') : Retreats f := by
  intro m e m' hm
  obtain ⟨a, n, hn⟩ := h m
  rw [hn] at hm
  cases hm

theorem yield {r : Except RunError Value} (h : Gives (Value.Within fun _ => True) r) :
    Retreats (yield r) := by
  intro m e m' hm
  cases r with
  | ok v => cases hm
  | error e' =>
    cases hm
    exact ⟨List.suffix_refl _, RunError.OfOperation.ofInstruction h⟩

theorem readSymbol {k : Value → Action β} {id : Nat} (hk : ∀ v, Retreats (k v)) :
    Retreats (readSymbol id >>= k) := by
  intro m e m' hm
  cases hv : m.memory.load id with
  | some v =>
    simp only [Bind.bind, EStateM.bind, Machine.readSymbol, hv] at hm
    exact hk v m e m' hm
  | none =>
    simp only [Bind.bind, EStateM.bind, Machine.readSymbol, hv] at hm
    cases hm
    exact ⟨List.suffix_refl _, trivial⟩

theorem writeLine {k : Unit → Action β} {line : String} (hk : Retreats (k ())) :
    Retreats (writeLine line >>= k) := by
  intro m e m' hm
  cases hsink : m.sink with
  | accepting =>
    rw [bind_writeLine hsink] at hm
    exact hk { m with output := m.output ++ line ++ "\n" } e m' hm
  | broken reason =>
    rw [bind_writeLine_error hsink] at hm
    cases hm
    exact ⟨List.suffix_refl _, trivial⟩

theorem enter (f : FunctionRef) (n : Nat) : Retreats (enter f n) := by
  intro m e m' hm
  simp only [Machine.enter] at hm
  split at hm
  · cases hm
    exact ⟨List.suffix_refl _, trivial⟩
  split at hm
  · cases hm
    exact ⟨List.suffix_refl _, trivial⟩
  split at hm
  · cases hm
    exact ⟨List.suffix_refl _, trivial⟩
  · cases hm

theorem leave : Retreats leave := by
  intro m e m' hm
  unfold Machine.leave at hm
  split at hm
  · cases hm
  · cases hm
    exact ⟨List.suffix_refl _, trivial⟩

end Retreats

/-- **Every instruction.** -/
theorem retreats_exec (i : Instr Nat) : Retreats (exec i) := by
  -- which functions are in the operands does not matter here
  have hany : ∀ v : Value, v.Within fun _ => True := Value.within_of_forall fun _ => trivial
  have hpop := Stack.consumes_pop
  cases i with
  | push l => exact .yield (.ok (hany _))
  | pushUnit => exact .yield (.ok (hany _))
  | pop => exact .bind hpop fun _ => .of_total fun m => ⟨_, _, rfl⟩
  | dup => exact .bind Stack.consumes_peek fun v => .yield (.ok (hany _))
  | binary op =>
    exact .bind hpop fun r => .bind hpop fun l => .yield (gives_binary op l r)
  | unary op => exact .bind hpop fun v => .yield (gives_unary op v)
  | jump target => exact .of_total fun m => ⟨_, _, rfl⟩
  | jumpIf sense target =>
    refine .bind (Stack.consumes_popBool _) fun b => .of_total fun m => ?_
    by_cases hb : b = sense
    · exact ⟨_, _, by rw [if_pos hb]; rfl⟩
    · exact ⟨_, _, by rw [if_neg hb]; rfl⟩
  | load id => exact .readSymbol fun v => .yield (.ok (hany _))
  | store id => exact .bind hpop fun _ => .of_total fun m => ⟨_, _, rfl⟩
  | strCat n =>
    exact .bind (Stack.consumes_popMany n) fun vs => .yield (gives_concat vs)
  | strSlice =>
    refine .bind hpop fun step => .bind hpop fun stop => .bind hpop fun start =>
      .bind (Stack.consumes_popStr _) fun s => ?_
    exact .yield (gives_sliced (v := .str s))
  | print n =>
    exact .bind (Stack.consumes_popMany n) fun vs =>
      .writeLine (.yield (.ok (hany _)))
  | buildList =>
    exact .bind (Stack.consumes_popCount _) fun n => .bind (Stack.consumes_takeTop n) fun vs =>
      .yield (.ok (hany _))
  | buildMap =>
    exact .bind (Stack.consumes_popCount _) fun n => .bind (Stack.consumes_takeTop _) fun flat =>
      .yield (gives_ofFlat fun v _ => hany v)
  | listFill =>
    exact .bind (Stack.consumes_popCount _) fun n => .bind hpop fun v =>
      .yield (gives_replicate (hany v))
  | query op => exact .bind hpop fun v => .yield (gives_query op (hany v))
  | update op =>
    exact .bind hpop fun arg => .bind hpop fun coll => .yield (gives_update op (hany coll) (hany arg))
  | find => exact .bind hpop fun key => .bind hpop fun coll => .yield (gives_find (hany coll))
  | put =>
    exact .bind hpop fun v => .bind hpop fun key => .bind hpop fun coll =>
      .yield (gives_put (hany coll) (hany v))
  | makeFunction entry arity => exact .yield (.ok (hany _))
  | call n =>
    refine .bind hpop fun v => ?_
    cases v with
    | function f => exact .enter f n
    | _ =>
      intro m e m' hm
      cases hm
      exact ⟨List.suffix_refl _, trivial⟩
  | ret => exact .leave
  | halt =>
    refine .of_total fun m => ?_
    cases hs : m.stack with
    | nil => exact ⟨_, _, by simp only [exec, finish, hs]; rfl⟩
    | cons v s => exact ⟨_, _, by simp only [exec, finish, hs]; rfl⟩

/-- **Every failing step.** The machine was not running, control had left the code, or the instruction
failed. -/
theorem failed_step (h : m.step = (.error e, m')) :
    (m.status ≠ .running ∧ e = .notRunning ∧ m' = m) ∨
      (m.current? = none ∧ e = .instructionOutOfBounds m.ip ∧ m' = { m with status := .failed }) ∨
      ∃ i, m.current? = some i ∧ e.OfInstruction ∧
        ∃ s, s <:+ m.stack ∧ m' = { m with stack := s, status := .failed } := by
  unfold step at h
  split at h
  · next hm => cases h; exact .inl ⟨hm, rfl, rfl⟩
  right
  split at h
  · next hi => cases h; exact .inl ⟨hi, rfl, rfl⟩
  next i hi =>
  split at h
  · cases h
  · cases h
  · next n hx =>
    cases h
    obtain ⟨hsuffix, he⟩ := retreats_exec i _ _ _ hx
    have hsame := contained_exec i _ _ _ hx
    refine .inr ⟨i, hi, he, n.stack, hsuffix, ?_⟩
    rw [hsame]

/-- **Whatever a step comes to.** It goes on, or the memory stays as it is and nothing comes onto the stack. -/
theorem step_cases (m : Machine) :
    (∃ m', m.step = (.ok .more, m')) ∨
      m.step.2.memory = m.memory ∧ m.step.2.stack <:+ m.stack ∧
        ∀ v, m.step.1 = .ok (.done v) → v = .unit ∨ v ∈ m.stack := by
  rcases hstep : m.step with ⟨result, m'⟩
  match result, hstep with
  | .error e, hstep =>
    right
    rcases failed_step hstep with ⟨-, -, rfl⟩ | ⟨-, -, rfl⟩ | ⟨i, -, -, s, hs, rfl⟩
    · exact ⟨rfl, List.suffix_refl _, nofun⟩
    · exact ⟨rfl, List.suffix_refl _, nofun⟩
    · exact ⟨rfl, hs, nofun⟩
  | .ok .more, hstep => exact .inl ⟨m', rfl⟩
  | .ok (.done v), hstep =>
    obtain ⟨-, hstack, hmemory⟩ := of_done_step hstep
    refine .inr ⟨hmemory, ?_, ?_⟩
    · rcases hstack with hstack | ⟨-, hstack⟩
      · exact hstack ▸ List.suffix_cons v m'.stack
      · exact hstack ▸ List.suffix_refl _
    · rintro w ⟨⟩
      rcases hstack with hstack | ⟨hunit, -⟩
      · exact .inr (hstack ▸ List.mem_cons_self)
      · exact .inl hunit

/-- What is true of all values in a state is true of them after a step, whatever it comes to, and of the result
of the program. -/
theorem Everywhere.step {P : Value → Prop} (hm : m.Everywhere P) (hunit : P .unit)
    (hmore : ∀ m', m.step = (.ok .more, m') → m'.Everywhere P) :
    m.step.2.Everywhere P ∧ ∀ v, m.step.1 = .ok (.done v) → P v := by
  rcases step_cases m with ⟨m', hstep⟩ | ⟨hmemory, hstack, hdone⟩
  · rw [hstep]
    exact ⟨hmore m' hstep, fun v hv => nomatch hv⟩
  · refine ⟨⟨fun v hv => hm.stack v (hstack.subset hv), hmemory ▸ hm.memory⟩, fun v hv => ?_⟩
    rcases hdone v hv with rfl | hv
    · exact hunit
    · exact hm.stack v hv

/-- A run that fails ends with a failing step. -/
theorem exists_failing_step {fuel : Nat} (h : m.execute fuel = (some (.error e), m')) :
    ∃ n last, Steps n m last ∧ last.step = (.error e, m') := by
  induction fuel generalizing m with
  | zero => cases h
  | succ fuel ih =>
    unfold execute at h
    split at h
    · next m₁ hs =>
      obtain ⟨n, last, hsteps, hend⟩ := ih h
      exact ⟨n + 1, last, .head hs hsteps, hend⟩
    · cases h
    · next m₁ hs =>
      cases h
      exact ⟨0, m, .refl m, hs⟩

/-- The error of a run is that of a step. -/
theorem exists_step_of_execute {fuel : Nat} (h : (m.execute fuel).1 = some (.error e)) :
    ∃ n m₁ m₂, Steps n m m₁ ∧ m₁.step = (.error e, m₂) := by
  obtain ⟨n, last, hsteps, hend⟩ := exists_failing_step (Prod.ext h rfl)
  exact ⟨n, last, _, hsteps, hend⟩

end Machine

end ExactScript
