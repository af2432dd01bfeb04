import ExactScript.Proofs.Failures

/-!
# The limit of nested calls

A machine looks at its limit in one place only, when a call is about to push its frame. Whatever else it does,
it does under every limit. So under a larger limit a run goes through the states of the run under a smaller
one, step by step, until the latter has as many calls in progress as it may have and is to make another one.

The order of the checks of a call matters here: a call with the wrong number of arguments, or of what is no
function, fails in the same way under both limits, also where both are reached.

## Contents
* `Machine.limited`, the same machine with another limit;
* `Machine.Carries`, what actions do under a larger limit, and `Machine.carries_exec`, about instructions;
* `Machine.step_limited`, one step, `Machine.Steps.limited` and `Machine.execute_limited`, runs;
* `Machine.depth_le_of_steps`, the calls in progress;
* `Machine.limit_cuts_short`, the theorem.
-/

namespace ExactScript

/-- A store is made in the call in progress. -/
theorem Memory.depth_store (m : Memory) (id : Nat) (v : Value) : (m.store id v).depth = m.depth := by
  have haddresses := congrArg List.length (m.addresses_store id v)
  rwa [addresses, addresses, List.length_map, List.length_map] at haddresses

namespace Machine

variable {m m' : Machine} {d d' : Nat}

/-! ## Another limit -/

/-- The same machine with another limit of nested calls. -/
def limited (m : Machine) (d : Nat) : Machine := { m with maxCallDepth := d }

/-- The machine before the first step of a program, with a limit of nested calls. -/
def start (m : Machine) (p : Program) (d : Nat) : Machine := (m.limited d).load p

/-- The outcome of an action, with the machine that it leaves under another limit. -/
def outcomeLimited {α : Type} (d : Nat) :
    EStateM.Result RunError Machine α → EStateM.Result RunError Machine α
  | .ok a m => .ok a (m.limited d)
  | .error e m => .error e (m.limited d)

/-- Under the limit `d` the action does the same as under a smaller one, unless that one is reached. -/
def Carries (d : Nat) (f : Action StepResult) : Prop :=
  ∀ m, m.maxCallDepth ≤ d →
    ((∃ m', f m = .error (.callDepthExceeded m.maxCallDepth) m') ∧ m.maxCallDepth ≤ m.memory.depth) ∨
      f (m.limited d) = outcomeLimited d (f m)

/-- What does not look at the limit does the same. -/
theorem Carries.of_eq {f : Action StepResult} (h : ∀ m, f (m.limited d) = outcomeLimited d (f m)) :
    Carries d f := fun m _ => .inr (h m)

theorem outcomeLimited_yield (r : Except RunError Value) (m : Machine) :
    yield r (m.limited d) = outcomeLimited d (yield r m) := by
  cases r <;> rfl

/-- The checks of a call. Only the second one is about the limit, and it comes before that of the stack. -/
theorem carries_enter (f : FunctionRef) (n : Nat) : Carries d (enter f n) := by
  intro m hd
  unfold enter
  by_cases harity : f.arity ≠ n
  · right
    rw [if_pos harity, if_pos harity]
    rfl
  rw [if_neg harity, if_neg harity]
  by_cases hdepth : m.maxCallDepth ≤ m.memory.depth
  · left
    rw [if_pos hdepth]
    exact ⟨⟨m, rfl⟩, hdepth⟩
  · -- the larger limit is not reached either
    right
    have hlarger : ¬(m.limited d).maxCallDepth ≤ (m.limited d).memory.depth := by
      show ¬d ≤ m.memory.depth
      omega
    rw [if_neg hdepth, if_neg hlarger]
    show (if m.stack.length < n then _ else _) = outcomeLimited d (if m.stack.length < n then _ else _)
    split <;> rfl

theorem composes_carries : Composes (Carries d) where
  onStack op k h := by
    intro m hd
    cases ho : op m.stack with
    | ok a s =>
      have ho' : op (m.limited d).stack = .ok a s := ho
      rw [bind_onStack ho, bind_onStack ho']
      exact h a { m with stack := s } hd
    | error e s =>
      have ho' : op (m.limited d).stack = .error e s := ho
      rw [bind_onStack_error ho, bind_onStack_error ho']
      exact .inr rfl
  yield r := .of_eq (outcomeLimited_yield r)
  advance := .of_eq fun _ => rfl
  goTo _ := .of_eq fun _ => rfl
  read id := .of_eq fun m => by
    show (readSymbol id >>= _) (m.limited d) = _
    cases hl : m.memory.load id with
    | none =>
      have hl' : (m.limited d).memory.load id = none := hl
      simp only [bind, EStateM.bind, readSymbol, hl, hl']
      rfl
    | some v =>
      have hl' : (m.limited d).memory.load id = some v := hl
      simp only [bind, EStateM.bind, readSymbol, hl, hl']
      rfl
  write _ _ := .of_eq fun _ => rfl
  print line := .of_eq fun m => by
    cases hsink : m.sink with
    | accepting =>
      have hsink' : (m.limited d).sink = .accepting := hsink
      rw [bind_writeLine hsink, bind_writeLine hsink']
      rfl
    | broken reason =>
      have hsink' : (m.limited d).sink = .broken reason := hsink
      rw [bind_writeLine_error hsink, bind_writeLine_error hsink']
      rfl
  enter := carries_enter
  refuse _ := .of_eq fun _ => rfl
  leave := .of_eq fun m => by
    cases hp : m.memory.popFrame? with
    | none =>
      have hp' : (m.limited d).memory.popFrame? = none := hp
      simp only [Machine.leave, hp, hp']
      rfl
    | some fm =>
      have hp' : (m.limited d).memory.popFrame? = some fm := hp
      simp only [Machine.leave, hp, hp']
      rfl

/-- **Every instruction.** -/
theorem carries_exec (i : Instr Nat) : Carries d (exec i) := by
  by_cases hi : i = .halt
  · subst hi
    refine .of_eq fun m => ?_
    show finish (m.limited d) = outcomeLimited d (finish m)
    cases hs : m.stack with
    | nil =>
      have hs' : (m.limited d).stack = [] := hs
      simp only [finish, hs, hs']
      rfl
    | cons v s =>
      have hs' : (m.limited d).stack = v :: s := hs
      simp only [finish, hs, hs']
      rfl
  · exact composes_carries.exec hi

/-! ## Runs -/

theorem Effect.maxCallDepth_eq {i : Instr Nat} (h : Effect m i m') : m'.maxCallDepth = m.maxCallDepth := by
  cases h <;> rfl

/-- **One step.** A machine under a larger limit takes the same step, unless the limit is reached. -/
theorem step_limited (hd : m.maxCallDepth ≤ d) :
    (m.step.1 = .error (.callDepthExceeded m.maxCallDepth) ∧ m.maxCallDepth ≤ m.memory.depth) ∨
      (m.limited d).step = (m.step.1, m.step.2.limited d) := by
  by_cases hrunning : m.status ≠ .running
  · right
    have hlimited : (m.limited d).status ≠ .running := hrunning
    unfold step
    rw [if_pos hrunning, if_pos hlimited]
  have hlimited : ¬(m.limited d).status ≠ .running := hrunning
  unfold step
  rw [if_neg hrunning, if_neg hlimited]
  cases hi : m.current? with
  | none =>
    have hi' : (m.limited d).current? = none := hi
    rw [hi']
    exact .inr rfl
  | some i =>
    have hi' : (m.limited d).current? = some i := hi
    rw [hi']
    dsimp only
    rcases carries_exec i m hd with ⟨⟨m', hexec⟩, hdepth⟩ | hexec
    · left
      rw [hexec]
      exact ⟨rfl, hdepth⟩
    · right
      rw [hexec]
      match exec i m with
      | .ok .more n => rfl
      | .ok (.done v) n => rfl
      | .error e n => rfl

/-- **Steps in a row.** -/
theorem Steps.limited {n : Nat} (h : Steps n m m') (hd : m.maxCallDepth ≤ d) :
    Steps n (m.limited d) (m'.limited d) := by
  induction h with
  | refl => exact .refl _
  | @head n m m₁ m' hs ht ih =>
    obtain ⟨-, i, -, he⟩ := effect_of_step hs
    rcases step_limited hd with ⟨hexceeded, -⟩ | hstep
    · rw [hs] at hexceeded
      cases hexceeded
    · rw [hs] at hstep
      exact .head hstep (ih (he.maxCallDepth_eq ▸ hd))

/-- **A run**, whether it comes to its end or not. -/
theorem execute_limited {fuel : Nat} (hd : m.maxCallDepth ≤ d)
    (h : (m.execute fuel).1 ≠ some (.error (.callDepthExceeded m.maxCallDepth))) :
    (m.limited d).execute fuel = ((m.execute fuel).1, (m.execute fuel).2.limited d) := by
  induction fuel generalizing m with
  | zero => rfl
  | succ fuel ih =>
    rcases step_limited hd with ⟨hexceeded, -⟩ | hstep
    · -- then the run has ended with this error
      refine absurd ?_ h
      rcases hs : m.step with ⟨result, m'⟩
      rw [hs] at hexceeded
      obtain rfl : result = _ := hexceeded
      rw [execute, hs]
    · rcases hs : m.step with ⟨result, m'⟩
      rw [hs] at hstep
      rw [execute, hs] at h
      rw [execute, execute, hs, hstep]
      cases result with
      | error e => rfl
      | ok r =>
        cases r with
        | done v => rfl
        | more =>
          obtain ⟨-, i, -, he⟩ := effect_of_step hs
          have hlimit := he.maxCallDepth_eq
          exact ih (hlimit ▸ hd) (hlimit ▸ h)

/-! ## Calls in progress -/

/-- Only a call adds one to the calls in progress, and not beyond the limit. -/
theorem Effect.depth_le {i : Instr Nat} (h : Effect m i m') (hm : m.memory.depth ≤ m.maxCallDepth) :
    m'.memory.depth ≤ m'.maxCallDepth := by
  cases h with
  | @store id v s hs =>
    show (m.memory.store id v).depth ≤ m.maxCallDepth
    rwa [Memory.depth_store]
  | call hs hdepth hargs => exact hdepth
  | @ret frame memory hp =>
    obtain ⟨hframes, -⟩ := Memory.of_popFrame? hp
    rw [Memory.depth, hframes] at hm
    exact Nat.le_of_succ_le hm
  | _ => exact hm

/-- **A run** has no more calls in progress than its limit allows, and neither has the state in which it ends. -/
theorem depth_le_of_steps {n : Nat} {p : Program} (h : Steps n (m.start p d) m') :
    m'.maxCallDepth = d ∧ m'.memory.depth ≤ d ∧ m'.step.2.memory.depth ≤ d := by
  have hkeeps : ∀ m m' : Machine, m.maxCallDepth = d ∧ m.memory.depth ≤ d → m.step = (.ok .more, m') →
      m'.maxCallDepth = d ∧ m'.memory.depth ≤ d := by
    rintro m m' ⟨rfl, hm⟩ hstep
    obtain ⟨-, i, -, he⟩ := effect_of_step hstep
    have hlimit := he.maxCallDepth_eq
    exact ⟨hlimit, hlimit ▸ he.depth_le hm⟩
  have hm' := h.invariant (P := fun m => m.maxCallDepth = d ∧ m.memory.depth ≤ d) hkeeps ⟨rfl, Nat.zero_le d⟩
  refine ⟨hm'.1, hm'.2, ?_⟩
  rcases step_cases m' with ⟨m'', hstep⟩ | ⟨hmemory, -, -⟩
  · rw [hstep]
    exact (hkeeps m' m'' hm' hstep).2
  · rw [hmemory]
    exact hm'.2

/-! ## The theorem -/

/-- **The limit only cuts runs short.** Take two runs of the same code on the same machine, the second one under
the larger limit. Every state of the first is the state of the second after as many steps, and what the next step
comes to is the same, unless the first run has as many calls in progress as it may have and fails for this reason.
So a run that ends in another way, or has not ended after a number of steps, does the same under the larger limit.
And there are never more calls in progress than the limit allows. -/
theorem limit_cuts_short (m₀ : Machine) (p : Program) (h : d ≤ d') :
    (∀ n m, Steps n (m₀.start p d) m →
      Steps n (m₀.start p d') (m.limited d') ∧
      ((m.step.1 = .error (.callDepthExceeded d) ∧ m.memory.depth = d) ∨
        (m.limited d').step = (m.step.1, m.step.2.limited d')) ∧
      m.memory.depth ≤ d ∧ m.step.2.memory.depth ≤ d) ∧
    ∀ fuel, ((m₀.start p d).execute fuel).1 ≠ some (.error (.callDepthExceeded d)) →
      (m₀.start p d').execute fuel =
        (((m₀.start p d).execute fuel).1, ((m₀.start p d).execute fuel).2.limited d') := by
  refine ⟨fun n m hm => ?_, fun fuel hrun => execute_limited (m := m₀.start p d) h hrun⟩
  obtain ⟨rfl, hdepth, hlast⟩ := depth_le_of_steps hm
  refine ⟨hm.limited (m := m₀.start p m.maxCallDepth) h, ?_, hdepth, hlast⟩
  rcases step_limited h with ⟨hexceeded, hfull⟩ | hstep
  · exact .inl ⟨hexceeded, Nat.le_antisymm hdepth hfull⟩
  · exact .inr hstep

/-- A function that calls itself, without an end. -/
def sampleRecursion : Program where
  code := #[.makeFunction 2 0, .call 0, .makeFunction 2 0, .call 0]

/-- A function that is called once. -/
def sampleCall : Program where
  code := #[.makeFunction 3 0, .call 0, .halt, .push (.bool true), .ret]

/-- The second call is refused where one is the limit, and made in the same state where two are. What a single
call returns is the same. -/
theorem limit_cuts_short_recursion :
    (∃ m, Steps 3 (start {} sampleRecursion 1) m ∧ m.step.1 = .error (.callDepthExceeded 1) ∧
      Steps 3 (start {} sampleRecursion 2) (m.limited 2) ∧ (m.limited 2).step.1 = .ok .more) ∧
    ((start {} sampleCall 1).execute 5).1 = some (.ok (.bool true)) ∧
    ((start {} sampleCall 2).execute 5).1 = some (.ok (.bool true)) := by
  obtain ⟨m, hm, hexceeded, hmore⟩ : ∃ m, Steps 3 (start {} sampleRecursion 1) m ∧
      m.step.1 = .error (.callDepthExceeded 1) ∧ (m.limited 2).step.1 = .ok .more :=
    ⟨_, .of_after rfl, rfl, rfl⟩
  have hresult : ((start {} sampleCall 1).execute 5).1 = some (.ok (.bool true)) := rfl
  have hlimits : 1 ≤ 2 := by decide
  have hstates := (limit_cuts_short {} sampleRecursion hlimits).1 3 m hm
  have hruns := (limit_cuts_short {} sampleCall hlimits).2 5 (by rw [hresult]; nofun)
  exact ⟨⟨m, hm, hexceeded, hstates.1, hmore⟩, hresult, hruns ▸ hresult⟩

end Machine

end ExactScript
