import ExactScript.Proofs.CodeAddresses

/-!
# Where calls and functions come from

Whatever the code is, also code that no compiler has made, nothing in a machine is forged. A function that is
found anywhere, on the stack, in the globals, in a frame, or deep inside of lists and maps, was made by an
instruction of the program, with its entry and its number of arguments: instructions that combine values only
move functions around. And a frame is pushed by a call, which has checked the number of arguments of the function
that it calls; it remembers that function and the position behind the call, and no store to its locals changes
either. So the instruction in front of a return address is always a call that fits the function in progress.

## Contents
* `Program.Makes`, the functions of a program, and `Program.Calls`, the calls of one at an address;
* `Machine.Accounted`, the invariant, with `Accounted.of_effect` and `Accounted.of_reachable`;
* `Program.calls_and_functions`, the theorem.
-/

namespace ExactScript

/-! ## What the code says -/

namespace Program

/-- An instruction of the program makes the function. -/
def Makes (p : Program) (f : FunctionRef) : Prop := ∃ k : Nat, p.code[k]? = some (.makeFunction f.entry f.arity)

/-- The address is right behind a call with as many arguments as the function takes, and the function is one of
the program. -/
structure Calls (p : Program) (address : Nat) (f : FunctionRef) : Prop where
  site : ∃ k, address = k + 1 ∧ p.code[k]? = some (.call f.arity)
  made : p.Makes f

end Program

/-! ## The invariant -/

namespace Machine

/-- **The invariant.** Every frame is that of a call in the code, and every function is made by the code. -/
structure Accounted (p : Program) (m : Machine) : Prop where
  program : m.program = p
  framed : m.memory.Framed p.Calls
  within : m.Within p.Makes

namespace Accounted

variable {p : Program} {m m' : Machine} {i : Instr Nat}

theorem load (m : Machine) (p : Program) : Accounted p (m.load p) where
  program := rfl
  framed := .empty
  within := within_load m p

/-- **One instruction.** -/
theorem of_effect (h : Accounted p m) (hi : m.current? = some i) (he : Effect m i m') : Accounted p m' := by
  have hcode : p.code[m.ip]? = some i := h.program ▸ hi
  refine ⟨he.program_eq.trans h.program, ?_, ?_⟩
  · refine he.framed h.framed fun f s hcall hs => ?_
    -- the callee was on the stack, so the program makes it
    exact ⟨⟨m.ip, rfl, hcall ▸ hcode⟩, h.within.callee hs⟩
  · refine he.within h.within fun entry arity hmake => ?_
    exact ⟨m.ip, hmake ▸ hcode⟩

theorem of_step (h : Accounted p m) (hstep : m.step = (.ok .more, m')) : Accounted p m' := by
  obtain ⟨-, i, hi, he⟩ := effect_of_step hstep
  exact h.of_effect hi he

/-- **A run.** -/
theorem of_reachable (h : Reachable p m) : Accounted p m := by
  obtain ⟨m₀, n, hs⟩ := h
  exact hs.invariant (fun _ _ hm hstep => hm.of_step hstep) (load m₀ p)

/-- **Whatever the next step comes to**, a further state, the end or a failure. -/
theorem step (h : Accounted p m) :
    m.step.2.memory.Framed p.Calls ∧ m.step.2.Within p.Makes ∧
      ∀ v, m.step.1 = .ok (.done v) → v.Within p.Makes := by
  have hframed : m.step.2.memory.Framed p.Calls := by
    rcases step_cases m with ⟨m', hstep⟩ | ⟨hmemory, -, -⟩
    · rw [hstep]
      exact (h.of_step hstep).framed
    · rw [hmemory]
      exact h.framed
  obtain ⟨hvalues, hresult⟩ := (within_iff.mp h.within).step Value.within_unit fun m' hstep =>
    within_iff.mp (h.of_step hstep).within
  exact ⟨hframed, within_iff.mpr hvalues, hresult⟩

end Accounted

end Machine

/-! ## The theorem -/

namespace Program

variable {p : Program} {m : Machine}

/-- **Calls and functions are those of the code.** Let `x` be a state of a run of any program, or the state that a
run has ended or failed in. In front of the return address of every frame there is a call with as many arguments
as the function of the frame takes, and this function is made by an instruction of the program. So is every
function on the stack, in the globals and in the frames, on its own or inside of lists and maps; and so is every
function in the result of the run. -/
theorem calls_and_functions (h : Machine.Reachable p m) :
    (∀ x, x = m ∨ x = m.step.2 →
      (∀ frame ∈ x.memory.frames,
        (∃ k, frame.returnAddress = k + 1 ∧ p.code[k]? = some (.call frame.function.arity)) ∧
          p.Makes frame.function) ∧
      x.Within p.Makes) ∧
    ∀ v, m.step.1 = .ok (.done v) → v.Within p.Makes := by
  have hm := Machine.Accounted.of_reachable h
  obtain ⟨hframed, hwithin, hresult⟩ := hm.step
  have hframes : ∀ {x : Machine}, x.memory.Framed p.Calls → ∀ frame ∈ x.memory.frames,
      (∃ k, frame.returnAddress = k + 1 ∧ p.code[k]? = some (.call frame.function.arity)) ∧
        p.Makes frame.function := by
    intro x hx frame hframe
    obtain ⟨hsite, hmade⟩ := hx frame hframe
    exact ⟨hsite, hmade⟩
  refine ⟨?_, hresult⟩
  rintro x (rfl | rfl)
  · exact ⟨hframes hm.framed, hm.within⟩
  · exact ⟨hframes hframed, hwithin⟩

/-- A function with one argument is called with a list that holds the function itself, and fails at once. -/
def sampleHidden : Program where
  code := #[.makeFunction 6 1, .push (.num (.ofNat 1)), .buildList, .makeFunction 6 1, .call 1, .halt, .unary .neg]

theorem calls_and_functions_hidden : ∃ m, Machine.Reachable sampleHidden m ∧
    m.stack = [.list [.function ⟨6, 1⟩]] ∧ m.memory.depth = 1 ∧
    m.step.1 = .error (.typeMismatch "NEG" "num" .list) ∧
    (∀ frame ∈ m.step.2.memory.frames,
      (∃ k, frame.returnAddress = k + 1 ∧ sampleHidden.code[k]? = some (.call frame.function.arity)) ∧
        sampleHidden.Makes frame.function) ∧
    m.Within sampleHidden.Makes := by
  obtain ⟨m, hm, hstack, hdepth, hfails⟩ : ∃ m, Machine.Reachable sampleHidden m ∧
      m.stack = [.list [.function ⟨6, 1⟩]] ∧ m.memory.depth = 1 ∧
      m.step.1 = .error (.typeMismatch "NEG" "num" .list) :=
    ⟨_, ⟨{}, 5, .of_after rfl⟩, rfl, rfl, rfl⟩
  obtain ⟨hstates, -⟩ := calls_and_functions hm
  exact ⟨m, hm, hstack, hdepth, hfails, (hstates _ (.inr rfl)).1, (hstates m (.inl rfl)).2⟩

end Program

end ExactScript
