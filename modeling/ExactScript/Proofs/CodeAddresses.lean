import ExactScript.Proofs.Failures
import ExactScript.Proofs.Linking

/-!
# Control stays in the code

An address is where a jump goes to, where a function begins, or where a call returns to. When code is
finished, every label is replaced by the index of an instruction, and the last instruction is a `HALT`. So
no address that the code mentions lies outside of it, and no instruction but a `HALT` is the last one. All
other addresses come from these: functions carry the entry of the instruction that made them, through lists,
maps, globals and locals, and frames carry the index after a call. Whatever the instructions are and in
whatever order they come, control never leaves the code.

## Contents
* `Instr.targets`, the addresses in an instruction, and `Closed`, what finished code satisfies;
* `Memory.Framed`, a property of every call in progress;
* `Confined`, the invariant, with `Confined.of_effect` and `Confined.of_reachable`;
* `Program.control_in_code`, the theorem.
-/

namespace ExactScript

/-! ## Finished code -/

namespace Instr

/-- The addresses that the instruction mentions. -/
def targets {τ : Type} : Instr τ → List τ
  | jump t => [t]
  | jumpIf _ t => [t]
  | makeFunction entry _ => [entry]
  | _ => []

variable {τ υ ε : Type} {f : τ → Except ε υ} {i : Instr τ} {j : Instr υ}

/-- Every address of an instruction stands for one of the instruction it comes from. -/
theorem exists_of_mapTarget (h : i.mapTarget f = .ok j) : ∀ t ∈ j.targets, ∃ l ∈ i.targets, f l = .ok t := by
  have hsingle : ∀ (l : τ) (k : υ → Instr υ), (∀ u, (k u).targets = [u]) →
      (do return k (← f l) : Except ε _) = .ok j → ∀ t ∈ j.targets, f l = .ok t := by
    intro l k hk hl t ht
    cases hf : f l with
    | error e => rw [hf] at hl; cases hl
    | ok u =>
      rw [hf] at hl
      obtain rfl : k u = j := Except.ok.inj hl
      rw [hk u] at ht
      rw [List.mem_singleton.mp ht]
  intro t ht
  cases i with
  | jump l => exact ⟨l, List.mem_singleton.mpr rfl, hsingle l .jump (fun _ => rfl) h t ht⟩
  | jumpIf sense l => exact ⟨l, List.mem_singleton.mpr rfl, hsingle l (.jumpIf sense) (fun _ => rfl) h t ht⟩
  | makeFunction l n =>
    exact ⟨l, List.mem_singleton.mpr rfl, hsingle l (.makeFunction · n) (fun _ => rfl) h t ht⟩
  | _ => cases h; cases ht

end Instr

/-- The code mentions no address outside of it, and ends with a `HALT`. -/
structure Closed (code : Array (Instr Nat)) : Prop where
  targets_lt : ∀ (k : Nat) (i : Instr Nat), code[k]? = some i → ∀ t ∈ i.targets, t < code.size
  ends : ∃ n, code.size = n + 1 ∧ code[n]? = some .halt

namespace Closed

variable {code : Array (Instr Nat)} {k : Nat} {i : Instr Nat}

theorem size_pos (h : Closed code) : 0 < code.size := by
  obtain ⟨n, hsize, -⟩ := h.ends
  omega

/-- Only a `HALT` is the last instruction. -/
theorem next_lt (h : Closed code) (hi : code[k]? = some i) (hhalt : i ≠ .halt) : k + 1 < code.size := by
  obtain ⟨n, hsize, hn⟩ := h.ends
  obtain ⟨hk, -⟩ := Array.getElem?_eq_some_iff.mp hi
  have hlast : k ≠ n := by
    rintro rfl
    exact hhalt (Option.some.inj (hi.symm.trans hn))
  omega

end Closed

namespace Assembly

variable {a : Assembly} {length : Nat}

/-- A label stands for the index of an instruction. -/
theorem lt_of_resolve {l : Label} {t : Nat} (h : a.resolve length l = .ok t) : t < length := by
  unfold resolve at h
  split at h
  · split at h
    · next hlt =>
      cases h
      exact hlt
    · cases h
  · cases h
  · cases h

/-- **Finished code is closed**, whatever was put together. -/
theorem closed_of_finish {p : Program} (h : a.finish = .ok p) : Closed p.code := by
  obtain ⟨hcode, -⟩ := resolveAll_of_finish h
  obtain ⟨hlength, horigin⟩ := getElem?_of_resolveAll hcode
  have hsize : p.code.size = a.code.size + 1 := by simpa using hlength
  constructor
  · -- every address was a label, and labels are resolved to what is below the number of instructions
    intro k j hj t ht
    obtain ⟨i, -, hmap⟩ := horigin k j (by simpa using hj)
    obtain ⟨l, -, hl⟩ := Instr.exists_of_mapTarget hmap t ht
    rw [hsize]
    exact lt_of_resolve hl
  · -- the last one is the `HALT` that was put behind the others
    refine ⟨a.code.size, hsize, ?_⟩
    have hlt : a.code.size < p.code.size := by omega
    obtain ⟨i, hi, hmap⟩ := horigin a.code.size p.code[a.code.size] (by simp [hlt])
    obtain rfl : i = .halt := by simpa [eq_comm] using hi
    rw [Array.getElem?_eq_getElem hlt]
    exact congrArg some (Except.ok.inj hmap).symm

end Assembly

/-! ## Calls in progress -/

/-- Every call in progress has a return address and a function that satisfy `Q`. -/
def Memory.Framed (Q : Nat → FunctionRef → Prop) (m : Memory) : Prop :=
  ∀ frame ∈ m.frames, Q frame.returnAddress frame.function

namespace Memory.Framed

variable {Q : Nat → FunctionRef → Prop} {m : Memory}

theorem empty : Memory.empty.Framed Q := fun _ h => (by cases h)

/-- What is stored has no part in it. -/
theorem store (h : m.Framed Q) (id : Nat) (v : Value) : (m.store id v).Framed Q := by
  rcases store_cases m id v with ⟨-, heq⟩ | ⟨frame, frames, hframes, -, heq⟩
  · rw [heq]
    exact h
  · rw [heq]
    unfold Framed at h
    rw [hframes] at h
    exact List.forall_mem_cons.mpr (List.forall_mem_cons.mp h)

theorem pushFrame (h : m.Framed Q) {address : Nat} {function : FunctionRef} (hQ : Q address function) :
    (m.pushFrame { returnAddress := address, function := function }).Framed Q :=
  List.forall_mem_cons.mpr ⟨hQ, h⟩

theorem popFrame {frame : Frame} {m' : Memory} (h : m.Framed Q)
    (hp : m.popFrame? = some (frame, m')) : Q frame.returnAddress frame.function ∧ m'.Framed Q := by
  obtain ⟨hframes, -⟩ := of_popFrame? hp
  unfold Framed at h
  rw [hframes] at h
  exact List.forall_mem_cons.mp h

end Memory.Framed

/-- Only a call starts a call. -/
theorem Machine.Effect.framed {Q : Nat → FunctionRef → Prop} {m m' : Machine} {i : Instr Nat}
    (h : Effect m i m') (hm : m.memory.Framed Q)
    (hcall : ∀ f s, i = .call f.arity → m.stack = .function f :: s → Q (m.ip + 1) f) :
    m'.memory.Framed Q := by
  cases h with
  | @store id v => exact hm.store id v
  | @call f s hs => exact hm.pushFrame (hcall f s rfl hs)
  | ret hp => exact (hm.popFrame hp).2
  | _ => exact hm

/-! ## The invariant -/

/-- **The invariant.** Every address in the machine is the index of an instruction. -/
structure Confined (p : Program) (m : Machine) : Prop where
  program : m.program = p
  ip_lt : m.ip < p.code.size
  framed : m.memory.Framed fun address f => address < p.code.size ∧ f.entry < p.code.size
  within : m.Within fun f => f.entry < p.code.size

namespace Confined

variable {p : Program} {m m' : Machine} {i : Instr Nat}

theorem load (h : Closed p.code) (m : Machine) : Confined p (m.load p) where
  program := rfl
  ip_lt := h.size_pos
  framed := .empty
  within := Machine.within_load m p

/-- **One instruction.** -/
theorem of_effect (hclosed : Closed p.code) (h : Confined p m) (hi : m.current? = some i)
    (he : Machine.Effect m i m') : Confined p m' := by
  have hcode : p.code[m.ip]? = some i := h.program ▸ hi
  have htargets := hclosed.targets_lt m.ip i hcode
  -- a `HALT` does not go on, so there is a next instruction
  have hhalt : i ≠ .halt := by
    rintro rfl
    cases he with
    | compute ops _ hc => cases ops <;> cases hc
  have hnext : m.ip + 1 < p.code.size := hclosed.next_lt hcode hhalt
  refine ⟨he.program_eq.trans h.program, ?_, ?_, ?_⟩
  · -- control goes to a target, into a function, back from one, or on
    cases he with
    | jump => exact htargets _ List.mem_cons_self
    | taken => exact htargets _ List.mem_cons_self
    | call hs => exact h.within.callee hs
    | ret hp => exact (h.framed.popFrame hp).1.1
    | _ => exact hnext
  · refine he.framed h.framed fun f s _ hs => ⟨hnext, ?_⟩
    exact h.within.callee hs
  · refine he.within h.within fun entry arity hmake => ?_
    subst hmake
    exact htargets entry List.mem_cons_self

/-- **A run.** -/
theorem of_reachable (hclosed : Closed p.code) (h : Machine.Reachable p m) : Confined p m := by
  obtain ⟨m₀, n, hs⟩ := h
  refine hs.invariant (fun m m' hm hstep => ?_) (load hclosed m₀)
  obtain ⟨-, i, hi, he⟩ := Machine.effect_of_step hstep
  exact hm.of_effect hclosed hi he

/-- The next step does not find that the code has ended. -/
theorem step_ne (h : Confined p m) {e : RunError} (hs : m.step = (.error e, m')) (ip : Nat) :
    e ≠ .instructionOutOfBounds ip := by
  rcases Machine.failed_step hs with ⟨-, rfl, -⟩ | ⟨hnone, -, -⟩ | ⟨i, -, he, -⟩
  · simp
  · have hlt := h.ip_lt
    rw [Machine.current?, h.program, Array.getElem?_eq_getElem hlt] at hnone
    cases hnone
  · rintro rfl
    exact he

end Confined

namespace Program

variable {a : Assembly} {p : Program}

/-- **Control stays in the code.** Of any instructions and labels that can be finished, in every state of every
run, the next instruction, the return addresses, and the entries of all functions on the stack, in the
globals and in the calls in progress are instructions of the program. No run ends by leaving the code. -/
theorem control_in_code (h : a.finish = .ok p) :
    (∀ m, Machine.Reachable p m → m.ip < p.code.size ∧
      (∀ frame ∈ m.memory.frames,
        frame.returnAddress < p.code.size ∧ frame.function.entry < p.code.size) ∧
      (m.Within fun f => f.entry < p.code.size) ∧
      ∀ e m', m.step = (.error e, m') → ∀ ip, e ≠ .instructionOutOfBounds ip) ∧
    ∀ (m : Machine) (fuel ip : Nat),
      ((m.load p).execute fuel).1 ≠ some (.error (.instructionOutOfBounds ip)) := by
  have hclosed := Assembly.closed_of_finish h
  have hconfined : ∀ m, Machine.Reachable p m → Confined p m := fun m hm => .of_reachable hclosed hm
  refine ⟨fun m hm => ?_, fun m fuel ip hrun => ?_⟩
  · have hm := hconfined m hm
    exact ⟨hm.ip_lt, hm.framed, hm.within, fun e m' hs => hm.step_ne hs⟩
  · obtain ⟨n, m₁, m₂, hsteps, hstep⟩ := Machine.exists_step_of_execute hrun
    exact (hconfined m₁ ⟨m, n, hsteps⟩).step_ne hstep ip rfl

/-- A function that is jumped over and called, its labels placed in another order than they are made. -/
def sampleAssembly : Except CompileError Assembly := do
  let (skip, a) := Assembly.empty.newLabel
  let (entry, a) := a.newLabel
  let a ← (a.emit (.jump skip)).place entry
  let a ← ((a.emit .pushUnit).emit .ret).place skip
  return (a.emit (.makeFunction entry 0)).emit (.call 0)

/-- What is finished of it. -/
def sampleFinished : Program where
  code := #[.jump 3, .pushUnit, .ret, .makeFunction 1 0, .call 0, .halt]

theorem control_in_code_call : ∃ a, sampleAssembly = .ok a ∧ a.finish = .ok sampleFinished ∧
    ∃ m, Machine.Reachable sampleFinished m ∧ m.memory.depth = 1 ∧ m.ip < sampleFinished.code.size ∧
      (∀ frame ∈ m.memory.frames, frame.returnAddress < sampleFinished.code.size ∧
        frame.function.entry < sampleFinished.code.size) ∧
      (m.Within fun f => f.entry < sampleFinished.code.size) ∧
      ∀ e m', m.step = (.error e, m') → ∀ ip, e ≠ .instructionOutOfBounds ip := by
  obtain ⟨a, ha, hp⟩ : ∃ a, sampleAssembly = .ok a ∧ a.finish = .ok sampleFinished := ⟨_, rfl, rfl⟩
  obtain ⟨m, hm, hdepth⟩ : ∃ m, Machine.Reachable sampleFinished m ∧ m.memory.depth = 1 :=
    ⟨_, ⟨{}, 3, .of_after rfl⟩, rfl⟩
  obtain ⟨hstates, -⟩ := control_in_code hp
  exact ⟨a, ha, hp, m, hm, hdepth, hstates m hm⟩

end Program

end ExactScript
