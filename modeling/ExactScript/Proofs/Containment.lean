import ExactScript.Proofs.Failures

/-!
# Failures are contained

When a step fails, the machine is where it was, with the memory that it had; of the operands some may be
gone, but nothing has come onto the stack. So a run that fails shows the state in which its last
instruction found the machine. From then on the machine answers that it is not running, whatever it is
asked, until it is started again.

## Contents
* `LeftBy`, what a failing step leaves, and `leftBy_of_step`;
* `exists_leftBy_of_execute`, the same for runs;
* `Request`, `askAll`, the requests to a machine, and `askAll_of_not_running`;
* `failure_contained`, the theorem.
-/

namespace ExactScript.Machine

variable {m m' : Machine} {e : RunError}

/-! ## What is left -/

/-- A step of `m` has failed and has left `m'`: operands may be gone, and nothing else has happened. -/
structure LeftBy (m m' : Machine) : Prop where
  status : m'.status = .failed
  ip : m'.ip = m.ip
  globals : m'.memory.globals = m.memory.globals
  frames : m'.memory.frames = m.memory.frames
  /-- The values below those that were taken are at their places. -/
  stack : m'.stack <:+ m.stack
  program : m'.program = m.program

/-- **A failing step of a running machine is contained**, whatever the instruction. -/
theorem leftBy_of_step (hm : m.status = .running) (h : m.step = (.error e, m')) : LeftBy m m' := by
  rcases failed_step h with ⟨hnot, -, -⟩ | ⟨-, -, rfl⟩ | ⟨i, -, -, s, hs, rfl⟩
  · exact absurd hm hnot
  · -- control had left the code, and the stack was not looked at
    exact ⟨rfl, rfl, rfl, rfl, List.suffix_refl _, rfl⟩
  · exact ⟨rfl, rfl, rfl, rfl, hs, rfl⟩

/-- **A run that fails** leaves the machine that its last instruction found, without some operands. -/
theorem exists_leftBy_of_execute {fuel : Nat} (hm : m.status = .running)
    (h : m.execute fuel = (some (.error e), m')) :
    ∃ n last, Steps n m last ∧ last.step = (.error e, m') ∧ LeftBy last m' := by
  obtain ⟨n, last, hsteps, hend⟩ := exists_failing_step h
  exact ⟨n, last, hsteps, hend, leftBy_of_step (hsteps.running hm) hend⟩

/-! ## Requests -/

/-- What can be asked of a machine that has been started. -/
inductive Request where
  | step
  /-- A run of one step at least, and at most `more` steps after that. -/
  | execute (more : Nat)

/-- The answer to a request and the machine after it. There is no answer when a run comes to its bound. -/
def ask (m : Machine) : Request → Option (Except RunError StepResult) × Machine
  | .step => (some m.step.1, m.step.2)
  | .execute more => ((m.execute (more + 1)).1.map (·.map StepResult.done), (m.execute (more + 1)).2)

/-- Several requests, one after the other. -/
def askAll (m : Machine) : List Request → List (Option (Except RunError StepResult)) × Machine
  | [] => ([], m)
  | q :: qs => ((m.ask q).1 :: ((m.ask q).2.askAll qs).1, ((m.ask q).2.askAll qs).2)

/-- A machine that is not running does nothing. -/
theorem ask_of_not_running (hm : m.status ≠ .running) (q : Request) :
    m.ask q = (some (.error .notRunning), m) := by
  have hstep : m.step = (.error .notRunning, m) := by
    unfold Machine.step
    rw [if_pos hm]
  cases q with
  | step =>
    show (some m.step.1, m.step.2) = _
    rw [hstep]
  | execute more =>
    have hrun : m.execute (more + 1) = (some (.error .notRunning), m) := by
      unfold execute
      rw [hstep]
    show ((m.execute (more + 1)).1.map (·.map StepResult.done), (m.execute (more + 1)).2) = _
    rw [hrun]
    rfl

theorem askAll_of_not_running (hm : m.status ≠ .running) (qs : List Request) :
    m.askAll qs = (qs.map fun _ => some (.error .notRunning), m) := by
  induction qs with
  | nil => rfl
  | cons q qs ih =>
    unfold askAll
    rw [ask_of_not_running hm q, ih]
    rfl

/-! ## The theorem -/

/-- **Failures are contained.** A failing step of a running machine moves neither the instruction pointer
nor the memory, and leaves the lower part of the stack; so does a failing run, in the state that its last
step found. A machine that has halted or failed answers every request in the same way and stays as it is;
it runs again when it is restarted or gets a program. -/
theorem failure_contained (m : Machine) :
    (∀ e m', m.status = .running → m.step = (.error e, m') → LeftBy m m') ∧
    (∀ fuel e m', m.status = .running → m.execute fuel = (some (.error e), m') →
      ∃ n last, Steps n m last ∧ last.step = (.error e, m') ∧ LeftBy last m') ∧
    (∀ qs, m.status ≠ .running → m.askAll qs = (qs.map fun _ => some (.error .notRunning), m)) ∧
    m.restart.status = .running ∧ ∀ p, (m.load p).status = .running := by
  refine ⟨?_, ?_, ?_, rfl, fun p => rfl⟩
  · intro e m' hm h
    exact leftBy_of_step hm h
  · intro fuel e m' hm h
    exact exists_leftBy_of_execute hm h
  · intro qs hm
    exact askAll_of_not_running hm qs

/-- A machine in front of the addition of a unit to a number. -/
def sampleAddition : Machine where
  program := { code := #[.push (.num (.ofInt 1)), .pushUnit, .binary .add, .halt] }
  ip := 2
  stack := [.unit, .num (.ofInt 1), .bool true]
  status := .running

/-- The addition fails with both operands gone and the value below them still there; after that, neither
a step nor a run does anything. -/
theorem failure_contained_addition :
    LeftBy sampleAddition sampleAddition.step.2 ∧
      sampleAddition.step.2.stack = [.bool true] ∧
      sampleAddition.step.2.askAll [.step, .execute 5] =
        ([some (.error .notRunning), some (.error .notRunning)], sampleAddition.step.2) := by
  have hstep : sampleAddition.step = (.error (.typeMismatch "+" "num" .unit), sampleAddition.step.2) := rfl
  have hfailed : sampleAddition.step.2.status ≠ .running := by decide
  refine ⟨?_, rfl, ?_⟩
  · exact (failure_contained sampleAddition).1 _ _ rfl hstep
  · exact (failure_contained sampleAddition.step.2).2.2.1 [.step, .execute 5] hfailed

end ExactScript.Machine
