import ExactScript.Machine

/-!
# Traces

A run, step by step: each step with the instruction that was executed and the machine after it.
-/

namespace ExactScript.Machine

/-- One step of a run. -/
structure Snapshot where
  /-- The line of the executed instruction; there is none outside of the program. -/
  line : Option String
  /-- What the step printed. -/
  printed : String
  /-- The machine after the step, its output taken. -/
  after : Machine

/-- The steps of a run, at most `fuel` of them, and how it ended if it did. -/
def trace (fuel : Nat) (m : Machine) : List Snapshot × Option (Except RunError Value) :=
  match fuel with
  | 0 => ([], none)
  | fuel + 1 =>
    let line := m.program.line? m.ip
    let (result, m) := m.step
    let (printed, m) := m.takeOutput
    let snapshot : Snapshot := { line, printed, after := m }
    match result with
    | .ok .more =>
      let (rest, result) := trace fuel m
      (snapshot :: rest, result)
    | .ok (.done v) => ([snapshot], some (.ok v))
    | .error e => ([snapshot], some (.error e))

end ExactScript.Machine
