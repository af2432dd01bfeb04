import ExactScript.Value
import ExactScript.IdMap

/-!
# Memory

Values by symbol id. Symbols of the top level live in the globals; every call has a frame of its own for
the rest.
-/

namespace ExactScript

/-- The record of a call. -/
structure Frame where
  /-- Where execution goes on after the call. -/
  returnAddress : Nat
  function : FunctionRef
  /-- Parameters and variables of the call. -/
  locals : IdMap Value := .empty

structure Memory where
  globals : IdMap Value := .empty
  /-- The calls in progress, the innermost first. -/
  frames : List Frame := []

namespace Memory

def empty : Memory := {}

instance : Inhabited Memory := ⟨empty⟩

/-- The number of calls in progress. -/
def depth (m : Memory) : Nat := m.frames.length

/-- Looks in the current frame first, then in the globals. -/
def load (m : Memory) (id : Nat) : Option Value :=
  match m.frames with
  | [] => m.globals.get? id
  | f :: _ => (f.locals.get? id).or (m.globals.get? id)

/-- Outside of calls every id is global. During a call an id that is global already keeps its place
there; every other id is local to the current frame. -/
def store (m : Memory) (id : Nat) (v : Value) : Memory :=
  match m.frames with
  | [] => { m with globals := m.globals.insert id v }
  | f :: rest =>
    if m.globals.contains id then { m with globals := m.globals.insert id v }
    else { m with frames := { f with locals := f.locals.insert id v } :: rest }

/-- Starts a call. -/
def pushFrame (m : Memory) (f : Frame) : Memory := { m with frames := f :: m.frames }

/-- Ends the current call. -/
def popFrame? (m : Memory) : Option (Frame × Memory) :=
  match m.frames with
  | [] => none
  | f :: rest => some (f, { m with frames := rest })

/-! ## Where a store goes -/

section Store

variable {m : Memory} {id : Nat} {v : Value}

/-- A store goes to the globals outside of calls, and where the id is global already. -/
theorem store_eq_global (h : m.frames = [] ∨ m.globals.contains id) :
    m.store id v = { m with globals := m.globals.insert id v } := by
  unfold store
  split
  · rfl
  · next frame frames hframes =>
    rcases h with hnil | hglobal
    · rw [hnil] at hframes
      cases hframes
    · rw [if_pos hglobal]

/-- Every other store goes to the current frame. -/
theorem store_eq_local {frame : Frame} {frames : List Frame} (hframes : m.frames = frame :: frames)
    (h : ¬m.globals.contains id) :
    m.store id v =
      { m with frames := { frame with locals := frame.locals.insert id v } :: frames } := by
  unfold store
  rw [hframes]
  exact if_neg h

/-- Both ways to store an id. -/
theorem store_cases (m : Memory) (id : Nat) (v : Value) :
    ((m.frames = [] ∨ m.globals.contains id) ∧
      m.store id v = { m with globals := m.globals.insert id v }) ∨
    ∃ frame frames, m.frames = frame :: frames ∧ ¬m.globals.contains id ∧
      m.store id v =
        { m with frames := { frame with locals := frame.locals.insert id v } :: frames } := by
  by_cases h : m.frames = [] ∨ m.globals.contains id
  · exact .inl ⟨h, store_eq_global h⟩
  · obtain ⟨hframes, hlocal⟩ := not_or.mp h
    obtain ⟨frame, frames, hframes⟩ := List.exists_cons_of_ne_nil hframes
    exact .inr ⟨frame, frames, hframes, hlocal, store_eq_local hframes hlocal⟩

end Store

theorem of_popFrame? {m m' : Memory} {f : Frame} (h : m.popFrame? = some (f, m')) :
    m.frames = f :: m'.frames ∧ m'.globals = m.globals := by
  unfold popFrame? at h
  split at h
  · cases h
  · next hf =>
    cases h
    exact ⟨hf, rfl⟩

end Memory

end ExactScript
