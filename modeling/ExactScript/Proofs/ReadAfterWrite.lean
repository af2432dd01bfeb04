import Mathlib.Data.List.Induction
import ExactScript.Proofs.Effects

/-!
# Reading what was written

A load looks in the current frame before it looks in the globals, a store looks in the globals first. The
two agree because no id is in both: a store makes an id local only if it is not global, and in a call no id
becomes global. This survives every operation, in whatever order they come.

What is read later depends on the frame that is current then. The operations of a call, from the push of
its frame to the matching pop, leave the frames below as they are, so that the frame of the store is
current again with its locals unchanged.

## Contents
* `Memory.Operation`, what can be done to a memory, and `Memory.after`, sequences of it;
* `Memory.Separate`, the invariant, with one lemma per operation;
* `Memory.Nested`, sequences that leave every call that they enter, and what they leave alone;
* `Memory.Opened`, how the frames came about;
* `Memory.read_after_write`, the theorem;
* `Machine.exists_after`, the memories of machines that run.
-/

namespace ExactScript

namespace Memory

/-! ## Operations -/

/-- What can be done to a memory. -/
inductive Operation where
  | store (id : Nat) (v : Value)
  | pushFrame (returnAddress : Nat) (function : FunctionRef)
  | popFrame
  | clear

/-- The operation is carried out. Without a frame there is nothing to pop. -/
def apply (m : Memory) : Operation → Memory
  | .store id v => m.store id v
  | .pushFrame address function => m.pushFrame { returnAddress := address, function := function }
  | .popFrame =>
    match m.popFrame? with
    | some (_, m') => m'
    | none => m
  | .clear => .empty

/-- The operations are carried out one after the other. -/
def applyAll (m : Memory) (ops : List Operation) : Memory := ops.foldl apply m

/-- The memory that was empty, after these operations. -/
def after (ops : List Operation) : Memory := empty.applyAll ops

variable {m : Memory} {ops ops' : List Operation} {id j : Nat} {v : Value}

@[simp] theorem applyAll_nil : m.applyAll [] = m := rfl

@[simp] theorem applyAll_cons (op : Operation) :
    m.applyAll (op :: ops) = (m.apply op).applyAll ops := rfl

@[simp] theorem applyAll_append : m.applyAll (ops ++ ops') = (m.applyAll ops).applyAll ops' :=
  List.foldl_append

@[simp] theorem after_append : after (ops ++ ops') = (after ops).applyAll ops' := applyAll_append

/-- The pop of a frame brings back those below it. -/
theorem apply_popFrame (m : Memory) : m.apply .popFrame = { m with frames := m.frames.tail } := by
  obtain ⟨globals, frames⟩ := m
  cases frames with
  | nil => rfl
  | cons => rfl

/-- A store never changes the frames below the current one. -/
theorem tail_frames_store (m : Memory) (id : Nat) (v : Value) :
    (m.store id v).frames.tail = m.frames.tail := by
  rcases store_cases m id v with ⟨-, heq⟩ | ⟨frame, frames, hframes, -, heq⟩
  · rw [heq]
  · rw [heq, hframes]
    rfl

theorem frames_store_ne_nil (h : m.frames ≠ []) : (m.store id v).frames ≠ [] := by
  rcases store_cases m id v with ⟨-, heq⟩ | ⟨frame, frames, -, -, heq⟩
  · rw [heq]
    exact h
  · rw [heq]
    exact List.cons_ne_nil _ _

/-- In a call no id becomes global. -/
theorem contains_globals_store (h : m.frames ≠ []) :
    (m.store id v).globals.contains j = m.globals.contains j := by
  rcases store_cases m id v with ⟨hwhere, heq⟩ | ⟨frame, frames, -, -, heq⟩
  · have hglobal : m.globals.contains id := hwhere.resolve_left h
    rw [heq, Bool.eq_iff_iff, IdMap.contains_insert]
    constructor
    · rintro (rfl | hj)
      · exact hglobal
      · exact hj
    · exact .inr
  · rw [heq]

/-! ## Local or global -/

/-- **The invariant.** No id is both local to a frame and global. -/
def Separate (m : Memory) : Prop :=
  ∀ frame ∈ m.frames, ∀ id, frame.locals.contains id → ¬m.globals.contains id

theorem separate_empty : Separate empty := fun _ h => (by cases h)

namespace Separate

theorem store (h : m.Separate) (id : Nat) (v : Value) : (m.store id v).Separate := by
  rcases store_cases m id v with ⟨hnil | hglobal, heq⟩ | ⟨frame, frames, hframes, hlocal, heq⟩
  · intro frame hframe
    rw [heq, hnil] at hframe
    cases hframe
  · -- the id was global before, so it is not local
    intro frame hframe j hj
    rw [heq] at hframe ⊢
    have hno := h frame hframe j hj
    rw [IdMap.contains_insert]
    rintro (rfl | hj')
    · exact hno hglobal
    · exact hno hj'
  · intro f hf j hj
    rw [heq] at hf ⊢
    rcases List.mem_cons.mp hf with rfl | hf
    · rcases IdMap.contains_insert.mp hj with rfl | hj
      · exact hlocal
      · exact h frame (hframes ▸ List.mem_cons_self) j hj
    · exact h f (hframes ▸ List.mem_cons_of_mem _ hf) j hj

theorem pushFrame (h : m.Separate) (address : Nat) (function : FunctionRef) :
    (m.pushFrame { returnAddress := address, function := function }).Separate := by
  intro frame hframe j hj
  rcases List.mem_cons.mp hframe with rfl | hframe
  · cases hj
  · exact h frame hframe j hj

theorem popFrame (h : m.Separate) : (m.apply .popFrame).Separate := by
  rw [apply_popFrame]
  exact fun frame hframe => h frame (List.mem_of_mem_tail hframe)

/-- **One operation.** -/
theorem apply (h : m.Separate) (op : Operation) : (m.apply op).Separate := by
  cases op with
  | store id v => exact h.store id v
  | pushFrame address function => exact h.pushFrame address function
  | popFrame => exact h.popFrame
  | clear => exact separate_empty

theorem applyAll (h : m.Separate) (ops : List Operation) : (m.applyAll ops).Separate := by
  induction ops generalizing m with
  | nil => exact h
  | cons op ops ih => exact ih (h.apply op)

end Separate

/-- **Every sequence.** -/
theorem separate_after (ops : List Operation) : (after ops).Separate := separate_empty.applyAll ops

/-! ## Loads -/

/-- The value of the id in the current frame. -/
def local? (m : Memory) (id : Nat) : Option Value :=
  m.frames.head?.bind fun frame => frame.locals.get? id

theorem load_eq_or (m : Memory) (id : Nat) : m.load id = (m.local? id).or (m.globals.get? id) := by
  unfold load local?
  split
  · next hframes => rw [hframes]; rfl
  · next frame frames hframes => rw [hframes]; rfl

theorem Separate.local?_eq_none (h : m.Separate) (hid : m.frames = [] ∨ m.globals.contains id) :
    m.local? id = none := by
  rw [local?]
  cases hframes : m.frames with
  | nil => rfl
  | cons frame frames =>
    have hglobal : m.globals.contains id := hid.resolve_left (by simp [hframes])
    have hlocal : ¬frame.locals.contains id := fun hlocal =>
      h frame (hframes ▸ List.mem_cons_self) id hlocal hglobal
    simpa [IdMap.contains] using hlocal

/-- **The store that was just made.** It is found, whether it went to the frame or to the globals. -/
theorem Separate.load_store_self (h : m.Separate) : (m.store id v).load id = some v := by
  rcases store_cases m id v with ⟨hwhere, heq⟩ | ⟨frame, frames, -, -, heq⟩
  · have hnone : m.local? id = none := h.local?_eq_none hwhere
    rw [heq, load_eq_or, IdMap.get?_insert_self]
    show (m.local? id).or (some v) = some v
    rw [hnone]
    rfl
  · rw [heq]
    simp only [load, IdMap.get?_insert_self, Option.some_or]

theorem local?_store_of_ne (h : j ≠ id) : (m.store id v).local? j = m.local? j := by
  rcases store_cases m id v with ⟨-, heq⟩ | ⟨frame, frames, hframes, -, heq⟩
  · rw [heq, local?, local?]
  · rw [heq, local?, local?, hframes]
    exact IdMap.get?_insert_of_ne _ h v

theorem globals_store_of_ne (h : j ≠ id) :
    (m.store id v).globals.get? j = m.globals.get? j := by
  rcases store_cases m id v with ⟨-, heq⟩ | ⟨frame, frames, -, -, heq⟩
  · rw [heq]
    exact IdMap.get?_insert_of_ne _ h v
  · rw [heq]

theorem load_store_of_ne (h : j ≠ id) : (m.store id v).load j = m.load j := by
  rw [load_eq_or, load_eq_or, local?_store_of_ne h, globals_store_of_ne h]

/-! ## Calls that are over -/

/-- The operations of a call: its frame is pushed, `inner` is done, and the frame is popped. -/
def calling (address : Nat) (function : FunctionRef) (inner : List Operation) : List Operation :=
  .pushFrame address function :: (inner ++ [.popFrame])

/-- Every call that is entered is left again, and no other. -/
inductive Nested : List Operation → Prop
  | nil : Nested []
  | store (id : Nat) (v : Value) {ops : List Operation} (h : Nested ops) : Nested (.store id v :: ops)
  | call (address : Nat) (function : FunctionRef) {inner ops : List Operation} (hinner : Nested inner)
      (h : Nested ops) : Nested (calling address function inner ++ ops)

theorem Nested.append (h : Nested ops) (h' : Nested ops') : Nested (ops ++ ops') := by
  induction h with
  | nil => exact h'
  | store id v _ ih => exact .store id v ih
  | call address function hinner _ _ ih =>
    rw [List.append_assoc]
    exact .call address function hinner ih

theorem nested_calling (h : Nested ops) (address : Nat) (function : FunctionRef) :
    Nested (calling address function ops) := by
  have hcall := Nested.call address function h .nil
  rwa [List.append_nil] at hcall

section Calling

variable (m : Memory) (address : Nat) (function : FunctionRef) (inner : List Operation)

theorem applyAll_calling : m.applyAll (calling address function inner) =
    ((m.apply (.pushFrame address function)).applyAll inner).apply .popFrame := by
  rw [calling, applyAll_cons, applyAll_append, applyAll_cons, applyAll_nil]

theorem globals_calling : (m.applyAll (calling address function inner)).globals =
    ((m.apply (.pushFrame address function)).applyAll inner).globals := by
  rw [applyAll_calling, apply_popFrame]

theorem frames_calling : (m.applyAll (calling address function inner)).frames =
    ((m.apply (.pushFrame address function)).applyAll inner).frames.tail := by
  rw [applyAll_calling, apply_popFrame]

end Calling

namespace Nested

theorem tail_frames (h : Nested ops) : (m.applyAll ops).frames.tail = m.frames.tail := by
  induction h generalizing m with
  | nil => rfl
  | store id v _ ih => exact ih.trans (tail_frames_store m id v)
  | call address function _ _ ihinner ih =>
    rw [applyAll_append, ih, frames_calling, ihinner]
    rfl

/-- **The frames after a call.** They are those before it. -/
theorem frames_of_call (h : Nested ops) (address : Nat) (function : FunctionRef) :
    (m.applyAll (calling address function ops)).frames = m.frames := by
  rw [frames_calling, h.tail_frames]
  rfl

/-- Where an id is not stored, the current frame and the globals have what they had. -/
theorem lookups (h : Nested ops) (hid : ∀ w, .store id w ∉ ops) :
    (m.applyAll ops).local? id = m.local? id ∧
      (m.applyAll ops).globals.get? id = m.globals.get? id := by
  induction h generalizing m with
  | nil => exact ⟨rfl, rfl⟩
  | store j v _ ih =>
    have hne : id ≠ j := fun heq => hid v (heq ▸ List.mem_cons_self)
    obtain ⟨hlocal, hglobal⟩ := ih (m := m.store j v) fun w hw => hid w (List.mem_cons_of_mem _ hw)
    exact ⟨hlocal.trans (local?_store_of_ne hne), hglobal.trans (globals_store_of_ne hne)⟩
  | @call address function inner ops hinner _ ihinner ih =>
    have hframes := hinner.frames_of_call (m := m) address function
    -- inside the call another frame is current, but the globals are the same
    have hids : (∀ w, .store id w ∉ inner) ∧ ∀ w, .store id w ∉ ops := by
      constructor <;> (intro w hw; exact hid w (by simp [calling, hw]))
    obtain ⟨hlocal, hglobal⟩ := ih (m := m.applyAll (calling address function inner)) hids.2
    obtain ⟨-, hinside⟩ := ihinner (m := m.apply (.pushFrame address function)) hids.1
    rw [applyAll_append, hlocal, hglobal, globals_calling, hinside, local?, hframes]
    exact ⟨rfl, rfl⟩

theorem load_eq (h : Nested ops) (hid : ∀ w, .store id w ∉ ops) :
    (m.applyAll ops).load id = m.load id := by
  obtain ⟨hlocal, hglobal⟩ := h.lookups (m := m) hid
  rw [load_eq_or, load_eq_or, hlocal, hglobal]

/-- In a call no id becomes global, whatever is called. -/
theorem contains_globals (h : Nested ops) (hm : m.frames ≠ []) :
    (m.applyAll ops).globals.contains j = m.globals.contains j := by
  induction h generalizing m with
  | nil => rfl
  | store id v _ ih =>
    have hrest := ih (m := m.store id v) (frames_store_ne_nil hm)
    exact hrest.trans (contains_globals_store hm)
  | @call address function inner ops hinner _ ihinner ih =>
    have hframes := hinner.frames_of_call (m := m) address function
    have hinside := ihinner (m := m.apply (.pushFrame address function)) (List.cons_ne_nil _ _)
    rw [applyAll_append, ih (hframes ▸ hm), globals_calling, hinside]
    rfl

/-- A call never changes what its caller has in its frame, even if it stores the same ids. -/
theorem load_of_call (h : Nested ops) (hm : m.frames ≠ []) (hid : ¬m.globals.contains id)
    (address : Nat) (function : FunctionRef) :
    (m.applyAll (calling address function ops)).load id = m.load id := by
  have hframes := h.frames_of_call (m := m) address function
  have hcall := nested_calling h address function
  have hbefore : m.globals.get? id = none := by simpa [IdMap.contains] using hid
  have hafter : (m.applyAll (calling address function ops)).globals.get? id = none := by
    rw [← hcall.contains_globals hm] at hid
    simpa [IdMap.contains] using hid
  rw [load_eq_or, load_eq_or, hbefore, hafter, local?, hframes]
  rfl

end Nested

/-! ## Where frames come from -/

/-- How the frames came about: each was pushed onto those below it, and since then every call out of it
was left again. -/
inductive Opened : List Operation → List Frame → Prop
  | bottom (ops : List Operation) : Opened ops []
  | frame (frame : Frame) {before inner : List Operation} {frames : List Frame}
      (h : Opened before frames) (hframes : (after before).frames = frames) (hinner : Nested inner) :
      Opened (before ++ .pushFrame frame.returnAddress frame.function :: inner) (frame :: frames)

namespace Opened

/-- What is done in the current frame. -/
theorem append {later : List Operation} {frame frame' : Frame} {frames : List Frame}
    (h : Opened ops (frame :: frames)) (hlater : Nested later)
    (haddress : frame'.returnAddress = frame.returnAddress) (hfunction : frame'.function = frame.function) :
    Opened (ops ++ later) (frame' :: frames) := by
  cases h with
  | @frame _ before inner _ hbefore hframes hinner =>
    rw [List.append_assoc, List.cons_append, ← haddress, ← hfunction]
    exact .frame frame' hbefore hframes (hinner.append hlater)

/-- **One operation.** -/
theorem apply (h : Opened ops (after ops).frames) (op : Operation) :
    Opened (ops ++ [op]) ((after ops).apply op).frames := by
  cases op with
  | store id v =>
    -- the frames stay, but for a local of the current one
    have hstore : Nested [.store id v] := .store id v .nil
    show Opened _ ((after ops).store id v).frames
    rcases store_cases (after ops) id v with ⟨-, heq⟩ | ⟨frame, frames, hframes, -, heq⟩
    · rw [heq]
      cases hframes : (after ops).frames with
      | nil => exact .bottom _
      | cons frame frames =>
        rw [hframes] at h
        exact h.append hstore rfl rfl
    · rw [heq]
      rw [hframes] at h
      exact h.append hstore rfl rfl
  | pushFrame address function =>
    exact .frame { returnAddress := address, function := function } h rfl .nil
  | popFrame =>
    rw [apply_popFrame]
    show Opened _ (after ops).frames.tail
    cases hframes : (after ops).frames with
    | nil => exact .bottom _
    | cons frame frames =>
      -- the caller is current again, and the call is one more that it has left
      rw [hframes] at h
      cases h with
      | @frame _ before inner _ hbefore _ hinner =>
        cases frames with
        | nil => exact .bottom _
        | cons caller frames =>
          have hcall := nested_calling hinner frame.returnAddress frame.function
          rw [List.append_assoc, List.cons_append]
          exact hbefore.append hcall rfl rfl
  | clear => exact .bottom _

end Opened

/-- **Every sequence.** -/
theorem opened_after (ops : List Operation) : Opened ops (after ops).frames := by
  induction ops using List.reverseRecOn with
  | nil => exact .bottom _
  | append_singleton ops op ih =>
    rw [after_append]
    exact ih.apply op

/-- **Loads and stores agree.** After any operations no id is both local and global, and in a call no
store makes an id global. Hence a load in the frame of a store finds what was stored, until the id is stored
again, and loads of other ids are not affected. A store changes no frame but the current one, the frames
after a call are those before it, and so is everything that a caller has in its own frame. Whenever a frame
is popped, there was such a call. -/
theorem read_after_write (ops : List Operation) :
    (∀ frame ∈ (after ops).frames, ∀ id, frame.locals.contains id → ¬(after ops).globals.contains id) ∧
    (∀ id v, (after ops).frames ≠ [] → ∀ j,
      (after (ops ++ [.store id v])).globals.contains j = (after ops).globals.contains j) ∧
    (∀ id v later, Nested later → (∀ w, .store id w ∉ later) →
      (after (ops ++ .store id v :: later)).load id = some v) ∧
    (∀ id v j, j ≠ id → (after (ops ++ [.store id v])).load j = (after ops).load j) ∧
    (∀ id v, (after (ops ++ [.store id v])).frames.tail = (after ops).frames.tail) ∧
    (∀ address function inner, Nested inner →
      (after (ops ++ calling address function inner)).frames = (after ops).frames) ∧
    (∀ address function inner id, Nested inner → (after ops).frames ≠ [] →
      ¬(after ops).globals.contains id →
      (after (ops ++ calling address function inner)).load id = (after ops).load id) ∧
    (∀ frame m, (after ops).popFrame? = some (frame, m) → ∃ before inner, Nested inner ∧
      ops = before ++ .pushFrame frame.returnAddress frame.function :: inner ∧
      m.frames = (after before).frames) := by
  have hseparate := separate_after ops
  refine ⟨hseparate, fun id v hframes j => ?_, fun id v later hlater hid => ?_, fun id v j hj => ?_,
    fun id v => ?_, fun address function inner hinner => ?_,
    fun address function inner id hinner hframes hid => ?_, fun frame m hp => ?_⟩
  · rw [after_append]
    exact contains_globals_store hframes
  · rw [after_append, applyAll_cons, hlater.load_eq hid]
    exact hseparate.load_store_self
  · rw [after_append]
    exact load_store_of_ne hj
  · rw [after_append]
    exact tail_frames_store (after ops) id v
  · rw [after_append]
    exact hinner.frames_of_call address function
  · rw [after_append]
    exact hinner.load_of_call hframes hid address function
  · obtain ⟨hframes, -⟩ := of_popFrame? hp
    have hopened := opened_after ops
    rw [hframes] at hopened
    cases hopened with
    | @frame _ before inner _ _ hbefore hinner => exact ⟨before, inner, hinner, rfl, hbefore.symm⟩

end Memory

/-! ## Machines -/

namespace Machine

variable {p : Program} {m m' : Machine} {i : Instr Nat}

/-- An instruction does at most one thing to the memory. -/
theorem Effect.exists_apply (h : Effect m i m') :
    m'.memory = m.memory ∨ ∃ op, m'.memory = m.memory.apply op := by
  cases h with
  | @store id v => exact .inr ⟨.store id v, rfl⟩
  | @call f => exact .inr ⟨.pushFrame (m.ip + 1) f, rfl⟩
  | ret hp => exact .inr ⟨.popFrame, by simp only [Memory.apply, hp]⟩
  | _ => exact .inl rfl

/-- The memory of a machine that runs, whatever its program. -/
theorem exists_after (h : Reachable p m) : ∃ ops, m.memory = Memory.after ops := by
  obtain ⟨m₀, n, hs⟩ := h
  refine hs.invariant (P := fun m => ∃ ops, m.memory = Memory.after ops) ?_ ⟨[], rfl⟩
  rintro m m' ⟨ops, hops⟩ hstep
  obtain ⟨-, i, -, he⟩ := effect_of_step hstep
  rcases he.exists_apply with hsame | ⟨op, hop⟩
  · exact ⟨ops, hsame.trans hops⟩
  · exact ⟨ops ++ [op], by rw [hop, hops, Memory.after_append]; rfl⟩

theorem separate_of_reachable (h : Reachable p m) : m.memory.Separate := by
  obtain ⟨ops, hops⟩ := exists_after h
  exact hops ▸ Memory.separate_after ops

/-- An instruction that loads what the one before stored gets it, in hand-written code too. -/
theorem load_after_store (h : Reachable p m) {id : Nat} (hi : m.current? = some (.store id))
    (hs : m.step = (.ok .more, m')) : ∃ v, m.stack.head? = some v ∧ m'.memory.load id = some v := by
  obtain ⟨-, i, hi', he⟩ := effect_of_step hs
  obtain rfl := Option.some.inj (hi.symm.trans hi')
  obtain ⟨v, s, hstack, rfl⟩ := he.of_store
  exact ⟨v, by rw [hstack]; rfl, (separate_of_reachable h).load_store_self⟩

end Machine

end ExactScript
