import ExactScript.Proofs.Storage
import ExactScript.Proofs.Written

/-!
# Loads never fail

The facts of a program hold at every position of every run: what is known there is stored, on its side.
They also hold of what waits, the calls below the running one and the functions that may be called.

## Contents
* `Stored.Holds`, facts that are true of a memory, and `Stocked`, the invariant;
* `Stocked.of_effect`, its preservation by every instruction;
* `Program.symbols_stored`, the theorem about source text.
-/

namespace ExactScript

/-! ## Memory -/

variable {outer : Nat → Prop} {a b : Stored} {m : Memory} {id : Nat} {v : Value}

/-- What is known is stored. -/
structure Stored.Holds (outer : Nat → Prop) (a : Stored) (m : Memory) : Prop where
  inside : a.inside = !m.frames.isEmpty
  globals : ∀ id, a.known id → outer id → m.globals.contains id
  locals : ∀ id, a.known id → ¬outer id → ∃ f rest, m.frames = f :: rest ∧ f.locals.contains id

/-- Only ids from outside are global. -/
def Memory.Apart (outer : Nat → Prop) (m : Memory) : Prop := ∀ id, m.globals.contains id → outer id

namespace Stored.Holds

theorem of_implies (h : a.Holds outer m) (hab : a.Implies b) : b.Holds outer m where
  inside := hab.inside ▸ h.inside
  globals id hid := h.globals id (hab.known id hid)
  locals id hid := h.locals id (hab.known id hid)

theorem done (h : a.Holds outer m) : a.done.Holds outer m := ⟨h.inside, h.globals, h.locals⟩

/-- Facts outlast what is stored in the globals. -/
theorem of_globals {g : IdMap Value} (h : a.Holds outer m) (hg : ∀ id, m.globals.contains id → g.contains id) :
    a.Holds outer { m with globals := g } where
  inside := h.inside
  globals id hid ho := hg id (h.globals id hid ho)
  locals := h.locals

/-- A load of what is known succeeds. -/
theorem load (h : a.Holds outer m) (hid : a.known id) : ∃ v, m.load id = some v := by
  refine Option.isSome_iff_exists.mp ?_
  by_cases ho : outer id
  · have hglobal : (m.globals.get? id).isSome := h.globals id hid ho
    unfold Memory.load
    split
    · exact hglobal
    · simp [hglobal]
  · obtain ⟨f, rest, hf, hlocal⟩ := h.locals id hid ho
    have hsome : (f.locals.get? id).isSome := hlocal
    simp [Memory.load, hf, hsome]

end Stored.Holds

/-- **Where a store goes**: ids from outside to the globals, all others to the running call. -/
theorem Stored.Holds.store_eq (h : a.Holds outer m) (hid : a.Allows outer id) (hapart : m.Apart outer) :
    (outer id ∧ m.store id v = { m with globals := m.globals.insert id v }) ∨
      (¬outer id ∧ ∃ f rest, m.frames = f :: rest ∧
        m.store id v = { m with frames := { f with locals := f.locals.insert id v } :: rest }) := by
  by_cases ho : outer id
  · refine .inl ⟨ho, Memory.store_eq_global ?_⟩
    cases hf : m.frames with
    | nil => exact .inl rfl
    | cons f rest =>
      have hin : a.inside = true := by rw [h.inside, hf]; rfl
      exact .inr (h.globals id (hid.known ho hin) ho)
  · have hnot : ¬m.globals.contains id := fun hc => ho (hapart id hc)
    have hin := hid.inside ho
    rw [h.inside] at hin
    obtain ⟨f, rest, hf⟩ := List.exists_cons_of_ne_nil (l := m.frames) (by simpa using hin)
    exact .inr ⟨ho, f, rest, hf, Memory.store_eq_local hf hnot⟩

section Store

variable (h : a.Holds outer m) (hid : a.Allows outer id) (hapart : m.Apart outer)
include h hid hapart

/-- No global is lost. -/
theorem Stored.Holds.contains_store {j : Nat} (hj : m.globals.contains j) :
    (m.store id v).globals.contains j := by
  rcases h.store_eq (v := v) hid hapart with ⟨-, heq⟩ | ⟨-, f, rest, -, heq⟩ <;> rw [heq]
  · exact IdMap.contains_insert.mpr (.inr hj)
  · exact hj

theorem Stored.Holds.apart_store : (m.store id v).Apart outer := by
  rcases h.store_eq (v := v) hid hapart with ⟨ho, heq⟩ | ⟨-, f, rest, -, heq⟩ <;> rw [heq]
  · intro j hj
    rcases IdMap.contains_insert.mp hj with rfl | hj
    · exact ho
    · exact hapart j hj
  · exact hapart

/-- What is stored is known. -/
theorem Stored.Holds.store : (a.add id).Holds outer (m.store id v) := by
  rcases h.store_eq (v := v) hid hapart with ⟨ho, heq⟩ | ⟨hno, f, rest, hf, heq⟩ <;> rw [heq]
  · refine ⟨h.inside, ?_, ?_⟩
    · rintro j (hj | rfl) hout
      · exact IdMap.contains_insert.mpr (.inr (h.globals j hj hout))
      · exact IdMap.contains_insert.mpr (.inl rfl)
    · rintro j (hj | rfl) hout
      · exact h.locals j hj hout
      · exact absurd ho hout
  · have hin : a.inside = true := by rw [h.inside, hf]; rfl
    refine ⟨hin, ?_, ?_⟩
    · rintro j (hj | rfl) hout
      · exact h.globals j hj hout
      · exact absurd hout hno
    · rintro j (hj | rfl) hout
      · obtain ⟨f', rest', hf', hlocal⟩ := h.locals j hj hout
        obtain ⟨rfl, rfl⟩ := List.cons.inj (hf.symm.trans hf')
        exact ⟨_, _, rfl, IdMap.contains_insert.mpr (.inr hlocal)⟩
      · exact ⟨_, _, rfl, IdMap.contains_insert.mpr (.inl rfl)⟩

end Store

/-! ## The invariant -/

variable {ann : Nat → Stored} {size : Nat} {g g' : IdMap Value}

/-- A function may be entered when nothing that it relies on is pending. -/
structure Callable (outer : Nat → Prop) (ann : Nat → Stored) (size : Nat) (g : IdMap Value)
    (pending : Option Nat) (f : FunctionRef) : Prop where
  entry_lt : f.entry < size
  entry : (ann f.entry).Entry
  known : ∀ id, (ann f.entry).known id → outer id ∧ (g.contains id ∨ pending = some id)

theorem Callable.mono {pending pending' : Option Nat} {f : FunctionRef}
    (h : Callable outer ann size g pending f) (hg : ∀ id, g.contains id → g'.contains id)
    (hp : ∀ id, pending = some id → g'.contains id ∨ pending' = some id) :
    Callable outer ann size g' pending' f where
  entry_lt := h.entry_lt
  entry := h.entry
  known id hid := ⟨(h.known id hid).1, (h.known id hid).2.elim (fun hc => .inl (hg id hc)) (hp id)⟩

/-- The call that is left by a return finds what it needs. -/
structure Resumes (outer : Nat → Prop) (ann : Nat → Stored) (size : Nat) (address : Nat) (m : Memory) :
    Prop where
  lt : address < size
  pending : (ann address).pending = none
  made : (ann address).made = none
  holds : (ann address).Holds outer m

/-- So do all calls in progress. -/
def AllResume (outer : Nat → Prop) (ann : Nat → Stored) (size : Nat) (g : IdMap Value) :
    List Frame → Prop
  | [] => True
  | f :: rest => Resumes outer ann size f.returnAddress ⟨g, rest⟩ ∧ AllResume outer ann size g rest

theorem AllResume.mono {frames : List Frame} (h : AllResume outer ann size g frames)
    (hg : ∀ id, g.contains id → g'.contains id) : AllResume outer ann size g' frames := by
  induction frames with
  | nil => trivial
  | cons f rest ih =>
    obtain ⟨⟨hlt, hpending, hmade, hholds⟩, hrest⟩ := h
    exact ⟨⟨hlt, hpending, hmade, hholds.of_globals hg⟩, ih hrest⟩

/-- **The invariant.** -/
structure Stocked (outer : Nat → Prop) (ann : Nat → Stored) (p : Program) (m : Machine) : Prop where
  program : m.program = p
  ip_lt : m.ip < p.code.size
  apart : m.memory.Apart outer
  within : m.Within (Callable outer ann p.code.size m.memory.globals (ann m.ip).pending)
  pending : ∀ id, (ann m.ip).pending = some id → (ann m.ip).inside = false
  made : ∀ f, (ann m.ip).made = some f → m.stack.head? = some (.function f)
  holds : (ann m.ip).Holds outer m.memory
  resume : AllResume outer ann p.code.size m.memory.globals m.memory.frames

/-- Instructions that combine their operands change no fact. -/
theorem done_of_combine {i : Instr Nat} {ops : List Value} {r : Except RunError Value}
    (hc : i.combine ops = some r) (hb : (storage outer).Step i a b) : b = a.done := by
  cases i with
  | load => cases ops <;> cases hc
  | store => cases ops <;> cases hc
  | call => cases ops <;> cases hc
  | _ => exact hb

namespace Stocked

variable {p : Program} {m m' : Machine} {i : Instr Nat}

theorem load (h0 : Stored.Implies { inside := false, known := fun _ => False } (ann 0))
    (hsize : 0 < p.code.size) (m : Machine) : Stocked outer ann p (m.load p) where
  program := rfl
  ip_lt := hsize
  apart _ h := by cases h
  within := Machine.within_load m p
  pending _ h := by
    have hnone : none = (ann 0).pending := h0.pending
    exact absurd (hnone.trans h) (by simp)
  made _ h := by
    have hnone : none = (ann 0).made := h0.made
    exact absurd (hnone.trans h) (by simp)
  holds := Stored.Holds.of_implies ⟨rfl, fun _ h => False.elim h, fun _ h => False.elim h⟩ h0
  resume := trivial

/-- The memory stays, and control arrives where `b` is known. -/
theorem of_arrive (h : Stocked outer ann p m) (hprogram : m'.program = m.program)
    (hmemory : m'.memory = m.memory) (harrive : m'.ip < p.code.size ∧ b.Implies (ann m'.ip))
    (hwithin : m'.Within (Callable outer ann p.code.size m.memory.globals b.pending))
    (hpending : ∀ id, b.pending = some id → b.inside = false)
    (hmade : ∀ f, b.made = some f → m'.stack.head? = some (.function f))
    (hholds : b.Holds outer m.memory) : Stocked outer ann p m' := by
  obtain ⟨hlt, himplies⟩ := harrive
  refine ⟨hprogram.trans h.program, hlt, hmemory ▸ h.apart, ?_, ?_, ?_, ?_, hmemory ▸ h.resume⟩
  · rw [hmemory, ← himplies.pending]
    exact hwithin
  · rw [← himplies.pending, ← himplies.inside]
    exact hpending
  · rw [← himplies.made]
    exact hmade
  · rw [hmemory]
    exact hholds.of_implies himplies

/-- The same after an instruction that leaves what is known as it is. -/
theorem of_done (h : Stocked outer ann p m) (hprogram : m'.program = m.program)
    (hmemory : m'.memory = m.memory)
    (harrive : m'.ip < p.code.size ∧ (ann m.ip).done.Implies (ann m'.ip))
    (hwithin : m'.Within (Callable outer ann p.code.size m.memory.globals (ann m.ip).pending)) :
    Stocked outer ann p m' :=
  h.of_arrive hprogram hmemory harrive hwithin h.pending (fun _ hf => by cases hf) h.holds.done

theorem effect_ret (h : Stocked outer ann p m) (he : Machine.Effect m .ret m') :
    Stocked outer ann p m' := by
  have hwithin := he.within h.within fun entry arity hm => by cases hm
  have hresume := h.resume
  obtain ⟨frame, memory, hp, rfl⟩ := he.of_ret
  have hinside := h.holds.inside
  unfold Memory.popFrame? at hp
  split at hp
  · cases hp
  next f rest hframes =>
  cases hp
  rw [hframes] at hresume hinside
  obtain ⟨⟨hlt, hpending, hmade, hholds⟩, hrest⟩ := hresume
  refine ⟨h.program, hlt, h.apart, ?_, ?_, ?_, hholds, hrest⟩
  · refine hwithin.mono fun f' hf' => hf'.mono (fun _ hc => hc) fun id hid => ?_
    exact absurd (hinside.symm.trans (h.pending id hid)) (by simp)
  · exact fun id hid => absurd (hpending.symm.trans hid) (by simp)
  · exact fun f' hf' => absurd (hmade.symm.trans hf') (by simp)

variable (hann : (storage outer).Annotates p.code ann)
include hann

theorem admits (h : Stocked outer ann p m) (hi : m.current? = some i) :
    (storage outer).Admits (fun t x => t < p.code.size ∧ x.Implies (ann t)) m.ip (ann m.ip) i :=
  hann m.ip i (h.program ▸ hi)

/-- A store puts the id on its side, and settles what was pending. -/
theorem effect_store (h : Stocked outer ann p m) (hi : m.current? = some (.store id))
    (he : Machine.Effect m (.store id) m') : Stocked outer ann p m' := by
  obtain ⟨b, ⟨hallows, rfl⟩, hlt, himplies⟩ := h.admits hann hi
  have hwithin := he.within h.within fun entry arity hm => by cases hm
  obtain ⟨v, s, hs, rfl⟩ := he.of_store
  have hmore : ∀ j, m.memory.globals.contains j → (m.memory.store id v).globals.contains j :=
    fun j hj => h.holds.contains_store hallows h.apart hj
  have hpending : (ann (m.ip + 1)).pending = if (ann m.ip).pending = some id then none
      else (ann m.ip).pending := himplies.pending.symm
  have hmade : none = (ann (m.ip + 1)).made := himplies.made
  refine ⟨h.program, hlt, h.holds.apart_store hallows h.apart, ?_, fun j hj => ?_, fun f hf => ?_,
    (h.holds.store hallows h.apart).of_implies himplies, ?_⟩
  · refine hwithin.mono fun f hf => hf.mono hmore fun j hj => ?_
    simp only [hpending]
    split
    · next hid =>
      -- what is pending is stored outside of all calls
      obtain rfl : id = j := Option.some.inj (hid.symm.trans hj)
      have hnil : m.memory.frames = [] := by simpa [h.holds.inside] using h.pending id hj
      refine .inl ?_
      simp only [Memory.store, hnil]
      exact IdMap.contains_insert.mpr (.inl rfl)
    · exact .inr hj
  · simp only [hpending] at hj
    split at hj
    · cases hj
    · exact himplies.inside.symm.trans (h.pending j hj)
  · exact absurd (hmade.trans hf) (by simp)
  · have hresume := h.resume.mono hmore
    rcases h.holds.store_eq (v := v) hallows h.apart with ⟨-, heq⟩ | ⟨-, f, rest, hf, heq⟩
    · rw [heq] at hresume ⊢
      exact hresume
    · rw [heq, hf] at hresume
      simp only [heq]
      exact hresume

theorem effect_call {n : Nat} (h : Stocked outer ann p m) (hi : m.current? = some (.call n))
    (he : Machine.Effect m (.call n) m') : Stocked outer ann p m' := by
  obtain ⟨b, ⟨hnone, rfl⟩, hlt, himplies⟩ := h.admits hann hi
  have hwithin := he.within h.within fun entry arity hm => by cases hm
  obtain ⟨f, s, -, hs, -, rfl⟩ := he.of_call
  have hf := h.within.callee hs
  have hwait : Resumes outer ann p.code.size (m.ip + 1) m.memory :=
    ⟨hlt, himplies.pending.symm.trans hnone, himplies.made.symm,
      h.holds.done.of_implies himplies⟩
  have hglobal : ∀ id, (ann f.entry).known id → outer id ∧ m.memory.globals.contains id := by
    intro id hid
    obtain ⟨ho, hc | hc⟩ := hf.known id hid
    · exact ⟨ho, hc⟩
    · exact absurd (hnone.symm.trans hc) (by simp)
  refine ⟨h.program, hf.entry_lt, h.apart, ?_, ?_, ?_, ?_, hwait, h.resume⟩
  · exact hwithin.mono fun f' hf' => hf'.mono (fun _ hc => hc) fun id hid =>
      absurd (hnone.symm.trans hid) (by simp)
  · exact fun id hid => absurd (hf.entry.pending.symm.trans hid) (by simp)
  · exact fun f' hf' => absurd (hf.entry.made.symm.trans hf') (by simp)
  · exact ⟨hf.entry.inside, fun id hid _ => (hglobal id hid).2, fun id hid hno =>
      absurd (hglobal id hid).1 hno⟩

/-- A function that is made may be called when its name is stored. -/
theorem effect_make {entry arity : Nat} (h : Stocked outer ann p m)
    (hi : m.current? = some (.makeFunction entry arity))
    (he : Machine.Effect m (.makeFunction entry arity) m') : Stocked outer ann p m' := by
  obtain ⟨x, b, ⟨hx, hnone, hknown, hpending, hb⟩, ⟨hlt, hentry⟩, harrive⟩ := h.admits hann hi
  have hcallable : Callable outer ann p.code.size m.memory.globals b.pending ⟨entry, arity⟩ := by
    refine ⟨hlt, ⟨hentry.inside ▸ hx.inside, hentry.pending ▸ hx.pending, hentry.made ▸ hx.made⟩, ?_⟩
    intro id hid
    obtain ⟨ho, hk⟩ := hknown id (hentry.known id hid)
    exact ⟨ho, hk.imp_left fun hk => h.holds.globals id hk ho⟩
  have hold : m.Within (Callable outer ann p.code.size m.memory.globals b.pending) :=
    h.within.mono fun f hf => hf.mono (fun _ hc => hc) fun id hid => absurd (hnone.symm.trans hid) (by simp)
  have hwithin := he.within hold fun entry' arity' hm => by cases hm; exact hcallable
  cases he with
  | compute ops hs hc =>
    cases Instr.combination_of_combine hc
    refine h.of_arrive rfl rfl harrive hwithin (fun id hid => ?_) (fun f hf => ?_) ?_
    · rw [hb]
      exact (hpending id hid).1
    · rw [hb] at hf
      cases hf
      rfl
    · rw [hb]
      exact ⟨h.holds.inside, h.holds.globals, h.holds.locals⟩

/-- **The invariant survives every step.** -/
theorem of_effect (h : Stocked outer ann p m) (hi : m.current? = some i) (he : Machine.Effect m i m') :
    Stocked outer ann p m' := by
  have hadmits := h.admits hann hi
  have hwithin : (∀ entry arity, i ≠ .makeFunction entry arity) →
      m'.Within (Callable outer ann p.code.size m.memory.globals (ann m.ip).pending) := fun hne =>
    he.within h.within fun entry arity hm => absurd hm (hne entry arity)
  have heffect := he
  cases he with
  | compute _ hs hc =>
    by_cases hmake : ∃ entry arity, i = .makeFunction entry arity
    · obtain ⟨entry, arity, rfl⟩ := hmake
      exact h.effect_make hann hi heffect
    · have hne : ∀ entry arity, i ≠ .makeFunction entry arity := fun entry arity hm =>
        hmake ⟨entry, arity, hm⟩
      rcases hadmits.combine hc with ⟨b, hb, harrive⟩ | ⟨f, x, b, hm, -⟩
      · obtain rfl := done_of_combine hc hb
        exact h.of_done rfl rfl harrive (hwithin hne)
      · exact absurd hm (hne _ _)
  | pop =>
    obtain ⟨b, rfl, harrive⟩ := hadmits
    exact h.of_done rfl rfl harrive (hwithin (by simp))
  | dup =>
    obtain ⟨b, rfl, harrive⟩ := hadmits
    exact h.of_done rfl rfl harrive (hwithin (by simp))
  | jump =>
    exact h.of_arrive rfl rfl hadmits (hwithin (by simp)) h.pending h.made h.holds
  | taken =>
    obtain ⟨b, rfl, harrive, -⟩ := hadmits
    exact h.of_done rfl rfl harrive (hwithin (by simp))
  | passed =>
    obtain ⟨b, rfl, -, harrive⟩ := hadmits
    exact h.of_done rfl rfl harrive (hwithin (by simp))
  | load =>
    obtain ⟨b, ⟨-, rfl⟩, harrive⟩ := hadmits
    exact h.of_done rfl rfl harrive (hwithin (by simp))
  | store => exact h.effect_store hann hi heffect
  | print =>
    obtain ⟨b, rfl, harrive⟩ := hadmits
    exact h.of_done rfl rfl harrive (hwithin (by simp))
  | call => exact h.effect_call hann hi heffect
  | ret => exact h.effect_ret heffect

/-- It holds throughout a run. -/
theorem of_reachable (h0 : Stored.Implies { inside := false, known := fun _ => False } (ann 0))
    (hsize : 0 < p.code.size) (h : Machine.Reachable p m) : Stocked outer ann p m := by
  obtain ⟨m₀, n, hs⟩ := h
  refine hs.invariant (P := Stocked outer ann p) (fun m m' hm hstep => ?_) (load h0 hsize m₀)
  obtain ⟨-, i, hi, he⟩ := Machine.effect_of_step hstep
  exact hm.of_effect hann hi he

end Stocked

/-! ## Source text -/

namespace Program

variable {src : String} {source : List Source.Surface} {tree : List (Expr Symbol)} {p : Program}

/-- Runs of source text are stocked. -/
theorem exists_stocked (hparse : Source.parse src = .ok source) (hresolve : resolve source = .ok tree)
    (h : Program.ofTree tree = .ok p) :
    ∃ ann, (storage (· ∈ outsideIds tree)).Annotates p.code ann ∧
      ∀ m, Machine.Reachable p m → Stocked (· ∈ outsideIds tree) ann p m := by
  obtain ⟨ann, h0, hann⟩ := exists_facts (Source.placed_of_parse hparse) hresolve h
  have hsize : 0 < p.code.size := by
    rw [← Array.length_toList, code_of_ofTree h]
    simp [Expr.pieceOfProgram]
  exact ⟨ann, hann, fun m hm => Stocked.of_reachable hann h0 hsize hm⟩

/-- **Loads find their symbols.** What is declared outside of functions is in the globals when it is
loaded, everything else in the frame of the running call; so a load never fails. -/
theorem symbols_stored (hparse : Source.parse src = .ok source) (hresolve : resolve source = .ok tree)
    (h : Program.ofTree tree = .ok p) {m : Machine} (hm : Machine.Reachable p m) {id : Nat}
    (hi : m.current? = some (.load id)) :
    (id ∈ outsideIds tree → m.memory.globals.contains id) ∧
      (id ∉ outsideIds tree → ∃ f rest, m.memory.frames = f :: rest ∧ f.locals.contains id) ∧
      ∃ v, m.memory.load id = some v ∧
        m.step = (.ok .more, { m with stack := v :: m.stack, ip := m.ip + 1 }) := by
  obtain ⟨ann, hann, hstocked⟩ := exists_stocked hparse hresolve h
  have hs := hstocked m hm
  obtain ⟨b, ⟨hknown, -⟩, -⟩ := hs.admits hann hi
  obtain ⟨v, hv⟩ := hs.holds.load hknown
  refine ⟨hs.holds.globals id hknown, hs.holds.locals id hknown, v, hv, ?_⟩
  exact Machine.step_of_effect (Machine.running_of_reachable hm) hi (.load hv)

/-- A function that reads a variable from outside. -/
def sampleReader : Program where
  code := #[.push (.bool true), .dup, .store 0, .pop, .jump 9, .makeFunction 5 0, .store 1, .load 0, .ret,
    .makeFunction 5 0, .dup, .store 1, .pop, .load 1, .call 0, .halt]
  names := (IdMap.empty.insert 0 "a").insert 1 "f"

theorem symbols_stored_reader : ∃ m, Machine.Reachable sampleReader m ∧ m.current? = some (.load 0) ∧
    m.memory.depth = 1 ∧ m.memory.globals.contains 0 ∧ ∃ m', m.step = (.ok .more, m') := by
  have hparse : Source.parse "var a = true; def f() { return a; } f()" =
      .ok [.declare "a" (.literal (.bool true)), .function "f" [] [] (.var "a"), .call "f" []] := rfl
  have hresolve : resolve
        [.declare "a" (.literal (.bool true)), .function "f" [] [] (.var "a"), .call "f" []] =
      .ok [.declare ⟨"a", 0⟩ (.literal (.bool true)), .function ⟨"f", 1⟩ [] [] (.var ⟨"a", 0⟩),
        .call ⟨"f", 1⟩ []] := rfl
  have hcompile : Program.ofTree [.declare ⟨"a", 0⟩ (.literal (.bool true)),
      .function ⟨"f", 1⟩ [] [] (.var ⟨"a", 0⟩), .call ⟨"f", 1⟩ []] = .ok sampleReader := rfl
  obtain ⟨m, hs, hi, hdepth⟩ : ∃ m, Machine.Steps 13 (Machine.load {} sampleReader) m ∧
      m.current? = some (.load 0) ∧ m.memory.depth = 1 :=
    ⟨_, .of_after rfl, rfl, rfl⟩
  have hm : Machine.Reachable sampleReader m := ⟨{}, 13, hs⟩
  obtain ⟨hglobal, -, v, -, hstep⟩ := symbols_stored hparse hresolve hcompile hm hi
  exact ⟨m, hm, hi, hdepth, hglobal (by decide), _, hstep⟩

end Program

end ExactScript
