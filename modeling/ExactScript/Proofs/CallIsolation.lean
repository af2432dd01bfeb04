import ExactScript.Proofs.CallEffects
import ExactScript.Proofs.StackHeights

/-!
# What calls leave alone

All activations share one stack, and no frame records where the values of its caller end. What protects
them is the code: an activation never takes more values than it has above its base. So the values below
the base of an activation stay where they are until it returns, and so does every frame below its own.

The argument follows the call step by step. Its frame stays in place with the return address, whatever
calls are made above it, each of which has its base above that of the call. A return out of the last frame
is then the return of the call itself, and by the discipline of heights it finds one value above the base.

## Contents
* `Level.Holds.suffix_of_effect`, one instruction and the values below the base;
* `Callees`, the frames above a call with the bases of their activations;
* `Enclosed`, the states in the course of a call, with `Enclosed.step` and `Enclosed.of_trail`;
* `Program.call_isolated`, the theorem.
-/

namespace ExactScript

variable {ann : Nat → Level} {p : Program}

/-! ## The values below -/

/-- After an instruction with a result there is at least this result above the base. -/
theorem stackHeights_pos_of_combine {i : Instr Nat} {a b : Level} {ops : List Value}
    {r : Except RunError Value} (hc : i.combine ops = some r) (hb : stackHeights.Step i a b) :
    0 < b.height := by
  have hplain : i.Plain → (∃ h, a.height = h + i.takes ∧
      b = { height := h + i.leaves, inside := a.inside }) → 0 < b.height := by
    rintro hi ⟨k, -, rfl⟩
    obtain ⟨-, hleaves⟩ := Instr.length_of_combine hi hc
    rw [hleaves]
    exact Nat.succ_pos k
  cases Instr.combination_of_combine hc with
  | push l =>
    obtain rfl : b = { height := a.height + 1, inside := a.inside, top := some l } := hb
    exact Nat.succ_pos _
  | buildList =>
    obtain ⟨k, -, -, -, -, -, rfl⟩ := hb
    exact Nat.succ_pos k
  | buildMap =>
    obtain ⟨k, -, -, -, -, -, -, rfl⟩ := hb
    exact Nat.succ_pos k
  | makeFunction =>
    obtain ⟨k, -, rfl⟩ := hb
    exact Nat.succ_pos k
  | _ => exact hplain trivial hb

namespace Level.Holds

variable {a : Level} {base : Nat} {addresses : List Nat} {m m' : Machine} {i : Instr Nat} {rest : Stack}

/-- Taking the topmost values above the base leaves those below. -/
theorem suffix_of_taken (h : a.Holds base addresses m.stack) (ops : Stack) {s : Stack}
    (hs : m.stack = ops ++ s) (hops : ops.length ≤ a.height) (hrest : rest <:+ m.stack)
    (hlen : rest.length ≤ base) : rest <:+ s := by
  have hheight := h.height
  rw [hs] at hrest hheight
  rw [List.length_append] at hheight
  exact List.suffix_of_suffix_length_le hrest (List.suffix_append ops s) (by omega)

/-- **One instruction.** It leaves the values below the base alone. -/
theorem suffix_of_effect {arrive : Nat → Level → Prop} (h : a.Holds base addresses m.stack)
    (hadmits : stackHeights.Admits arrive m.ip a i) (he : Machine.Effect m i m') (hrest : rest <:+ m.stack)
    (hlen : rest.length ≤ base) : rest <:+ m'.stack := by
  cases he with
  | @compute _ ops s v hs hc =>
    have hholds := h
    rw [hs] at hholds
    have hheight := hholds.height
    rw [List.length_append] at hheight
    -- the result is above the base, so the operands were too
    have hops : ops.length ≤ a.height := by
      rcases hadmits.combine hc with ⟨b, hb, -⟩ | ⟨f, x, b, rfl, ⟨-, rfl⟩, -, -⟩
      · have hpos := stackHeights_pos_of_combine hc hb
        have hafter := (hholds.combine hc hb).height
        rw [List.length_cons] at hafter
        omega
      · cases Instr.combination_of_combine hc
        exact Nat.zero_le _
    exact (h.suffix_of_taken ops hs hops hrest hlen).trans (List.suffix_cons v s)
  | @pop v s hs =>
    obtain ⟨b, ⟨k, hk, -⟩, -⟩ := hadmits
    exact h.suffix_of_taken [v] hs (hk ▸ Nat.le_add_left _ k) hrest hlen
  | @dup v s hs =>
    rw [hs] at hrest
    exact hrest.trans (List.suffix_cons v (v :: s))
  | jump => exact hrest
  | @taken sense _ s hs =>
    obtain ⟨b, ⟨k, hk, -⟩, -, -⟩ := hadmits
    exact h.suffix_of_taken [.bool sense] hs (hk ▸ Nat.le_add_left _ k) hrest hlen
  | @passed _ c _ s hs =>
    obtain ⟨b, ⟨k, hk, -⟩, -, -⟩ := hadmits
    exact h.suffix_of_taken [.bool c] hs (hk ▸ Nat.le_add_left _ k) hrest hlen
  | @load _ v => exact hrest.trans (List.suffix_cons v m.stack)
  | @store _ v s hs =>
    obtain ⟨b, ⟨k, hk, -⟩, -⟩ := hadmits
    exact h.suffix_of_taken [v] hs (hk ▸ Nat.le_add_left _ k) hrest hlen
  | @print vs s hs =>
    obtain ⟨b, ⟨k, hk, -⟩, -⟩ := hadmits
    have hbelow := h.suffix_of_taken vs hs (hk ▸ Nat.le_add_left _ k) hrest hlen
    exact hbelow.trans (List.suffix_cons _ s)
  | @call f s hs =>
    obtain ⟨b, ⟨k, hk, -⟩, -⟩ := hadmits
    have htakes : 1 ≤ a.height := by
      simp only [Instr.takes] at hk
      omega
    exact h.suffix_of_taken [.function f] hs htakes hrest hlen
  | ret => exact hrest

end Level.Holds

namespace Balanced

variable {m m' : Machine} {base : Nat} {bases : List Nat} {i : Instr Nat} {rest : Stack}

/-- A call has the callee and its arguments in the running activation. -/
theorem base_le_of_call (hann : stackHeights.Annotates p.code ann) (h : Balanced ann p m base bases)
    {n : Nat} (hi : m.current? = some (.call n)) : base ≤ m.stack.length - (n + 1) := by
  obtain ⟨b, ⟨k, hk, -⟩, -⟩ := h.admits hann hi
  have hheight := h.holds.height
  simp only [Instr.takes] at hk
  omega

/-- A return finds a single value above the base. -/
theorem length_of_ret (hann : stackHeights.Annotates p.code ann) (h : Balanced ann p m base bases)
    (hi : m.current? = some .ret) : m.stack.length = base + 1 := by
  obtain ⟨-, hone, -⟩ := h.admits hann hi
  rw [h.holds.height, hone]

end Balanced

/-! ## The frames -/

/-- An instruction that neither calls nor returns changes at most the locals of the running call. -/
theorem Machine.Effect.frames {m m' : Machine} {i : Instr Nat} (h : Effect m i m')
    (hcall : ∀ n, i ≠ .call n) (hret : i ≠ .ret) :
    m'.memory.frames = m.memory.frames ∨
      ∃ frame frames locals, m.memory.frames = frame :: frames ∧
        m'.memory.frames = { frame with locals := locals } :: frames := by
  cases h with
  | @store id v =>
    rcases Memory.store_cases m.memory id v with ⟨-, heq⟩ | ⟨frame, frames, hframes, -, heq⟩
    · exact .inl (by simp only [heq])
    · exact .inr ⟨frame, frames, frame.locals.insert id v, hframes, by simp only [heq]⟩
  | @call f => exact absurd rfl (hcall f.arity)
  | ret => exact absurd rfl hret
  | _ => exact .inl rfl

/-- The frame of a call, on top of the frames `outer`, with the frames of the calls that it makes above
it. Each has its base in the other list, which goes on with the bases `lower`. -/
inductive Callees (address : Nat) (outer : List Frame) (floor : Nat) (lower : List Nat) :
    List Frame → List Nat → Prop
  | own {frame : Frame} (h : frame.returnAddress = address) :
      Callees address outer floor lower (frame :: outer) (floor :: lower)
  | above (frame : Frame) {frames : List Frame} {base : Nat} {bases : List Nat} (hle : floor ≤ base)
      (h : Callees address outer floor lower frames bases) :
      Callees address outer floor lower (frame :: frames) (base :: bases)

namespace Callees

variable {address floor base : Nat} {outer frames : List Frame} {frame : Frame} {lower bases : List Nat}

/-- The base of the running activation is not below that of the call. -/
theorem floor_le (h : Callees address outer floor lower frames (base :: bases)) : floor ≤ base := by
  cases h with
  | own => exact Nat.le_refl _
  | above _ hle _ => exact hle

theorem suffix (h : Callees address outer floor lower frames bases) : outer <:+ frames := by
  induction h with
  | own => exact List.suffix_cons _ _
  | above frame _ _ ih => exact ih.trans (List.suffix_cons frame _)

theorem depth_lt (h : Callees address outer floor lower frames bases) :
    outer.length < frames.length := by
  induction h with
  | own => exact Nat.lt_succ_self _
  | above _ _ _ ih => exact Nat.lt_succ_of_lt ih

/-- The locals of the running call do not matter. -/
theorem withLocals (locals : IdMap Value) (h : Callees address outer floor lower (frame :: frames) bases) :
    Callees address outer floor lower ({ frame with locals := locals } :: frames) bases := by
  cases h with
  | own h => exact .own h
  | above _ hle h => exact .above _ hle h

end Callees

/-! ## In the course of a call -/

/-- A state in the course of a call that was made above the values `rest` and the frames `outer`. -/
structure Enclosed (ann : Nat → Level) (p : Program) (address : Nat) (outer : List Frame) (rest : Stack)
    (lower : List Nat) (m : Machine) (base : Nat) (bases : List Nat) : Prop where
  balanced : Balanced ann p m base bases
  callees : Callees address outer rest.length lower m.memory.frames (base :: bases)
  kept : rest <:+ m.stack

/-- The state after a call that was made above the values `rest` and the frames `outer`. -/
structure Landed (address : Nat) (outer : List Frame) (rest : Stack) (m : Machine) : Prop where
  ip : m.ip = address
  stack : ∃ v, m.stack = v :: rest
  frames : m.memory.frames = outer

namespace Enclosed

variable {address base : Nat} {outer : List Frame} {rest : Stack} {lower bases : List Nat}
  {m m' : Machine}

/-- A call that starts. -/
theorem of_call (hann : stackHeights.Annotates p.code ann) (h : Balanced ann p m base bases) {n : Nat}
    (hi : m.current? = some (.call n)) (he : Machine.Effect m (.call n) m')
    (hrest : rest <:+ m.stack) (hlen : rest.length = m.stack.length - (n + 1)) :
    Enclosed ann p (m.ip + 1) m.memory.frames rest (base :: bases) m' rest.length (base :: bases) := by
  have hbalanced := h.effect_call hann hi he
  rw [← hlen] at hbalanced
  obtain ⟨f, s, -, hs, -, hm'⟩ := he.of_call
  refine ⟨hbalanced, ?_, ?_⟩
  · rw [hm']
    exact .own rfl
  · have hbelow : rest.length ≤ s.length := by
      rw [hs, List.length_cons] at hlen
      omega
    rw [hm']
    rw [hs] at hrest
    exact List.suffix_of_suffix_length_le hrest (List.suffix_cons (.function f) s) hbelow

/-- **One step.** The call goes on, or it returns. -/
theorem step (hann : stackHeights.Annotates p.code ann)
    (h : Enclosed ann p address outer rest lower m base bases) (hs : m.step = (.ok .more, m')) :
    (∃ base' bases', Enclosed ann p address outer rest lower m' base' bases') ∨
      (m.current? = some .ret ∧ Landed address outer rest m') := by
  obtain ⟨-, i, hi, he⟩ := Machine.effect_of_step hs
  have hfloor := h.callees.floor_le
  have hkept := h.balanced.holds.suffix_of_effect (h.balanced.admits hann hi) he h.kept hfloor
  by_cases hcall : ∃ n, i = .call n
  · -- the base of a call that it makes is above its own, since the callee is
    obtain ⟨n, rfl⟩ := hcall
    have habove := h.balanced.base_le_of_call hann hi
    refine .inl ⟨_, _, h.balanced.effect_call hann hi he, ?_, hkept⟩
    obtain ⟨f, s, -, -, -, rfl⟩ := he.of_call
    exact .above _ (Nat.le_trans hfloor habove) h.callees
  · by_cases hret : i = .ret
    · -- the frame on top is that of a call above, or that of the call itself
      subst hret
      obtain ⟨below, lower', rfl, hbalanced⟩ := h.balanced.effect_ret hann hi he
      have hone := h.balanced.length_of_ret hann hi
      have hcallees := h.callees
      obtain ⟨frame, memory, hp, rfl⟩ := he.of_ret
      obtain ⟨hframes, -⟩ := Memory.of_popFrame? hp
      rw [hframes] at hcallees
      cases hcallees with
      | own haddress =>
        refine .inr ⟨hi, haddress, ?_, rfl⟩
        obtain ⟨top, htop⟩ := h.kept
        rw [← htop, List.length_append, Nat.add_comm, Nat.add_left_cancel_iff] at hone
        obtain ⟨v, rfl⟩ := List.length_eq_one_iff.mp hone
        exact ⟨v, htop.symm⟩
      | above _ _ hcallees => exact .inl ⟨below, lower', hbalanced, hcallees, hkept⟩
    · have hstays : ∀ n, i ≠ .call n := fun n hn => hcall ⟨n, hn⟩
      refine .inl ⟨base, bases, h.balanced.effect_other hann hi he hstays hret, ?_, hkept⟩
      rcases he.frames hstays hret with hsame | ⟨frame, frames, locals, hbefore, hafter⟩
      · exact hsame ▸ h.callees
      · have hcallees := h.callees
        rw [hbefore] at hcallees
        rw [hafter]
        exact hcallees.withLocals locals

/-- **A run.** As long as the call goes on it leaves alone what is below it, and it ends at its return. -/
theorem of_trail (hann : stackHeights.Annotates p.code ann) {trail : List Machine}
    (ht : Machine.Trail m trail m') (h : Enclosed ann p address outer rest lower m base bases)
    (habove : ∀ x ∈ trail, outer.length < x.memory.depth) (hback : m'.memory.depth = outer.length) :
    (∀ x ∈ trail, rest <:+ x.stack ∧ outer <:+ x.memory.frames) ∧
      (∃ last, trail.getLast? = some last ∧ last.current? = some .ret) ∧ Landed address outer rest m' := by
  induction ht generalizing base bases with
  | nil m =>
    have hdepth : outer.length < m.memory.depth := h.callees.depth_lt
    omega
  | @cons m m₁ m' trail hs ht ih =>
    obtain ⟨-, hrest⟩ := List.forall_mem_cons.mp habove
    have hhead : rest <:+ m.stack ∧ outer <:+ m.memory.frames := ⟨h.kept, h.callees.suffix⟩
    rcases h.step hann hs with ⟨base', bases', hnext⟩ | ⟨hi, hlanded⟩
    · obtain ⟨hkept, ⟨last, hlast, hret⟩, hlanded⟩ := ih hnext hrest hback
      refine ⟨List.forall_mem_cons.mpr ⟨hhead, hkept⟩, ⟨last, ?_, hret⟩, hlanded⟩
      rw [List.getLast?_cons, hlast]
      rfl
    · -- the call is over, so nothing is left of the trail
      cases ht with
      | nil => exact ⟨by simpa using hhead, ⟨m, rfl, hi⟩, hlanded⟩
      | cons =>
        have hdepth := (List.forall_mem_cons.mp hrest).1
        rw [Memory.depth, hlanded.frames] at hdepth
        exact absurd hdepth (Nat.lt_irrefl _)

end Enclosed

/-- **A call that returns**, made where the stack has a height. -/
theorem Balanced.returns (hann : stackHeights.Annotates p.code ann) {m m' : Machine} {trail : List Machine}
    {base : Nat} {bases : List Nat} (hbalanced : Balanced ann p m base bases) (hcall : m.Returns trail m') :
    ∃ f args rest v, m.current? = some (.call f.arity) ∧
      m.stack = .function f :: (args ++ rest) ∧ args.length = f.arity ∧
      (∀ x ∈ trail, rest <:+ x.stack ∧ m.memory.frames <:+ x.memory.frames) ∧
      (∃ last, trail.getLast? = some last ∧ last.current? = some .ret) ∧
      m'.ip = m.ip + 1 ∧ m'.stack = v :: rest ∧ m'.memory.frames = m.memory.frames := by
  -- the first step of the call pops the callee, and leaves the arguments to it
  obtain ⟨n, hi⟩ := hcall.call
  obtain ⟨m₁, hs, ht⟩ : ∃ m₁, m.step = (.ok .more, m₁) ∧ Machine.Trail m₁ trail m' := by
    cases hcall.run with
    | cons hs ht => exact ⟨_, hs, ht⟩
  obtain ⟨-, i, hi', he⟩ := Machine.effect_of_step hs
  obtain rfl : .call n = i := Option.some.inj (hi.symm.trans hi')
  obtain ⟨f, s, hf, hstack, hargs, -⟩ := he.of_call
  obtain ⟨args, rest, rfl, hlen⟩ := Stack.exists_append hargs
  have hrest : rest <:+ m.stack :=
    hstack ▸ (List.suffix_append args rest).trans (List.suffix_cons (Value.function f) _)
  have hbelow : rest.length = m.stack.length - (n + 1) := by
    rw [hstack, List.length_cons, List.length_append]
    omega
  -- from there on everything happens above the frame of the call
  have hstart := Enclosed.of_call hann hbalanced hi he hrest hbelow
  obtain ⟨hkept, hlast, hip, ⟨v, hv⟩, hframes⟩ := hstart.of_trail hann ht hcall.above hcall.back
  exact ⟨f, args, rest, v, hf ▸ hi, hstack, hlen.trans hf.symm, hkept, hlast, hip, hv, hframes⟩

/-! ## Compiled programs -/

namespace Program

variable {tree : List (Expr Symbol)}

/-- **Calls are isolated.** A call that returns goes on with the next instruction. On the stack there is
one value in the place of the callee and its arguments, the values below and all frames are as they were,
and they were there throughout the call. -/
theorem call_isolated (h : ofTree tree = .ok p) (hfits : ∀ e ∈ tree, e.Fits) {m m' : Machine}
    {trail : List Machine} (hm : Machine.Reachable p m) (hcall : m.Returns trail m') :
    ∃ f args rest v, m.current? = some (.call f.arity) ∧
      m.stack = .function f :: (args ++ rest) ∧ args.length = f.arity ∧
      (∀ x ∈ trail, rest <:+ x.stack ∧ m.memory.frames <:+ x.memory.frames) ∧
      (∃ last, trail.getLast? = some last ∧ last.current? = some .ret) ∧
      m'.ip = m.ip + 1 ∧ m'.stack = v :: rest ∧ m'.memory.frames = m.memory.frames := by
  -- at every reachable state the code has a height, and the running activation a base
  obtain ⟨ann, hann, hinv⟩ := exists_balanced h hfits
  obtain ⟨bases, htracked⟩ := Machine.exists_tracked hm
  obtain ⟨base, rest, -, hbalanced⟩ := hinv m bases htracked
  exact hbalanced.returns hann hcall

/-- A call out of a call, with a value of the caller on the stack and in its locals. -/
def sampleNested : Program where
  code := #[.jump 6, .store 1, .makeFunction 1 1, .store 0, .load 1, .ret, .makeFunction 1 1, .dup,
    .store 0, .pop, .jump 21, .store 3, .makeFunction 11 1, .store 2, .load 3, .load 3, .load 0, .call 1,
    .push (.num (.ofNat 2)), .buildList, .ret, .makeFunction 11 1, .dup, .store 2, .pop,
    .push (.bool true), .load 2, .call 1, .halt]
  names := (((IdMap.empty.insert 0 "f").insert 1 "x").insert 2 "g").insert 3 "y"

/-- The tree of this program. -/
def sampleNestedTree : List (Expr Symbol) :=
  [.function ⟨"f", 0⟩ [⟨"x", 1⟩] [] (.var ⟨"x", 1⟩),
    .function ⟨"g", 2⟩ [⟨"y", 3⟩] [] (.list [.var ⟨"y", 3⟩, .call ⟨"f", 0⟩ [.var ⟨"y", 3⟩]]),
    .call ⟨"g", 2⟩ [.literal (.bool true)]]

theorem sampleNested_returns : ∃ m trail m', Machine.Reachable sampleNested m ∧ m.Returns trail m' ∧
    m.stack = [.function ⟨1, 1⟩, .bool true, .bool true] ∧ m.memory.depth = 1 := by
  refine ⟨_, _, _, ⟨{}, 19, .of_after rfl⟩,
    ⟨⟨1, rfl⟩, .cons rfl (.cons rfl (.cons rfl (.cons rfl (.cons rfl (.cons rfl (.nil _)))))), ?_, rfl⟩,
    rfl, rfl⟩
  iterate 5 refine List.forall_mem_cons.mpr ⟨Nat.lt_succ_self 1, ?_⟩
  exact List.forall_mem_nil _

theorem call_isolated_nested : ∃ m trail m' v, Machine.Reachable sampleNested m ∧
    m.Returns trail m' ∧ m.memory.depth = 1 ∧
    m.stack = [.function ⟨1, 1⟩, .bool true, .bool true] ∧ m'.stack = [v, .bool true] ∧
    m'.ip = m.ip + 1 ∧ m'.memory.frames = m.memory.frames := by
  have hcompile : ofTree sampleNestedTree = .ok sampleNested := rfl
  obtain ⟨m, trail, m', hm, hreturns, hstack, hdepth⟩ := sampleNested_returns
  obtain ⟨f, args, rest, v, -, hs, hargs, -, -, hip, hafter, hframes⟩ :=
    call_isolated hcompile (by decide) hm hreturns
  refine ⟨m, trail, m', v, hm, hreturns, hdepth, hstack, ?_, hip, hframes⟩
  obtain ⟨hcallee, hbelow⟩ := List.cons.inj (hstack.symm.trans hs)
  cases hcallee
  obtain ⟨x, rfl⟩ := List.length_eq_one_iff.mp hargs
  cases hbelow
  exact hafter

end Program

end ExactScript
