import ExactScript.Proofs.CallIsolation

/-!
# Executions of parts of the code

A part of the code is executed from its first position until control is right behind it. On the way control
may leave the part, but only with a call, which comes back to it: inside of a piece of code with a height,
every jump leads to a position of the piece or to its end, and every call that returns goes on with the next
instruction. So what is executed of two pieces in a row is what is executed of the first and then what is
executed of the second, whatever calls they make, and each execution of the whole has exactly one of either.

## Contents
* `Machine.Trail.first_back`, the return of a call in the course of a trail;
* `Machine.Executes`, an execution of a piece of code, `Machine.Evaluates`, one that leaves a value;
* `Program.Disciplined`, what is needed of a program;
* `Machine.exists_executes`, a run through a piece, and `Machine.Executes.append`, two pieces in a row;
* `Machine.Executes.step_effect`, executions of a single instruction, with `combine`, `load` and `keep`.
-/

namespace ExactScript

variable {p : Program}

/-- An instruction of a piece that stands in the code. -/
theorem CodeAt.instr_eq {code : Array (Instr Nat)} {i j : Nat} {part : List (Instr Nat)}
    (h : CodeAt code i part) (hj : j < part.length) : code[i + j]? = part[j]? := by
  obtain ⟨rest, hrest⟩ := h
  rw [← Array.getElem?_toList, ← List.getElem?_drop, ← hrest, List.getElem?_append_left hj]

namespace Machine

/-! ## Parts of trails -/

namespace Trail

variable {m m' m'' : Machine} {trail trail' : List Machine}

theorem append (h : Trail m trail m') (h' : Trail m' trail' m'') : Trail m (trail ++ trail') m'' := by
  induction h with
  | nil => exact h'
  | cons hs _ ih => exact .cons hs (ih h')

theorem reachable (h : Trail m trail m') (hm : Reachable p m) : Reachable p m' := by
  induction h with
  | nil => exact hm
  | cons hs _ ih => exact ih (hm.step hs)

theorem program_eq (h : Trail m trail m') : m'.program = m.program := by
  induction h with
  | nil => rfl
  | cons hs _ ih =>
    obtain ⟨-, i, -, he⟩ := effect_of_step hs
    exact ih.trans he.program_eq

/-- The states of a number of steps, if they all succeed, and the state after them. -/
def compute? : Nat → Machine → Option (List Machine × Machine)
  | 0, m => some ([], m)
  | n + 1, m =>
    match m.step with
    | (.ok .more, m') => (compute? n m').map fun r => (m :: r.1, r.2)
    | _ => none

theorem of_compute? {n : Nat} (h : compute? n m = some (trail, m')) : Trail m trail m' := by
  induction n generalizing m trail with
  | zero =>
    obtain ⟨rfl, rfl⟩ := Prod.mk.inj (Option.some.inj h)
    exact .nil m
  | succ n ih =>
    unfold compute? at h
    split at h
    · next hs =>
      obtain ⟨⟨rest, last⟩, hrest, heq⟩ := Option.map_eq_some_iff.mp h
      obtain ⟨rfl, rfl⟩ := Prod.mk.inj heq
      exact .cons hs (ih hrest)
    · cases h

/-- A trail that starts in deeper calls and ends at depth `d`, without going below that, comes to the depth
`d` for a first time. -/
theorem first_back {d : Nat} (h : Trail m trail m') (hm : d < m.memory.depth)
    (habove : ∀ x ∈ trail, d ≤ x.memory.depth) (hback : m'.memory.depth = d) :
    ∃ inner y rest, trail = inner ++ rest ∧ Trail m inner y ∧ Trail y rest m' ∧
      (∀ x ∈ inner, d < x.memory.depth) ∧ y.memory.depth = d := by
  induction h with
  | nil m => omega
  | @cons m m₁ m' trail hs ht ih =>
    obtain ⟨-, hrest⟩ := List.forall_mem_cons.mp habove
    rcases Nat.lt_trichotomy d m₁.memory.depth with hd | hd | hd
    · obtain ⟨inner, y, rest, rfl, hinner, hy, hdeep, hyd⟩ := ih hd hrest hback
      exact ⟨m :: inner, y, rest, rfl, .cons hs hinner, hy, List.forall_mem_cons.mpr ⟨hm, hdeep⟩, hyd⟩
    · exact ⟨[m], m₁, trail, rfl, .cons hs (.nil m₁), ht, by simpa using hm, hd.symm⟩
    · -- the next state is below `d`, so it is neither in the trail nor its end
      cases ht with
      | nil => omega
      | cons => exact absurd hd (Nat.not_lt_of_le (hrest _ List.mem_cons_self))

end Trail

/-! ## Executions -/

/-- Control is in the piece that stands at `i`, with `depth` calls in progress, or in a deeper call. -/
def Underway (depth i : Nat) (q : Piece) (x : Machine) : Prop :=
  depth < x.memory.depth ∨ (x.memory.depth = depth ∧ i ≤ x.ip ∧ x.ip < i + q.width)

instance (depth i : Nat) (q : Piece) (x : Machine) : Decidable (Underway depth i q x) :=
  inferInstanceAs (Decidable (_ ∨ _))

/-- **An execution of a piece of code.** The piece stands where control is in `m`, and control comes to its
end, in the same call, through the states of the trail. -/
structure Executes (q : Piece) (m : Machine) (trail : List Machine) (m' : Machine) : Prop where
  code : CodeAt m.program.code m.ip (q.code m.ip)
  run : Trail m trail m'
  underway : ∀ x ∈ trail, Underway m.memory.depth m.ip q x
  ip : m'.ip = m.ip + q.width
  depth : m'.memory.depth = m.memory.depth

/-- An execution of the piece leaves the value `v` on the stack, above what was there before. -/
structure Evaluates (q : Piece) (m : Machine) (v : Value) (m' : Machine) : Prop where
  executes : ∃ trail, Executes q m trail m'
  stack : m'.stack = v :: m.stack

end Machine

/-- The stack of the program has heights, and keeps to them in every run. -/
def Program.Disciplined (p : Program) : Prop :=
  ∃ ann, stackHeights.Annotates p.code ann ∧ ∀ m, Machine.Reachable p m →
    ∃ base rest, Balanced ann p m base rest

theorem Program.disciplined_of_ofTree {tree : List (Expr Symbol)} (h : Program.ofTree tree = .ok p)
    (hfits : ∀ e ∈ tree, e.Fits) : p.Disciplined := by
  obtain ⟨ann, hann, hinv⟩ := exists_balanced h hfits
  refine ⟨ann, hann, fun m hm => ?_⟩
  obtain ⟨bases, htracked⟩ := Machine.exists_tracked hm
  obtain ⟨base, rest, -, hbalanced⟩ := hinv m bases htracked
  exact ⟨base, rest, hbalanced⟩

namespace Machine

theorem Reachable.program_eq {m : Machine} (h : Reachable p m) : m.program = p := by
  obtain ⟨m₀, n, hs⟩ := h
  refine hs.invariant (P := fun m => m.program = p) (fun m m' hm hstep => ?_) rfl
  obtain ⟨-, i, -, he⟩ := effect_of_step hstep
  exact he.program_eq.trans hm

/-- An instruction that neither calls nor returns stays in the call. -/
theorem Effect.depth_eq {m m' : Machine} {i : Instr Nat} (he : Effect m i m') (hcall : ∀ n, i ≠ .call n)
    (hret : i ≠ .ret) : m'.memory.depth = m.memory.depth := by
  simpa [Memory.addresses, Memory.depth] using congrArg List.length (he.addresses_eq hcall hret)

/-- A plain instruction other than a call goes on with the next. -/
theorem Effect.ip_eq {m m' : Machine} {i : Instr Nat} (he : Effect m i m') (hi : i.Plain)
    (hcall : ∀ n, i ≠ .call n) : m'.ip = m.ip + 1 := by
  cases he with
  | jump => cases hi
  | taken => cases hi
  | passed => cases hi
  | @call f => exact absurd rfl (hcall f.arity)
  | ret => cases hi
  | _ => rfl

/-! ## Through a piece -/

/-- Levels at the positions of the piece that stands at `i`, and at its end, that fit its instructions. -/
structure Fitted (p : Program) (i : Nat) (q : Piece) (ann : Nat → Level) (stop : Level) : Prop where
  code : CodeAt p.code i (q.code i)
  admits : ∀ j instr, (q.code i)[j]? = some instr → stackHeights.Admits
    (stackHeights.Arrives ann i (i + q.width) [(i + q.width, stop)]) (i + j) (ann (i + j)) instr

section Through

variable {m x y m' : Machine} {q : Piece} {i : Nat} {ann : Nat → Level} {stop : Level} {rest : Stack}
  {trail : List Machine}

/-- What is known of a state in the course of an execution of the piece above the values `rest`: these are
still there, and the level at the position, counted from them, holds. -/
structure Crossing (p : Program) (i : Nat) (q : Piece) (ann : Nat → Level) (stop : Level) (rest : Stack)
    (x : Machine) : Prop where
  reachable : Reachable p x
  kept : rest <:+ x.stack
  level : ∃ a, stackHeights.Arrives ann i (i + q.width) [(i + q.width, stop)] x.ip a ∧
    a.Holds rest.length x.memory.addresses x.stack

namespace Crossing

/-- Control is at the end of the piece, or in it. -/
theorem cases (hq : Fitted p i q ann stop) (h : Crossing p i q ann stop rest x) :
    (x.ip = i + q.width ∧ stop.Holds rest.length x.memory.addresses x.stack) ∨
      (i ≤ x.ip ∧ x.ip < i + q.width ∧ (ann x.ip).Holds rest.length x.memory.addresses x.stack ∧
        ∃ instr, x.current? = some instr ∧ stackHeights.Admits
          (stackHeights.Arrives ann i (i + q.width) [(i + q.width, stop)]) x.ip (ann x.ip) instr) := by
  obtain ⟨a, ⟨hlo, hhi, hle⟩ | ⟨b, hb, hle⟩, ha⟩ := h.level
  · obtain ⟨j, hj⟩ := Nat.exists_eq_add_of_le hlo
    have hlt : j < (q.code i).length := by
      rw [Piece.length_code]
      omega
    have hget := CodeAt.instr_eq hq.code hlt
    refine .inr ⟨hlo, hhi, ha.of_implies hle, (q.code i)[j], ?_, ?_⟩
    · rw [current?, h.reachable.program_eq, hj, hget, List.getElem?_eq_getElem hlt]
    · rw [hj]
      exact hq.admits j _ (List.getElem?_eq_getElem hlt)
  · obtain ⟨hip, rfl⟩ : x.ip = i + q.width ∧ b = stop := by simpa using hb
    exact .inl ⟨hip, ha.of_implies hle⟩

/-- **One instruction** of the piece that neither calls nor returns. -/
theorem effect (h : Crossing p i q ann stop rest x) {instr : Instr Nat}
    (hholds : (ann x.ip).Holds rest.length x.memory.addresses x.stack)
    (hadmits : stackHeights.Admits (stackHeights.Arrives ann i (i + q.width) [(i + q.width, stop)]) x.ip
      (ann x.ip) instr)
    (hs : x.step = (.ok .more, y)) (he : Effect x instr y) (hcall : ∀ n, instr ≠ .call n)
    (hret : instr ≠ .ret) : Crossing p i q ann stop rest y where
  reachable := h.reachable.step hs
  kept := hholds.suffix_of_effect hadmits he h.kept (Nat.le_refl _)
  level := by
    obtain ⟨b, harrive, hb⟩ := hholds.effect hadmits he hcall hret
    exact ⟨b, harrive, (he.addresses_eq hcall hret).symm ▸ hb⟩

/-- **A call** out of the piece, which comes back to it. -/
theorem returns (hp : p.Disciplined) (h : Crossing p i q ann stop rest x) {n : Nat}
    (hi : x.current? = some (.call n))
    (hholds : (ann x.ip).Holds rest.length x.memory.addresses x.stack)
    (hadmits : stackHeights.Admits (stackHeights.Arrives ann i (i + q.width) [(i + q.width, stop)]) x.ip
      (ann x.ip) (.call n))
    {inner : List Machine} (hr : x.Returns inner y) : Crossing p i q ann stop rest y := by
  obtain ⟨whole, hann, hbalanced⟩ := hp
  obtain ⟨base, bases, hbase⟩ := hbalanced x h.reachable
  obtain ⟨f, args, below, v, hf, hstack, hargs, -, -, hip, hafter, hframes⟩ := hbase.returns hann hr
  obtain rfl : n = f.arity := by simpa using hi.symm.trans hf
  obtain ⟨b, ⟨k, hk, rfl⟩, harrive⟩ := hadmits
  have hheight := hholds.height
  rw [hstack, List.length_cons, List.length_append] at hheight
  simp only [Instr.takes] at hk
  refine ⟨hr.run.reachable h.reachable, ?_, _, hip ▸ harrive, ?_⟩
  · -- the callee and its arguments were above `rest`
    have hkept := h.kept
    rw [hstack] at hkept
    have hsuffix : below <:+ .function f :: (args ++ below) :=
      (List.suffix_append args below).trans (List.suffix_cons _ _)
    rw [hafter]
    exact (List.suffix_of_suffix_length_le hkept hsuffix (by omega)).trans (List.suffix_cons v below)
  · rw [Memory.addresses, hframes, ← Memory.addresses]
    refine hholds.exchange (t := f.arity + 1) hk ?_
    rw [hstack, hafter]
    simp only [List.length_cons, List.length_append, Instr.leaves]
    omega

/-- **One stride.** A run that starts in the piece and does not leave the call in which it started goes on
to another state of the execution: with the next instruction, or with the return of the call that it makes. -/
theorem stride (hp : p.Disciplined) (hq : Fitted p i q ann stop) (h : Crossing p i q ann stop rest x)
    (hin : x.ip < i + q.width) (ht : Trail x trail m')
    (habove : ∀ y ∈ trail, x.memory.depth ≤ y.memory.depth) (hdepth : m'.memory.depth = x.memory.depth)
    (hout : m'.ip < i ∨ i + q.width ≤ m'.ip) :
    ∃ first y later, trail = x :: (first ++ later) ∧ Trail x (x :: first) y ∧ Trail y later m' ∧
      (∀ z ∈ first, x.memory.depth < z.memory.depth) ∧ y.memory.depth = x.memory.depth ∧
      Crossing p i q ann stop rest y := by
  rcases h.cases hq with ⟨hip, -⟩ | ⟨hlo, hhi, hholds, instr, hi, hadmits⟩
  · omega
  cases ht with
  | nil => omega
  | @cons _ x₁ _ trail hs ht =>
  obtain ⟨-, habove⟩ := List.forall_mem_cons.mp habove
  obtain ⟨-, j, hj, he⟩ := effect_of_step hs
  obtain rfl : instr = j := Option.some.inj (hi.symm.trans hj)
  by_cases hcall : ∃ n, instr = .call n
  · obtain ⟨n, rfl⟩ := hcall
    -- the call starts one deeper, and the run ends outside of it
    have hdeeper : x.memory.depth < x₁.memory.depth := by
      obtain ⟨f, s, -, -, -, rfl⟩ := he.of_call
      exact Nat.lt_succ_self _
    obtain ⟨inner, y, later, rfl, hinner, hlater, hdeep, hy⟩ := ht.first_back hdeeper habove hdepth
    have hreturns : x.Returns inner y := ⟨⟨n, hi⟩, .cons hs hinner, hdeep, hy⟩
    exact ⟨inner, y, later, rfl, .cons hs hinner, hlater, hdeep, hy,
      h.returns hp hi hholds hadmits hreturns⟩
  · have hstays : ∀ n, instr ≠ .call n := fun n hn => hcall ⟨n, hn⟩
    by_cases hret : instr = .ret
    · -- a return would leave the call
      subst hret
      obtain ⟨frame, memory, hpop, rfl⟩ := he.of_ret
      obtain ⟨hframes, -⟩ := Memory.of_popFrame? hpop
      have hbelow : memory.depth < x.memory.depth := by
        rw [Memory.depth, Memory.depth, hframes]
        exact Nat.lt_succ_self _
      cases ht with
      | nil => exact absurd hdepth (Nat.ne_of_lt hbelow)
      | cons => exact absurd hbelow (Nat.not_lt_of_le (habove _ List.mem_cons_self))
    · exact ⟨[], x₁, trail, rfl, .cons hs (.nil x₁), ht, List.forall_mem_nil _,
        he.depth_eq hstays hret, h.effect hholds hadmits hs he hstays hret⟩

/-- **A run through the piece.** A run that starts in the piece, does not leave the call in which it started,
and ends outside of the piece, comes to the end of the piece first. -/
theorem exists_end (hp : p.Disciplined) (hq : Fitted p i q ann stop) (h : Crossing p i q ann stop rest x)
    (ht : Trail x trail m') (habove : ∀ y ∈ trail, x.memory.depth ≤ y.memory.depth)
    (hdepth : m'.memory.depth = x.memory.depth) (hout : m'.ip < i ∨ i + q.width ≤ m'.ip) :
    ∃ trail₁ y trail₂, trail = trail₁ ++ trail₂ ∧ Trail x trail₁ y ∧ Trail y trail₂ m' ∧
      (∀ z ∈ trail₁, Underway x.memory.depth i q z) ∧ y.memory.depth = x.memory.depth ∧
      y.ip = i + q.width ∧ Crossing p i q ann stop rest y := by
  -- the induction is on the length of the run, since a call takes many steps at once
  induction hn : trail.length using Nat.strongRecOn generalizing x trail with
  | ind n ih =>
  subst hn
  rcases h.cases hq with ⟨hip, -⟩ | ⟨hlo, hhi, -⟩
  · exact ⟨[], x, trail, rfl, .nil x, ht, List.forall_mem_nil _, rfl, hip, h⟩
  obtain ⟨first, y, later, rfl, hfirst, hlater, hdeep, hy, hnext⟩ := h.stride hp hq hhi ht habove hdepth hout
  obtain ⟨-, habove⟩ := List.forall_mem_append.mp (List.forall_mem_cons.mp habove).2
  have hshort : later.length < (x :: (first ++ later)).length := by
    simp only [List.length_cons, List.length_append]
    omega
  obtain ⟨trail₁, z, trail₂, rfl, ht₁, ht₂, hinside, hz, hend⟩ :=
    ih later.length hshort hnext hlater (hy ▸ habove) (hy ▸ hdepth) rfl
  refine ⟨x :: first ++ trail₁, z, trail₂, by simp, hfirst.append ht₁, ht₂, ?_, hz.trans hy, hend⟩
  refine List.forall_mem_append.mpr ⟨List.forall_mem_cons.mpr ⟨.inr ⟨rfl, hlo, hhi⟩, fun w hw => ?_⟩, ?_⟩
  · exact .inl (hdeep w hw)
  · exact hy ▸ hinside

end Crossing

end Through

/-! ## Executions one after the other -/

section Executions

variable {m m' : Machine} {q r : Piece} {trail : List Machine} {n k l j : Nat} {ops rest : Stack}

/-- **A piece at the start of a run** is executed, whatever comes behind it. It turns the topmost values into
its results, and leaves those below. -/
theorem exists_executes (hp : p.Disciplined) (hm : Reachable p m) (hq : Moves n k q)
    (hcode : CodeAt m.program.code m.ip (q.code m.ip)) (hs : m.stack = ops ++ rest) (hops : ops.length = n)
    (ht : Trail m trail m') (habove : ∀ x ∈ trail, m.memory.depth ≤ x.memory.depth)
    (hdepth : m'.memory.depth = m.memory.depth) (hout : m'.ip < m.ip ∨ m.ip + q.width ≤ m'.ip) :
    ∃ trail₁ m₁ trail₂ results, trail = trail₁ ++ trail₂ ∧ Executes q m trail₁ m₁ ∧
      Trail m₁ trail₂ m' ∧ m₁.stack = results ++ rest ∧ results.length = k := by
  let stop := level k (!m.memory.addresses.isEmpty)
  have hpasses := hq m.ip 0 (!m.memory.addresses.isEmpty)
  rw [Nat.zero_add, Nat.zero_add] at hpasses
  obtain ⟨ann, hin, hempty, hadmits⟩ := hpasses
  have hfitted : Fitted p m.ip q ann stop := ⟨hm.program_eq ▸ hcode, hadmits⟩
  have hstart : (level n (!m.memory.addresses.isEmpty)).Holds rest.length m.memory.addresses m.stack := by
    refine ⟨?_, rfl, fun _ hl => by cases hl⟩
    rw [hs, List.length_append, hops, Nat.add_comm]
    rfl
  have hcrossing : Crossing p m.ip q ann stop rest m := by
    refine ⟨hm, hs ▸ List.suffix_append ops rest, ?_⟩
    rcases Nat.eq_zero_or_pos q.width with hw | hw
    · refine ⟨stop, .inr (Discipline.leaves_of_mem ?_ (stackHeights.refl _)), hstart.of_implies (hempty hw)⟩
      simp [hw]
    · exact ⟨_, .inl ⟨Nat.le_refl _, by omega, stackHeights.refl _⟩, hstart.of_implies (hin hw)⟩
  obtain ⟨trail₁, m₁, trail₂, rfl, ht₁, ht₂, hunderway, hd, hip, hend⟩ :=
    hcrossing.exists_end hp hfitted ht habove hdepth hout
  have hstop : stop.Holds rest.length m₁.memory.addresses m₁.stack := by
    rcases hend.cases hfitted with ⟨-, hholds⟩ | ⟨-, hlt, -⟩
    · exact hholds
    · omega
  obtain ⟨results, hresults⟩ := hend.kept
  refine ⟨trail₁, m₁, trail₂, results, rfl, ⟨hcode, ht₁, hunderway, hip, hd⟩, ht₂, hresults.symm, ?_⟩
  have hheight := hstop.height
  rw [← hresults, List.length_append] at hheight
  simp only [stop, level] at hheight
  omega

namespace Executes

theorem reachable (h : Executes q m trail m') (hm : Reachable p m) : Reachable p m' := h.run.reachable hm

theorem above (h : Executes q m trail m') : ∀ x ∈ trail, m.memory.depth ≤ x.memory.depth := by
  intro x hx
  rcases h.underway x hx with hd | ⟨hd, -⟩
  · exact Nat.le_of_lt hd
  · exact Nat.le_of_eq hd.symm

/-- At the end of the piece the execution is over. -/
theorem eq_of_end {m₁ : Machine} {d i : Nat} (ht : Trail m₁ trail m')
    (hunderway : ∀ x ∈ trail, Underway d i q x) (hip : m₁.ip = i + q.width) (hd : m₁.memory.depth = d) :
    trail = [] ∧ m₁ = m' := by
  cases ht with
  | nil => exact ⟨rfl, rfl⟩
  | cons =>
    rcases hunderway m₁ List.mem_cons_self with hdeep | ⟨-, -, hlt⟩ <;> omega

/-- **Two pieces in a row.** An execution of both is an execution of the first and then one of the second. -/
theorem append (hp : p.Disciplined) (hm : Reachable p m) (h : Executes (q ++ r) m trail m')
    (hq : Moves n k q) (hs : m.stack = ops ++ rest) (hops : ops.length = n) (hr : Moves (j + k) l r)
    (hj : j ≤ rest.length) :
    ∃ trail₁ m₁ trail₂ results, trail = trail₁ ++ trail₂ ∧ Executes q m trail₁ m₁ ∧
      Executes r m₁ trail₂ m' ∧ m₁.stack = results ++ rest ∧ results.length = k := by
  have hcode := h.code
  rw [Piece.code_append, codeAt_append, Piece.length_code] at hcode
  have hwidth : (q ++ r).width = q.width + r.width := rfl
  have hip := h.ip
  obtain ⟨trail₁, m₁, trail₂, results, rfl, h₁, ht₂, hstack, hresults⟩ :=
    exists_executes hp hm hq hcode.1 hs hops h.run h.above h.depth (by omega)
  refine ⟨trail₁, m₁, trail₂, results, rfl, h₁, ?_, hstack, hresults⟩
  -- the rest of the run is an execution of the second piece
  obtain ⟨-, hunderway₂⟩ := List.forall_mem_append.mp h.underway
  obtain ⟨-, habove⟩ := List.forall_mem_append.mp h.above
  have hcode₂ : CodeAt m₁.program.code m₁.ip (r.code m₁.ip) := by
    rw [h₁.run.program_eq, h₁.ip]
    exact hcode.2
  have hstack₂ : m₁.stack = (results ++ rest.take j) ++ rest.drop j := by
    rw [List.append_assoc, List.take_append_drop, hstack]
  have hlength : (results ++ rest.take j).length = j + k := by
    rw [List.length_append, hresults, List.length_take_of_le hj, Nat.add_comm]
  have hip₁ := h₁.ip
  obtain ⟨trail₃, m₂, trail₄, -, rfl, h₂, ht₄, -, -⟩ := exists_executes hp (h₁.reachable hm) hr hcode₂
    hstack₂ hlength ht₂ (h₁.depth ▸ habove) (h.depth.trans h₁.depth.symm) (by omega)
  obtain ⟨-, hunderway₄⟩ := List.forall_mem_append.mp hunderway₂
  have hip₂ := h₂.ip
  obtain ⟨rfl, rfl⟩ := eq_of_end ht₄ hunderway₄ (by omega) (h₂.depth.trans h₁.depth)
  rw [List.append_nil]
  exact h₂

/-- **A single instruction** is executed in a single step. -/
theorem step_effect {i : Instr Nat} (h : Executes (.ofList [i]) m trail m') (hi : i.Plain)
    (hcall : ∀ n, i ≠ .call n) : m.step = (.ok .more, m') ∧ Effect m i m' := by
  have hip := h.ip
  simp only [Piece.width_ofList, List.length_singleton] at hip
  cases h.run with
  | nil => omega
  | @cons _ m₁ _ trail hs ht =>
    have hcode := (codeAt_cons.mp h.code).1
    obtain ⟨-, j, hj, he⟩ := effect_of_step hs
    obtain rfl : i = j := Option.some.inj (hcode.symm.trans hj)
    have hret : i ≠ .ret := by
      rintro rfl
      exact hi
    obtain ⟨-, hunderway⟩ := List.forall_mem_cons.mp h.underway
    obtain ⟨-, rfl⟩ := eq_of_end ht hunderway (he.ip_eq hi hcall) (he.depth_eq hcall hret)
    exact ⟨hs, he⟩

/-- An instruction that combines its operands. -/
theorem combine {i : Instr Nat} {result : Except RunError Value} (h : Executes (.ofList [i]) m trail m')
    (hi : i.Plain) (hs : m.stack = ops ++ rest) (hc : i.combine ops = some result) :
    m.step = (.ok .more, m') ∧ ∃ v, result = .ok v ∧ m' = { m with stack := v :: rest, ip := m.ip + 1 } := by
  have hcall : ∀ n, i ≠ .call n := by
    rintro n rfl
    cases ops <;> cases hc
  obtain ⟨hstep, he⟩ := h.step_effect hi hcall
  refine ⟨hstep, ?_⟩
  have hexec := he.exec_eq
  rcases exec_of_combine hs hc with ⟨v, hv, hgoes⟩ | ⟨e, s, -, hfails⟩
  · rw [hgoes] at hexec
    cases hexec
    exact ⟨v, hv, rfl⟩
  · rw [hfails] at hexec
    cases hexec

theorem load {id : Nat} (h : Executes (.ofList [.load id]) m trail m') :
    m.step = (.ok .more, m') ∧
      ∃ v, m.memory.load id = some v ∧ m' = { m with stack := v :: m.stack, ip := m.ip + 1 } := by
  obtain ⟨hstep, he⟩ := h.step_effect trivial (by simp)
  refine ⟨hstep, ?_⟩
  cases he with
  | compute ops _ hc => cases ops <;> cases hc
  | @load _ v hv => exact ⟨v, hv, rfl⟩

/-- The topmost value is kept, and stored. -/
theorem keep {id : Nat} {v : Value} (hp : p.Disciplined) (hm : Reachable p m)
    (h : Executes (.ofList [.dup, .store id]) m trail m') (hs : m.stack = v :: rest) :
    m' = { m with memory := m.memory.store id v, ip := m.ip + 2 } := by
  have hboth : Executes (.ofList [.dup] ++ .ofList [.store id]) m trail m' := h
  have hstack : m.stack = [v] ++ rest := hs
  obtain ⟨_, m₁, _, -, -, hdup, hstore, -, -⟩ := hboth.append hp hm (.plain .dup trivial) hstack rfl
    ((Moves.plain (.store id) trivial).above 1) (Nat.zero_le _)
  cases (hdup.step_effect trivial (by simp)).2 with
  | compute ops _ hc => cases ops <;> cases hc
  | dup hs' =>
  obtain ⟨rfl, rfl⟩ := List.cons.inj (hs'.symm.trans hs)
  obtain ⟨w, s, hw, hm'⟩ := (hstore.step_effect trivial (by simp)).2.of_store
  cases hw
  rw [hm', ← hs]

/-- The outcome of an instruction is kept, and stored. -/
theorem combine_keep {i : Instr Nat} {id : Nat} {result : Except RunError Value} (hp : p.Disciplined)
    (hm : Reachable p m) (h : Executes (.ofList [i] ++ .ofList [.dup, .store id]) m trail m')
    (hi : Moves n 1 (.ofList [i])) (hplain : i.Plain) (hs : m.stack = ops ++ rest) (hops : ops.length = n)
    (hc : i.combine ops = some result) :
    ∃ v, result = .ok v ∧ m' = { m with stack := v :: rest, memory := m.memory.store id v, ip := m'.ip } := by
  have hkeep : Moves (0 + 1) 1 (.ofList [.dup, .store id]) := Expr.moves_restore (.var ⟨"", id⟩)
  obtain ⟨_, m₁, _, -, -, hcombine, hstore, -⟩ := h.append hp hm hi hs hops hkeep (Nat.zero_le _)
  obtain ⟨-, v, hv, rfl⟩ := hcombine.combine hplain hs hc
  refine ⟨v, hv, ?_⟩
  rw [hstore.keep hp (hcombine.reachable hm) rfl]

end Executes

theorem Evaluates.reachable {v : Value} (h : Evaluates q m v m') (hm : Reachable p m) : Reachable p m' := by
  obtain ⟨trail, hrun⟩ := h.executes
  exact hrun.reachable hm

/-- **A value first.** An execution of a piece that leaves a value, and of another piece after it. -/
theorem Executes.evaluates (hp : p.Disciplined) (hm : Reachable p m) (h : Executes (q ++ r) m trail m')
    (hq : Moves 0 1 q) (hr : Moves (j + 1) l r) (hj : j ≤ m.stack.length) :
    ∃ v m₁ trail₂, Evaluates q m v m₁ ∧ Executes r m₁ trail₂ m' := by
  have hnone : m.stack = [] ++ m.stack := rfl
  obtain ⟨trail₁, m₁, trail₂, results, -, h₁, h₂, hstack, hone⟩ := h.append hp hm hq hnone rfl hr hj
  obtain ⟨v, rfl⟩ := List.length_eq_one_iff.mp hone
  exact ⟨v, m₁, trail₂, ⟨⟨trail₁, h₁⟩, hstack⟩, h₂⟩

/-- The value of a variable first. -/
theorem Executes.loads {id : Nat} (hp : p.Disciplined) (hm : Reachable p m)
    (h : Executes (.ofList [.load id] ++ r) m trail m') (hr : Moves 1 l r) :
    ∃ v m₁ trail₂, m.memory.load id = some v ∧ m.step = (.ok .more, m₁) ∧
      m₁ = { m with stack := v :: m.stack, ip := m.ip + 1 } ∧ Executes r m₁ trail₂ m' := by
  have hload : Moves 0 1 (.ofList [.load id]) := .plain (.load id) trivial
  have hrest : Moves (0 + 1) l r := hr
  obtain ⟨v, m₁, trail₂, h₁, h₂⟩ := h.evaluates hp hm hload hrest (Nat.zero_le _)
  obtain ⟨trail₁, hexec⟩ := h₁.executes
  obtain ⟨hstep, w, hw, hm₁⟩ := hexec.load
  exact ⟨w, m₁, trail₂, hw, hstep, hm₁, h₂⟩

end Executions

end Machine

end ExactScript
