import ExactScript.Proofs.Evaluation
import ExactScript.Proofs.References

/-!
# Code that follows an evaluation

The machine *follows* an evaluation when it comes to the same end: with the value on the stack, with the
same error, or, where the evaluation gives up for lack of fuel, with as many steps as there was fuel. In
each case memory and output are those of the evaluation.

Between two points of a program the stack below is arbitrary, which makes the statements compose: code
that follows one evaluation, in front of code that follows another, follows the two in sequence.

## Contents
* `Follows`, a machine and the outcome of an evaluation;
* `Takes`, one instruction that does what an evaluation says, and a lemma for each instruction;
* `Tracks`, any number of instructions;
* `Does`, a piece of code wherever it stands, with `++` and the joints.
-/

namespace ExactScript

variable {α β : Type}

/-- The result is possible. -/
def Eval.Yields (ev : Eval α) (a : α) : Prop := ∃ w w', ev w = .value a w'

/-- The machine comes to the same end as an evaluation; `n` bounds the steps from below where the
evaluation did not finish. -/
def Machine.Follows (n : Nat) (m : Machine) (Q : α → World → Machine → Prop) : Outcome α → Prop
  | .value a w => ∃ k m', Steps k m m' ∧ Q a w m'
  | .failure e w => ∃ k m' m'', Steps k m m' ∧ m'.step = (.error e, m'') ∧ m''.memory = w.memory ∧
    m''.output = w.output
  | .unfinished => ∃ m', Steps n m m'

namespace Machine.Follows

variable {n k : Nat} {m m' : Machine} {Q : α → World → Machine → Prop} {o : Outcome α}

/-- Steps before. -/
theorem after (hs : Steps k m m') (h : m'.Follows n Q o) : m.Follows (k + n) Q o := by
  cases o with
  | value a w =>
    obtain ⟨j, m'', hj, hq⟩ := h
    exact ⟨k + j, m'', hs.trans hj, hq⟩
  | failure e w =>
    obtain ⟨j, l, l', hj, he⟩ := h
    exact ⟨k + j, l, l', hs.trans hj, he⟩
  | unfinished =>
    obtain ⟨m'', hn⟩ := h
    exact ⟨m'', hs.trans hn⟩

theorem mono (hk : k ≤ n) (h : m.Follows n Q o) : m.Follows k Q o := by
  cases o with
  | value a w => exact h
  | failure e w => exact h
  | unfinished =>
    obtain ⟨m', hn⟩ := h
    obtain ⟨j, rfl⟩ := Nat.exists_eq_add_of_le hk
    obtain ⟨l, hl, -⟩ := hn.take
    exact ⟨l, hl⟩

theorem imp {R : α → World → Machine → Prop} (h : m.Follows n Q o)
    (hQR : ∀ a w m', o = .value a w → Q a w m' → R a w m') : m.Follows n R o := by
  cases o with
  | value a w =>
    obtain ⟨j, m', hj, hq⟩ := h
    exact ⟨j, m', hj, hQR a w m' rfl hq⟩
  | failure e w => exact h
  | unfinished => exact h

end Machine.Follows

/-! ## Points -/

/-- A function value refers to a function of the program. -/
def Setting.Defines (s : Setting) (f : FunctionRef) : Prop := ∃ site, s.site? f = some site ∧ site.ref = f

/-- A position, what lies on top of the stack there, and where the calls in progress return to. -/
structure Point where
  ip : Nat
  top : Stack
  calls : List Nat

namespace Setting

/-- The machine in a world. -/
def machine (s : Setting) (p : Program) (i : Nat) (stack : Stack) (w : World) : Machine where
  program := p
  ip := i
  stack := stack
  memory := w.memory
  status := .running
  maxCallDepth := s.maxCallDepth
  sink := s.sink
  output := w.output

/-- Control may be at the point. -/
structure Meets (s : Setting) (a : Point) (w : World) : Prop where
  top : ∀ v ∈ a.top, v.Within s.Defines
  memory : w.memory.Within s.Defines
  calls : w.memory.addresses = a.calls

variable (s : Setting) (p : Program)

/-- **Code that does what an evaluation says**, from one point to another that may depend on the result,
whatever the stack below. -/
def Tracks (n : Nat) (a : Point) (ev : Eval α) (b : α → Point) : Prop :=
  ∀ stack w, s.Meets a w → (s.machine p a.ip (a.top ++ stack) w).Follows n
    (fun x w' m => m = s.machine p (b x).ip ((b x).top ++ stack) w' ∧ s.Meets (b x) w') (ev w)

/-- One instruction that does what an evaluation says. -/
def Takes (a : Point) (ev : Eval α) (b : α → Point) : Prop :=
  ∀ stack w, s.Meets a w → match ev w with
    | .value x w' => (s.machine p a.ip (a.top ++ stack) w).step =
        (.ok .more, s.machine p (b x).ip ((b x).top ++ stack) w') ∧ s.Meets (b x) w'
    | .failure e w' => ∃ m, (s.machine p a.ip (a.top ++ stack) w).step = (.error e, m) ∧
        m.memory = w'.memory ∧ m.output = w'.output
    | .unfinished => False

/-- One instruction that has no effect but on control and the stack. -/
def Goes (a b : Point) : Prop :=
  ∀ stack w, s.Meets a w → (s.machine p a.ip (a.top ++ stack) w).step =
    (.ok .more, s.machine p b.ip (b.top ++ stack) w) ∧ s.Meets b w

variable {s p} {n k : Nat} {a c : Point} {ev : Eval α} {b : α → Point}

theorem Takes.tracks (h : s.Takes p a ev b) : s.Tracks p n a ev b := by
  intro stack w hw
  have hstep := h stack w hw
  cases hev : ev w with
  | value x w' =>
    rw [hev] at hstep
    exact ⟨1, _, .one hstep.1, rfl, hstep.2⟩
  | failure e w' =>
    rw [hev] at hstep
    obtain ⟨m, hm, hworld⟩ := hstep
    exact ⟨0, _, m, .refl _, hm, hworld⟩
  | unfinished =>
    rw [hev] at hstep
    exact hstep.elim

namespace Tracks

theorem pure (x : α) : s.Tracks p n (b x) (Pure.pure x) b :=
  fun _ _ hw => ⟨0, _, .refl _, rfl, hw⟩

theorem unfinished : s.Tracks p 0 a .unfinished b := fun _ _ _ => ⟨_, .refl _⟩

theorem mono (hk : k ≤ n) (h : s.Tracks p n a ev b) : s.Tracks p k a ev b :=
  fun stack w hw => (h stack w hw).mono hk

/-- **Sequence.** -/
theorem bind {k : α → Eval β} {c : β → Point} (h : s.Tracks p n a ev b)
    (hk : ∀ x, ev.Yields x → s.Tracks p n (b x) (k x) c) : s.Tracks p n a (ev >>= k) c := by
  intro stack w hw
  have hfirst := h stack w hw
  show Machine.Follows n _ _ (match ev w with
    | .value x w => k x w
    | .failure e w => .failure e w
    | .unfinished => .unfinished)
  cases hev : ev w with
  | value x w' =>
    rw [hev] at hfirst
    obtain ⟨j, _, hj, rfl, hmeets⟩ := hfirst
    exact ((hk x ⟨w, w', hev⟩ stack w' hmeets).after hj).mono (Nat.le_add_left n j)
  | failure e w' =>
    rw [hev] at hfirst
    exact hfirst
  | unfinished =>
    rw [hev] at hfirst
    exact hfirst

/-- An instruction that is known to run counts as a step. -/
theorem bind_takes {k : α → Eval β} {c : β → Point} (h : s.Takes p a ev b)
    (hk : ∀ x, ev.Yields x → s.Tracks p n (b x) (k x) c) : s.Tracks p (n + 1) a (ev >>= k) c := by
  intro stack w hw
  have hfirst := h stack w hw
  show Machine.Follows (n + 1) _ _ (match ev w with
    | .value x w => k x w
    | .failure e w => .failure e w
    | .unfinished => .unfinished)
  cases hev : ev w with
  | value x w' =>
    rw [hev] at hfirst
    obtain ⟨hstep, hmeets⟩ := hfirst
    rw [Nat.add_comm]
    exact (hk x ⟨w, w', hev⟩ stack w' hmeets).after (.one hstep)
  | failure e w' =>
    rw [hev] at hfirst
    obtain ⟨m, hm, hworld⟩ := hfirst
    exact ⟨0, _, m, .refl _, hm, hworld⟩
  | unfinished =>
    rw [hev] at hfirst
    exact hfirst.elim

/-- An instruction without effect, before. -/
theorem before (h : s.Goes p c a) (ht : s.Tracks p n a ev b) : s.Tracks p (n + 1) c ev b := by
  intro stack w hw
  obtain ⟨hstep, hmeets⟩ := h stack w hw
  rw [Nat.add_comm]
  exact (ht stack w hmeets).after (.one hstep)

/-- An instruction without effect, afterwards. -/
theorem after {c : α → Point} (ht : s.Tracks p n a ev b) (h : ∀ x, s.Goes p (b x) (c x)) :
    s.Tracks p n a ev c := by
  intro stack w hw
  have hfirst := ht stack w hw
  cases hev : ev w with
  | value x w' =>
    rw [hev] at hfirst
    obtain ⟨j, _, hj, rfl, hmeets⟩ := hfirst
    obtain ⟨hstep, hmeets⟩ := h x stack w' hmeets
    exact ⟨j + 1, _, hj.trans (.one hstep), rfl, hmeets⟩
  | failure e w' =>
    rw [hev] at hfirst
    exact hfirst
  | unfinished =>
    rw [hev] at hfirst
    exact hfirst

/-- More values below make no difference. -/
theorem frame {i : Nat} {top t : Stack} {calls : List Nat} (ht : s.Tracks p n ⟨i, top, calls⟩ ev b) :
    s.Tracks p n ⟨i, top ++ t, calls⟩ ev fun x => { b x with top := (b x).top ++ t } := by
  intro stack w hw
  obtain ⟨htop, hrest⟩ := List.forall_mem_append.mp hw.top
  have hfirst := ht (t ++ stack) w ⟨htop, hw.memory, hw.calls⟩
  rw [← List.append_assoc] at hfirst
  refine hfirst.imp fun x w' m _ hm => ?_
  obtain ⟨rfl, hmeets⟩ := hm
  refine ⟨by rw [List.append_assoc], List.forall_mem_append.mpr ⟨hmeets.top, hrest⟩, hmeets.memory,
    hmeets.calls⟩

/-- What is on top of the stack may be used. -/
theorem of_top (h : (∀ v ∈ a.top, v.Within s.Defines) → s.Tracks p n a ev b) : s.Tracks p n a ev b :=
  fun stack w hw => h hw.top stack w hw

end Tracks

/-! ## Instructions -/

section Instructions

variable {i : Nat} {t : Stack} {calls : List Nat} {v : Value} {x : Symbol}

theorem Meets.tail {w : World} (h : s.Meets ⟨i, v :: t, calls⟩ w) (j : Nat) : s.Meets ⟨j, t, calls⟩ w :=
  ⟨(List.forall_mem_cons.mp h.top).2, h.memory, h.calls⟩

theorem takes_compute {instr : Instr Nat} {ops : Stack} {r : Except RunError Value}
    (hi : p.code[i]? = some instr) (hc : instr.combine ops = some r)
    (hnew : ∀ entry arity, instr = .makeFunction entry arity → s.Defines ⟨entry, arity⟩) :
    s.Takes p ⟨i, ops ++ t, calls⟩ (.lift r) fun v => ⟨i + 1, v :: t, calls⟩ := by
  intro stack w hw
  obtain ⟨hops, ht⟩ := List.forall_mem_append.mp hw.top
  have hgives : Gives (Value.Within s.Defines) r := gives_combine hc hops hnew
  have hs : (s.machine p i (ops ++ t ++ stack) w).stack = ops ++ (t ++ stack) := List.append_assoc ..
  rcases Machine.exec_of_combine hs hc with ⟨v, rfl, hv⟩ | ⟨e, s', rfl, he⟩
  · exact ⟨Machine.step_of_effect rfl hi (Machine.effect_of_exec hv),
      List.forall_mem_cons.mpr ⟨hgives, ht⟩, hw.memory, hw.calls⟩
  · exact ⟨_, Machine.step_of_error rfl hi he, rfl, rfl⟩

theorem takes_load (hi : p.code[i]? = some (.load x.id)) (hx : p.nameOf? x.id = some x.name) :
    s.Takes p ⟨i, t, calls⟩ (.load x) fun v => ⟨i + 1, v :: t, calls⟩ := by
  intro stack w hw
  cases hl : w.memory.load x.id with
  | some v =>
    simp only [Eval.load, hl]
    exact ⟨Machine.step_of_effect rfl hi (.load hl),
      List.forall_mem_cons.mpr ⟨hw.memory.load hl, hw.top⟩, hw.memory, hw.calls⟩
  | none =>
    simp only [Eval.load, hl]
    have hexec : Machine.exec (.load x.id) (s.machine p i (t ++ stack) w) =
        .error (.unboundSymbol (p.nameOf? x.id) x.id) (s.machine p i (t ++ stack) w) := by
      simp only [Machine.exec, bind, EStateM.bind, Machine.readSymbol, machine, hl]
    rw [hx] at hexec
    exact ⟨_, Machine.step_of_error rfl hi hexec, rfl, rfl⟩

theorem takes_store (hi : p.code[i]? = some (.store x.id)) :
    s.Takes p ⟨i, v :: t, calls⟩ (.store x v) fun _ => ⟨i + 1, t, calls⟩ := by
  intro stack w hw
  obtain ⟨hv, ht⟩ := List.forall_mem_cons.mp hw.top
  exact ⟨Machine.step_of_effect rfl hi (.store rfl), ht, hw.memory.store hv _,
    (Memory.addresses_store ..).trans hw.calls⟩

theorem takes_print {vs : List Value} (hi : p.code[i]? = some (.print vs.length)) :
    s.Takes p ⟨i, vs ++ t, calls⟩ (s.print vs) fun v => ⟨i + 1, v :: t, calls⟩ := by
  intro stack w hw
  have hs : (s.machine p i (vs ++ t ++ stack) w).stack = vs ++ (t ++ stack) := List.append_assoc ..
  have htop : ∀ v ∈ Value.str (" ".intercalate (vs.map Value.display)) :: t, v.Within s.Defines :=
    List.forall_mem_cons.mpr ⟨Value.within_str, (List.forall_mem_append.mp hw.top).2⟩
  cases hsink : s.sink with
  | accepting =>
    simp only [print, write, hsink, bind, Pure.pure]
    exact ⟨Machine.step_of_effect rfl hi (.print hs hsink), htop, hw.memory, hw.calls⟩
  | broken reason =>
    simp only [print, write, hsink, bind]
    have hexec : Machine.exec (.print vs.length) (s.machine p i (vs ++ t ++ stack) w) =
        .error (.output reason) { s.machine p i (vs ++ t ++ stack) w with stack := t ++ stack } :=
      (Machine.bind_onStack (by rw [hs]; exact Stack.popMany_append rfl)).trans
        (Machine.bind_writeLine_error hsink)
    exact ⟨_, Machine.step_of_error rfl hi hexec, rfl, rfl⟩

/-- A branch: the condition decides where control goes. -/
theorem takes_jumpIf {sense : Bool} {target : Nat} (hi : p.code[i]? = some (.jumpIf sense target)) :
    s.Takes p ⟨i, v :: t, calls⟩ (.truth sense v) fun b =>
      ⟨if b = sense then target else i + 1, t, calls⟩ := by
  intro stack w hw
  cases v with
  | bool b =>
    refine ⟨?_, hw.tail _⟩
    dsimp only
    by_cases hb : b = sense
    · subst hb
      rw [if_pos rfl]
      exact Machine.step_of_effect rfl hi (.taken rfl)
    · rw [if_neg hb]
      exact Machine.step_of_effect rfl hi (.passed rfl hb)
  | _ =>
    refine ⟨_, Machine.step_of_error rfl hi
      ((Machine.bind_onStack_error (s := t ++ stack) ?_).trans rfl), rfl, rfl⟩
    cases sense <;> rfl

theorem takes_ret {back : Nat} (hi : p.code[i]? = some .ret) :
    s.Takes p ⟨i, t, back :: calls⟩ .leave fun _ => ⟨back, t, calls⟩ := by
  intro stack w hw
  have hcalls := hw.calls
  cases hp : w.memory.popFrame? with
  | none =>
    unfold Memory.popFrame? at hp
    split at hp
    · next hf =>
      rw [Memory.addresses, hf] at hcalls
      cases hcalls
    · cases hp
  | some fm =>
    obtain ⟨f, memory⟩ := fm
    rw [Memory.addresses_of_popFrame hp] at hcalls
    obtain ⟨rfl, hrest⟩ := List.cons.inj hcalls
    simp only [Eval.leave, hp]
    exact ⟨Machine.step_of_effect rfl hi (.ret hp), hw.top, hw.memory.popFrame hp, hrest⟩

theorem takes_fail {e : RunError} {b : α → Point} {instr : Instr Nat} (hi : p.code[i]? = some instr)
    (h : ∀ stack w, ∃ s', Machine.exec instr (s.machine p i (t ++ stack) w) =
      .error e { s.machine p i (t ++ stack) w with stack := s' }) :
    s.Takes p ⟨i, t, calls⟩ (.fail e) b := by
  intro stack w _
  obtain ⟨s', hs'⟩ := h stack w
  exact ⟨_, Machine.step_of_error rfl hi hs', rfl, rfl⟩

/-- A call goes to the entry of the function, with the arguments in the place of its own stack. -/
theorem takes_enter {f : FunctionRef} {args : List Value} (hi : p.code[i]? = some (.call args.length)) :
    s.Takes p ⟨i, .function f :: args, calls⟩ (s.enter f args.length (i + 1)) fun _ =>
      ⟨f.entry, args, (i + 1) :: calls⟩ := by
  intro stack w hw
  -- the callee comes off; what is left is the check of the call
  have hexec : Machine.exec (.call args.length) (s.machine p i (.function f :: args ++ stack) w) =
      Machine.enter f args.length (s.machine p i (args ++ stack) w) :=
    (Machine.bind_pop (s := args ++ stack) rfl).trans rfl
  by_cases harity : f.arity = args.length
  case neg =>
    have herror : Machine.exec (.call args.length) (s.machine p i (.function f :: args ++ stack) w) =
        .error (.arityMismatch f.arity args.length) (s.machine p i (args ++ stack) w) :=
      hexec.trans (if_pos harity)
    simp only [enter, ne_eq, harity, not_false_eq_true, if_true]
    exact ⟨_, Machine.step_of_error rfl hi herror, rfl, rfl⟩
  by_cases hdepth : s.maxCallDepth ≤ w.memory.depth
  · have herror : Machine.exec (.call args.length) (s.machine p i (.function f :: args ++ stack) w) =
        .error (.callDepthExceeded s.maxCallDepth) (s.machine p i (args ++ stack) w) :=
      hexec.trans ((if_neg (not_not_intro harity)).trans (if_pos hdepth))
    simp only [enter, ne_eq, harity, not_true_eq_false, if_false, hdepth, if_true]
    exact ⟨_, Machine.step_of_error rfl hi herror, rfl, rfl⟩
  · have hargs : f.arity ≤ (args ++ stack).length := by simp [harity]
    simp only [enter, ne_eq, harity, not_true_eq_false, if_false, hdepth]
    rw [← harity] at hi
    exact ⟨Machine.step_of_effect rfl hi (.call rfl (Nat.lt_of_not_le hdepth) hargs),
      (hw.tail i).top, hw.memory.pushFrame _ _, congrArg _ hw.calls⟩

theorem goes_jump {target : Nat} (hi : p.code[i]? = some (.jump target)) :
    s.Goes p ⟨i, t, calls⟩ ⟨target, t, calls⟩ :=
  fun _ _ hw => ⟨Machine.step_of_effect rfl hi .jump, hw.top, hw.memory, hw.calls⟩

theorem goes_pop (hi : p.code[i]? = some .pop) : s.Goes p ⟨i, v :: t, calls⟩ ⟨i + 1, t, calls⟩ :=
  fun _ _ hw => ⟨Machine.step_of_effect rfl hi (.pop rfl), hw.tail _⟩

theorem goes_dup (hi : p.code[i]? = some .dup) :
    s.Goes p ⟨i, v :: t, calls⟩ ⟨i + 1, v :: v :: t, calls⟩ :=
  fun _ _ hw => ⟨Machine.step_of_effect rfl hi (.dup rfl),
    List.forall_mem_cons.mpr ⟨(List.forall_mem_cons.mp hw.top).1, hw.top⟩, hw.memory, hw.calls⟩

/-- An instruction whose result is known. -/
theorem goes_compute {instr : Instr Nat} {ops : Stack} (hi : p.code[i]? = some instr)
    (hc : instr.combine ops = some (.ok v))
    (hnew : ∀ entry arity, instr = .makeFunction entry arity → s.Defines ⟨entry, arity⟩) :
    s.Goes p ⟨i, ops ++ t, calls⟩ ⟨i + 1, v :: t, calls⟩ :=
  takes_compute hi hc hnew

/-- An instruction that takes nothing off the stack. -/
theorem goes_push {instr : Instr Nat} (hi : p.code[i]? = some instr)
    (hc : instr.combine [] = some (.ok v))
    (hnew : ∀ entry arity, instr = .makeFunction entry arity → s.Defines ⟨entry, arity⟩) :
    s.Goes p ⟨i, t, calls⟩ ⟨i + 1, v :: t, calls⟩ :=
  goes_compute hi hc hnew

end Instructions

/-! ## Pieces -/

/-- The piece stands at the position, and its functions are those of the setting. -/
structure Present (s : Setting) (p : Program) (i : Nat) (q : Piece) : Prop where
  code : CodeAt p.code i (q.code i)
  sites : ∀ site ∈ q.sites i, site ∈ s.functions

section Present

variable {i : Nat} {q r : Piece}

theorem present_append : s.Present p i (q ++ r) ↔ s.Present p i q ∧ s.Present p (i + q.width) r := by
  constructor
  · rintro ⟨hc, hs⟩
    obtain ⟨hq, hr⟩ := codeAt_append.mp hc
    rw [Piece.length_code] at hr
    obtain ⟨hsq, hsr⟩ := List.forall_mem_append.mp hs
    exact ⟨⟨hq, hsq⟩, hr, hsr⟩
  · rintro ⟨⟨hq, hsq⟩, hr, hsr⟩
    refine ⟨codeAt_append.mpr ⟨hq, ?_⟩, List.forall_mem_append.mpr ⟨hsq, hsr⟩⟩
    rwa [Piece.length_code]

theorem Present.instr {instr : Instr Nat} (h : s.Present p i (.ofList [instr])) :
    p.code[i]? = some instr :=
  (codeAt_cons.mp h.code).1

theorem Present.jumping {f : Nat → Instr Nat} (h : s.Present p i (.jumping f)) :
    p.code[i]? = some (f i) :=
  (codeAt_cons.mp h.code).1

end Present

variable (s p) in
/-- **The piece does what the evaluation says**, wherever it is present. -/
def Does (n i : Nat) (q : Piece) (top : Stack) (ev : Eval α) (top' : α → Stack) : Prop :=
  s.Present p i q → ∀ calls, s.Tracks p n ⟨i, top, calls⟩ ev fun x => ⟨i + q.width, top' x, calls⟩

variable (s p) in
/-- The piece leaves the value of the evaluation. -/
def Computes (n i : Nat) (q : Piece) (ev : Eval Value) : Prop := s.Does p n i q [] ev fun v => [v]

/-- A step that leaves no trace in the count. -/
theorem Tracks.quietly (h : s.Goes p c a) (ht : s.Tracks p n a ev b) : s.Tracks p n c ev b :=
  (ht.before h).mono (Nat.le_succ n)

/-- The position at the end, computed in another way. -/
theorem Tracks.ending {i j k : Nat} {top : Stack} {calls : List Nat} {top' : α → Stack}
    (ht : s.Tracks p n ⟨i, top, calls⟩ ev fun x => ⟨j, top' x, calls⟩) (hjk : j = k) :
    s.Tracks p n ⟨i, top, calls⟩ ev fun x => ⟨k, top' x, calls⟩ :=
  hjk ▸ ht

namespace Does

variable {i : Nat} {q r : Piece} {top mid t : Stack} {top' : α → Stack} {instr : Instr Nat}
  {is : List (Instr Nat)}

theorem mono (hk : k ≤ n) (h : s.Does p n i q top ev top') : s.Does p k i q top ev top' :=
  fun hq calls => (h hq calls).mono hk

theorem nil (top' : α → Stack) (x : α) : s.Does p n i (.ofList []) (top' x) (pure x) top' :=
  fun _ _ => .pure (b := fun x => ⟨_, top' x, _⟩) x

/-- **Sequence.** -/
theorem append {k : α → Eval β} {top'' : β → Stack} (h : s.Does p n i q top ev top')
    (hk : ∀ x, ev.Yields x → s.Does p n (i + q.width) r (top' x) (k x) top'') :
    s.Does p n i (q ++ r) top (ev >>= k) top'' := by
  intro hqr calls
  obtain ⟨hq, hr⟩ := present_append.mp hqr
  exact (h hq calls).bind fun x hx => (hk x hx hr calls).ending (Nat.add_assoc ..)

/-- The values below are not touched. -/
theorem above (t : Stack) (h : s.Does p n i q [] ev top') :
    s.Does p n i q t ev fun x => top' x ++ t :=
  fun hq calls => (h hq calls).frame

theorem takes (h : ∀ calls, p.code[i]? = some instr →
      s.Takes p ⟨i, top, calls⟩ ev fun x => ⟨i + 1, top' x, calls⟩) :
    s.Does p n i (.ofList [instr]) top ev top' :=
  fun hq calls => (h calls hq.instr).tracks

/-- The operands are all that lies on top. -/
theorem compute {ops : Stack} {e : Except RunError Value} (hc : instr.combine ops = some e)
    (hnew : ∀ entry arity, instr ≠ .makeFunction entry arity) :
    s.Does p n i (.ofList [instr]) ops (.lift e) fun v => [v] := by
  refine .takes fun calls hi => ?_
  have htakes : s.Takes p ⟨i, ops ++ [], calls⟩ (.lift e) fun v => ⟨i + 1, [v], calls⟩ :=
    takes_compute hi hc fun entry arity h => absurd h (hnew entry arity)
  rwa [List.append_nil] at htakes

theorem print {vs : List Value} :
    s.Does p n i (.ofList [.print vs.length]) vs (s.print vs) fun v => [v] := by
  refine .takes fun calls hi => ?_
  have htakes : s.Takes p ⟨i, vs ++ [], calls⟩ (s.print vs) fun v => ⟨i + 1, [v], calls⟩ :=
    takes_print hi
  rwa [List.append_nil] at htakes

/-- An instruction without effect, before. -/
theorem quietly (hg : ∀ calls, p.code[i]? = some instr → s.Goes p ⟨i, top, calls⟩ ⟨i + 1, mid, calls⟩)
    (h : s.Does p n (i + 1) q mid ev top') : s.Does p n i (.ofList [instr] ++ q) top ev top' := by
  intro hq calls
  obtain ⟨hi, hq⟩ := present_append.mp hq
  exact ((h hq calls).quietly (hg calls hi.instr)).ending (Nat.add_assoc ..)

/-- An instruction without effect, afterwards. -/
theorem after {top'' : α → Stack} (h : s.Does p n i q top ev top')
    (hg : ∀ x j calls, p.code[j]? = some instr → s.Goes p ⟨j, top' x, calls⟩ ⟨j + 1, top'' x, calls⟩) :
    s.Does p n i (q ++ .ofList [instr]) top ev top'' := by
  intro hq calls
  obtain ⟨hq, hi⟩ := present_append.mp hq
  exact (h hq calls).after fun x => hg x _ calls hi.instr

/-- The value is dropped. -/
theorem drop {ev : Eval Value} (h : s.Computes p n i q ev) :
    s.Does p n i (q ++ .ofList [.pop]) [] ev fun _ => [] :=
  h.after fun _ _ _ hi => goes_pop hi

theorem store {x : Symbol} {v : Value} :
    s.Does p n i (.ofList [.store x.id]) (v :: t) (.store x v) fun _ => t :=
  .takes fun _ hi => takes_store hi

/-- Instructions one after the other. -/
theorem cons {k : α → Eval β} {top'' : β → Stack} (h : s.Does p n i (.ofList [instr]) top ev top')
    (hk : ∀ x, ev.Yields x → s.Does p n (i + 1) (.ofList is) (top' x) (k x) top'') :
    s.Does p n i (.ofList (instr :: is)) top (ev >>= k) top'' := by
  have hseq := h.append hk
  rwa [Piece.ofList_append] at hseq

theorem quietly_cons
    (hg : ∀ calls, p.code[i]? = some instr → s.Goes p ⟨i, top, calls⟩ ⟨i + 1, mid, calls⟩)
    (h : s.Does p n (i + 1) (.ofList is) mid ev top') :
    s.Does p n i (.ofList (instr :: is)) top ev top' := by
  have hseq := quietly hg h
  rwa [Piece.ofList_append] at hseq

/-- The value is stored and stays on the stack. -/
theorem keep {x : Symbol} {v : Value} :
    s.Does p n i (.ofList [.dup, .store x.id]) [v] (Eval.store x v >>= fun _ => pure v) fun v => [v] :=
  .quietly_cons (fun _ hi => goes_dup hi) (store.cons fun _ _ => .nil (fun v => [v]) v)

/-- The result in another form. -/
theorem map {f : α → β} {top'' : β → Stack} (h : s.Does p n i q top ev fun x => top'' (f x)) :
    s.Does p n i q top (ev >>= fun x => pure (f x)) top'' :=
  fun hq calls => (h hq calls).bind fun x _ => .pure (b := fun y => ⟨_, top'' y, calls⟩) (f x)

end Does

/-! ## Joints -/

namespace Computes

variable {i : Nat} {q r u : Piece} {evq evr evu : Eval Value}

theorem logical {decisive : Bool} (hq : s.Computes p n i q evq)
    (hr : s.Computes p n (i + q.width + 3) r evr) :
    s.Computes p n i (.logical decisive q r) (do
      let v ← evq
      if (← Eval.truth decisive v) = decisive then return v else evr) := by
  intro hpresent calls
  rw [Piece.width_logical]
  obtain ⟨hpq, hpresent⟩ := present_append.mp hpresent
  obtain ⟨hdup, hpresent⟩ := present_append.mp hpresent
  obtain ⟨hjump, hpresent⟩ := present_append.mp hpresent
  obtain ⟨hpop, hpr⟩ := present_append.mp hpresent
  refine (hq hpq calls).bind fun v _ => .quietly (goes_dup hdup.instr) ?_
  refine (takes_jumpIf hjump.jumping).tracks.bind fun b _ => ?_
  dsimp only
  by_cases hb : b = decisive
  · rw [if_pos hb, if_pos hb]
    exact (Tracks.pure (b := fun v => ⟨_, [v], calls⟩) v).ending (by simp; omega)
  · rw [if_neg hb, if_neg hb]
    exact .quietly (goes_pop hpop.instr) ((hr hpr calls).ending (by omega))

theorem cond (hq : s.Computes p n i q evq) (hr : s.Computes p n (i + q.width + 1) r evr)
    (hu : s.Computes p n (i + q.width + 1 + r.width + 1) u evu) :
    s.Computes p n i (.cond q r u) (do
      let v ← evq
      if ← Eval.truth false v then evr else evu) := by
  intro hpresent calls
  rw [Piece.width_cond]
  obtain ⟨hpq, hpresent⟩ := present_append.mp hpresent
  obtain ⟨hjump, hpresent⟩ := present_append.mp hpresent
  obtain ⟨hpr, hpresent⟩ := present_append.mp hpresent
  obtain ⟨hskip, hpu⟩ := present_append.mp hpresent
  refine (hq hpq calls).bind fun v _ => (takes_jumpIf hjump.jumping).tracks.bind fun b _ => ?_
  cases b with
  | true =>
    have hend : i + q.width + 1 + r.width + 1 + u.width =
      i + (q.width + 1 + r.width + 1 + u.width) := by omega
    exact ((hr hpr calls).after fun v => goes_jump hskip.jumping).ending hend
  | false =>
    have hstart : i + q.width + r.width + 2 = i + q.width + 1 + r.width + 1 := by omega
    simp only [if_true, Bool.false_eq_true, if_false, hstart]
    exact (hu hpu calls).ending (by omega)

/-- A round of a loop takes a step, and then goes on as the loop does. -/
theorem loop {evr : Eval α} {next : Eval Value} (hq : s.Computes p (n + 1) i q evq)
    (hr : s.Does p (n + 1) (i + q.width + 1) r [] evr fun _ => [])
    (hnext : s.Computes p n i (.loop q r) next) :
    s.Computes p (n + 1) i (.loop q r) (.round evq evr next) := by
  intro hpresent calls
  have hagain := hnext hpresent calls
  rw [Piece.width_loop] at hagain ⊢
  obtain ⟨hpq, hpresent⟩ := present_append.mp hpresent
  obtain ⟨hjump, hpresent⟩ := present_append.mp hpresent
  obtain ⟨hpr, hpresent⟩ := present_append.mp hpresent
  obtain ⟨hback, hunit⟩ := present_append.mp hpresent
  refine (hq hpq calls).bind fun v _ => .bind_takes (takes_jumpIf hjump.jumping) fun b _ => ?_
  cases b with
  | true =>
    have hstart : i + q.width + 1 + r.width - (q.width + 1 + r.width) = i := by omega
    have hcode : p.code[i + q.width + 1 + r.width]? =
      some (.jump (i + q.width + 1 + r.width - (q.width + 1 + r.width))) := hback.jumping
    rw [hstart] at hcode
    exact ((hr.mono (Nat.le_succ n)) hpr calls).bind fun _ _ => hagain.quietly (goes_jump hcode)
  | false =>
    have hgoes : s.Goes p ⟨i + q.width + 1 + r.width + 1, [], calls⟩
      ⟨i + q.width + 1 + r.width + 1 + 1, [.unit], calls⟩ := goes_push hunit.instr rfl (by simp)
    have hexit : i + q.width + r.width + 2 = i + q.width + 1 + r.width + 1 := by omega
    simp only [if_true, Bool.false_eq_true, if_false, hexit]
    exact (Tracks.quietly hgoes (.pure (b := fun v => ⟨_, [v], calls⟩) Value.unit)).ending (by omega)

/-- A definition makes its function, which is entered right after the jump over the routine. -/
theorem function {name : Symbol} {params : List Symbol} {source : List (Expr Symbol)}
    (hdefines : ∀ site ∈ s.functions, s.Defines site.ref) :
    s.Computes p n i (.function name params source q) (do
      let f := .function ⟨i + 1, params.length⟩
      Eval.store name f
      return f) := by
  intro hpresent calls
  have hnew : s.Defines ⟨i + 1, params.length⟩ := hdefines _ (hpresent.sites _ List.mem_cons_self)
  rw [Piece.width_function]
  have hdefinition : s.Present p i (.definition name params q) :=
    ⟨hpresent.code, (List.forall_mem_cons.mp hpresent.sites).2⟩
  obtain ⟨hskip, hrest⟩ := present_append.mp hdefinition
  obtain ⟨-, hrest⟩ := present_append.mp hrest
  obtain ⟨hmake, hkeep⟩ := present_append.mp hrest
  have hentry : i + 1 + (Piece.routine name params q).width - (Piece.routine name params q).width =
    i + 1 := by omega
  have hcode : p.code[i + 1 + (Piece.routine name params q).width]? = some (.makeFunction
    (i + 1 + (Piece.routine name params q).width - (Piece.routine name params q).width)
    params.length) := hmake.jumping
  rw [hentry] at hcode
  refine .quietly (goes_jump hskip.jumping) (.quietly (goes_push hcode rfl fun entry arity heq => ?_) ?_)
  · cases heq
    exact hnew
  · have hdoes := Does.keep (n := n) (v := .function ⟨i + 1, params.length⟩) hkeep calls
    exact hdoes.ending (by simp; omega)

end Computes

end Setting

end ExactScript
