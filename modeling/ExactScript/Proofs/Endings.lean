import ExactScript.Proofs.Correctness
import ExactScript.Proofs.Loads

/-!
# How runs end

A run that ends is an evaluation that ends, with as much fuel as the run took steps. And when a program has
run to its end, every variable and function that a statement of its top level declares is in the globals:
the statements are evaluated one after the other, outside of calls, and a global is never lost.

## Contents
* `Program.evalProgram_of_execute`, the evaluation behind a run, and `Program.execute_of_value`;
* `Machine.Steps.contains_globals`, globals are not lost;
* `Program.stored_of_execute`, what is declared at the top level is stored.
-/

namespace ExactScript

/-! ## Globals -/

theorem Memory.contains_store {m : Memory} {id j : Nat} {v : Value} (h : m.globals.contains j) :
    (m.store id v).globals.contains j := by
  unfold Memory.store
  split
  · exact IdMap.contains_insert.mpr (.inr h)
  · split
    · exact IdMap.contains_insert.mpr (.inr h)
    · exact h

namespace Machine

variable {m m' : Machine} {i : Instr Nat} {id n : Nat}

theorem Effect.contains_globals (h : Effect m i m') (hid : m.memory.globals.contains id) :
    m'.memory.globals.contains id := by
  cases h with
  | store => exact Memory.contains_store hid
  | ret hpop =>
    unfold Memory.popFrame? at hpop
    split at hpop
    · cases hpop
    · cases hpop
      exact hid
  | _ => exact hid

/-- **No global is lost.** -/
theorem Steps.contains_globals (h : Steps n m m') (hid : m.memory.globals.contains id) :
    m'.memory.globals.contains id := by
  refine h.invariant (P := fun m => m.memory.globals.contains id) (fun m m' hm hstep => ?_) hid
  obtain ⟨-, i, -, he⟩ := effect_of_step hstep
  exact he.contains_globals hm

/-! ## Ends of runs -/

variable {k : Nat} {m₁ m₂ : Machine} {r r' : Except RunError Value}

/-- After `k` steps the next one ends the run. -/
theorem Steps.ended (h : Steps k m m₁) (hend : m₁.execute 1 = (some r, m₂))
    (hrun : m.execute n = (some r', m')) : r' = r ∧ m' = m₂ := by
  have hlast : ∀ j, m₁.execute (j + 1) = (some r, m₂) := by
    intro j
    simp only [execute] at hend ⊢
    split at hend
    · cases hend
    · exact hend
    · exact hend
  rcases Nat.lt_or_ge k n with hlt | hge
  · obtain ⟨j, rfl⟩ := Nat.exists_eq_add_of_lt hlt
    rw [Nat.add_assoc, h.execute_add, hlast] at hrun
    cases hrun
    exact ⟨rfl, rfl⟩
  · obtain ⟨j, rfl⟩ := Nat.exists_eq_add_of_le hge
    obtain ⟨m₃, hn, -⟩ := h.take
    rw [← Nat.add_zero n, hn.execute_add] at hrun
    cases hrun

end Machine

/-! ## The evaluation behind a run -/

namespace Program

variable {tree : List (Expr Symbol)} {p : Program} {title : Nat → String} {m m' : Machine} {n : Nat}

/-- **Where a run ends, the evaluation ends** in the same way and with the same memory. -/
theorem evalProgram_of_execute (hp : ofTree tree = .ok p) (h : ∀ e ∈ tree, e.Sound title)
    {r : Except RunError Value} (hrun : (m.load p).execute n = (some r, m')) :
    ∃ w, m'.memory = w.memory ∧ ((∃ v, r = .ok v ∧
      evalProgram tree m.maxCallDepth m.sink m.output n = .value v w) ∨ ∃ e, r = .error e ∧
        evalProgram tree m.maxCallDepth m.sink m.output n = .failure e w) := by
  have hfollows := follows_eval m hp h n
  cases hout : evalProgram tree m.maxCallDepth m.sink m.output n with
  | value v w =>
    rw [hout] at hfollows
    obtain ⟨k, m₁, hk, hstep, hmemory, -⟩ := hfollows
    obtain ⟨rfl, rfl⟩ := hk.ended (by rw [Machine.execute, hstep]) hrun
    exact ⟨w, hmemory, .inl ⟨v, rfl, rfl⟩⟩
  | failure e w =>
    rw [hout] at hfollows
    obtain ⟨k, m₁, m₂, hk, hstep, hmemory, -⟩ := hfollows
    obtain ⟨rfl, rfl⟩ := hk.ended (by rw [Machine.execute, hstep]) hrun
    exact ⟨w, hmemory, .inr ⟨e, rfl, rfl⟩⟩
  | unfinished =>
    rw [hout] at hfollows
    obtain ⟨m₁, hm₁⟩ := hfollows
    obtain ⟨m₂, hn, -⟩ := hm₁.take
    rw [← Nat.add_zero n, hn.execute_add] at hrun
    cases hrun

/-- **Where the evaluation has a value, the run ends** with it, and with the same memory. -/
theorem execute_of_value (hp : ofTree tree = .ok p) (h : ∀ e ∈ tree, e.Sound title) {v : Value} {w : World}
    (hev : evalProgram tree m.maxCallDepth m.sink m.output n = .value v w) :
    ∃ k m', (m.load p).execute k = (some (.ok v), m') ∧ m'.memory = w.memory := by
  have hfollows := follows_eval m hp h n
  rw [hev] at hfollows
  obtain ⟨k, m₁, hk, hstep, hmemory, -⟩ := hfollows
  refine ⟨k + 1, { m₁ with stack := [], status := .halted }, ?_, hmemory⟩
  rw [hk.execute_add, Machine.execute, hstep]

/-- Where the evaluation fails, the run fails. -/
theorem execute_of_failure (hp : ofTree tree = .ok p) (h : ∀ e ∈ tree, e.Sound title) {e : RunError} {w : World}
    (hev : evalProgram tree m.maxCallDepth m.sink m.output n = .failure e w) :
    ∃ k m', (m.load p).execute k = (some (.error e), m') ∧ m'.memory = w.memory := by
  have hfollows := follows_eval m hp h n
  rw [hev] at hfollows
  obtain ⟨k, m₁, m₂, hk, hstep, hmemory, -⟩ := hfollows
  refine ⟨k + 1, m₂, ?_, hmemory⟩
  rw [hk.execute_add, Machine.execute, hstep]

end Program

/-! ## What the top level declares -/

namespace Expr

/-- The symbol that a statement declares in the scope that it stands in. -/
def declared? {β : Type} : Expr β → Option β
  | declare x _ => some x
  | function name _ _ _ => some name
  | _ => none

end Expr

section TopLevel

variable {s : Setting} {p : Program} {title : Nat → String} {n i : Nat} {again : Nat → Expr Symbol → Eval Value}
  {q : Piece} {ev : Eval Value} {e : Expr Symbol} {es : List (Expr Symbol)} {v : Value} {w w' : World} {x : Symbol}

/-- Code that runs outside of calls comes to its end outside of calls, and no global is lost. -/
theorem Setting.Computes.outside (h : s.Computes p n i q ev) (hq : s.Present p i q) (hw : s.Meets ⟨i, [], []⟩ w)
    (hev : ev w = .value v w') : s.Meets ⟨i + q.width, [v], []⟩ w' ∧
      ∀ id, w.memory.globals.contains id → w'.memory.globals.contains id := by
  have hrun := h hq [] [] w hw
  rw [hev] at hrun
  obtain ⟨k, m', hk, rfl, hmeets⟩ := hrun
  exact ⟨hmeets, fun id hid => hk.contains_globals hid⟩

/-- Outside of calls, symbols are stored in the globals. -/
theorem Setting.Meets.contains_store {top : Stack} (hw : s.Meets ⟨i, top, []⟩ w) (id : Nat) (u : Value) :
    (w.memory.store id u).globals.contains id := by
  have hframes : w.memory.frames = [] := List.map_eq_nil_iff.mp hw.calls
  rw [Memory.store, hframes]
  exact IdMap.contains_insert.mpr (.inl rfl)

theorem Eval.of_bind {α β : Type} {ev : Eval α} {k : α → Eval β} {b : β} (h : (ev >>= k) w = .value b w') :
    ∃ a w₁, ev w = .value a w₁ ∧ k a w₁ = .value b w' := by
  cases hev : ev w with
  | value a w₁ => exact ⟨a, w₁, rfl, by simpa only [bind, hev] using h⟩
  | failure e w₁ => simp only [bind, hev, reduceCtorEq] at h
  | unfinished => simp only [bind, hev, reduceCtorEq] at h

namespace Expr

variable (h : s.Loaded p title)
  (hagain : ∀ e : Expr Symbol, e.Sound title → ∀ i, s.Computes p n i e.piece (again i e))

include h hagain

/-- A declaration stores what it declares. -/
theorem stored_of_declared (he : e.Sound title) (hp : s.Present p i e.piece) (hw : s.Meets ⟨i, [], []⟩ w)
    (hev : e.evalWith s again i w = .value v w') (hx : e.declared? = some x) :
    w'.memory.globals.contains x.id := by
  cases e with
  | declare y value =>
    cases hx
    obtain ⟨u, w₁, hu, hrest⟩ := Eval.of_bind hev
    cases hrest
    have hvalue := (evaluates h hagain value).value (he.child (by simp [children])) i
    exact (hvalue.outside (Setting.present_append.mp hp).1 hw hu).1.contains_store _ _
  | function name params body ret =>
    cases hx
    cases hev
    exact hw.contains_store _ _
  | _ => cases hx

/-- **Statements store what they declare**, one after the other. -/
theorem stored_of_block (hes : ∀ e ∈ es, e.Sound title) (hp : s.Present p i (pieceOfBlock es))
    (hw : s.Meets ⟨i, [], []⟩ w) (hev : evalBlock s again i es w = .value v w') (he : e ∈ es)
    (hx : e.declared? = some x) : w'.memory.globals.contains x.id := by
  induction es generalizing i w with
  | nil => cases he
  | cons f es ih =>
    obtain ⟨hf, hfs⟩ := List.forall_mem_cons.mp hes
    cases es with
    | nil =>
      obtain rfl : e = f := by simpa using he
      exact stored_of_declared h hagain hf hp hw hev hx
    | cons g es =>
      obtain ⟨hpf, hrest⟩ := Setting.present_append.mp hp
      obtain ⟨-, hrest⟩ := Setting.present_append.mp hrest
      obtain ⟨u, w₁, hu, hev⟩ := Eval.of_bind hev
      have hfirst := ((evaluates h hagain f).value hf i).outside hpf hw hu
      have hnext := hfirst.1.tail (i + f.piece.width + 1)
      rcases List.mem_cons.mp he with rfl | he
      · have hlater : s.Computes p (n + 1) (i + e.piece.width + 1) (pieceOfBlock (g :: es))
            (evalBlock s again (i + e.piece.width + 1) (g :: es)) :=
          computes_block (fun e he => (evaluates h hagain e).value (hfs e he)) _
        exact (hlater.outside hrest hnext hev).2 _ (stored_of_declared h hagain hf hpf hw hu hx)
      · exact ih hfs hrest hnext hev he

end Expr

end TopLevel

namespace Program

variable {tree : List (Expr Symbol)} {p : Program} {title : Nat → String} {m m' : Machine} {n : Nat} {v : Value}

/-- **What the top level declares is stored** when a program has run to its end. -/
theorem stored_of_execute (hp : ofTree tree = .ok p) (h : ∀ e ∈ tree, e.Sound title)
    (hrun : (m.load p).execute n = (some (.ok v), m')) {e : Expr Symbol} (he : e ∈ tree) {x : Symbol}
    (hx : e.declared? = some x) : m'.memory.globals.contains x.id := by
  have hloaded := loaded_of_ofTree m hp h
  have hpresent := (Setting.present_append.mp (present_of_ofTree m hp)).1
  have hmeets : (setting tree m).Meets ⟨0, [], []⟩ { memory := .empty, output := m.output } :=
    ⟨fun _ hv => (by cases hv), .empty, rfl⟩
  obtain ⟨w, hmemory, ⟨u, heq, hev⟩ | ⟨f, heq, -⟩⟩ := evalProgram_of_execute hp h hrun
  · cases heq
    rw [hmemory]
    cases n with
    | zero => exact Expr.stored_of_block hloaded (n := 0) (fun _ _ _ _ _ => .unfinished) h hpresent hmeets hev he hx
    | succ n =>
      exact Expr.stored_of_block hloaded (fun _ he i => Expr.computes_eval hloaded n he i) h hpresent hmeets hev
        he hx
  · cases heq

end Program

end ExactScript
