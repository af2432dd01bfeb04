import Mathlib.Data.Int.CharZero
import Mathlib.Data.Rat.Lemmas
import ExactScript.Proofs.Constants
import ExactScript.Proofs.Failures
import ExactScript.Script

/-!
# Numbers stay in lowest terms

Whether a number is an integer is asked of its stored form: the denominator has to be one. That is a question
about its value only as long as numbers are in lowest terms. Sums, products and quotients are reduced;
negation, powers and reciprocals keep lowest terms without reducing, for they share the divisors of their
operands, or change a pair without common divisors around. So when the constants of a program are in lowest
terms, and those of source texts are, every number in every state of a run is, however deep inside of lists and
maps it is.

## Contents
* `Fraction.value`; lowest terms kept by arithmetic, up to `Fraction.IsReduced.power`;
* `Fraction.IsReduced.value_eq_intCast_iff` and `eq_of_same`, what stored forms tell of values;
* `Value.Reduced`, which is hereditary and kept by operators, and `Machine.reduced_of_reachable`;
* `Fraction.Tested`, what the tests for integers find out, and `Value.position_eq_ok_iff`;
* `Program.lowest_terms`, the theorem.
-/

namespace ExactScript

/-! ## Arithmetic -/

namespace Fraction

variable {x y : Fraction}

/-- The rational number that is stored. -/
def value (x : Fraction) : ℚ := x.num / x.den

/-- Numbers are compared by their values. -/
theorem same_iff_value : x.same y = true ↔ x.value = y.value := by
  rw [same, beq_iff_eq, value, value,
    div_eq_div_iff (Int.cast_ne_zero.mpr x.den_ne_zero) (Int.cast_ne_zero.mpr y.den_ne_zero)]
  exact_mod_cast Iff.rfl

theorem isReduced_ofInt (n : Int) : (ofInt n).IsReduced := ⟨Int.one_pos, Int.gcd_one⟩

/-- What is stored as an integer is its numerator. -/
theorem eq_ofInt (h : x.isInteger = true) : x = ofInt x.num := by
  obtain ⟨n, d, hd⟩ := x
  obtain rfl : d = 1 := beq_iff_eq.mp h
  rfl

/-- What is reduced is in lowest terms. -/
theorem isReduced_reduced (n : Int) {d : Int} (hd : d ≠ 0) : (reduced n d hd).IsReduced := by
  have hgcd : 0 < Nat.gcd n.natAbs d.natAbs := Nat.gcd_pos_of_pos_right _ (Int.natAbs_pos.mpr hd)
  have hnum : (d.sign * n / (Int.gcd n d : Int)).natAbs = n.natAbs / Int.gcd n d := by
    rw [Int.natAbs_ediv_of_dvd (Dvd.dvd.mul_left (Int.gcd_dvd_left ..) _), Int.natAbs_mul,
      Int.natAbs_sign_of_ne_zero hd, Nat.one_mul, Int.natAbs_natCast]
  constructor
  · have hpos : 0 < d.natAbs / Int.gcd n d :=
      Nat.div_pos (Nat.gcd_le_right _ (Int.natAbs_pos.mpr hd)) hgcd
    exact Int.natCast_pos.mpr hpos
  · show Nat.gcd (d.sign * n / (Int.gcd n d : Int)).natAbs ((d.natAbs / Int.gcd n d : Nat) : Int).natAbs = 1
    rw [hnum, Int.natAbs_natCast]
    exact Nat.coprime_div_gcd_div_gcd hgcd

/-- The digits of a number are read in lowest terms. -/
theorem isReduced_readNumber (digits : List Char) : (Source.readNumber digits).IsReduced := by
  unfold Source.readNumber ofDecimal
  exact isReduced_reduced _ _

namespace IsReduced

theorem neg (h : x.IsReduced) : x.neg.IsReduced := ⟨h.1, by rw [Fraction.neg, Int.neg_gcd]; exact h.2⟩

theorem div? {q : Fraction} (h : x.div? y = some q) : q.IsReduced := by
  unfold Fraction.div? at h
  split at h
  · cases h
  · cases h
    exact isReduced_reduced _ _

/-- Without common divisors, numerator and denominator may change places. -/
theorem recip? (hx : x.IsReduced) (h : x.recip? = some y) : y.IsReduced := by
  have hgcd : Int.gcd x.den x.num = 1 := Int.gcd_comm .. ▸ hx.2
  unfold Fraction.recip? at h
  split at h
  · cases h
  · next hne =>
    split at h
    · next hpos =>
      cases h
      exact ⟨hpos, hgcd⟩
    · cases h
      exact ⟨show 0 < -x.num by omega, by rw [Int.neg_gcd, Int.gcd_neg]; exact hgcd⟩

theorem pow (h : x.IsReduced) (n : Nat) : (x.pow n).IsReduced := by
  fun_cases Fraction.pow x n with
  | case1 => exact isReduced_ofInt 1
  | case2 => exact h
  | case3 => exact isReduced_reduced _ _
  | case4 => exact isReduced_reduced _ _

theorem power (h : x.IsReduced) (y : Fraction) : Gives IsReduced (x.power y) := by
  unfold Fraction.power
  dsimp only
  split
  · trivial
  split
  · trivial
  split
  · split
    · next inverse hinverse => exact (h.pow _).recip? hinverse
    · trivial
  · exact h.pow _

/-! ## Stored forms and values -/

/-- A number in lowest terms has the value of an integer only if it is stored as one. -/
theorem value_eq_intCast_iff (h : x.IsReduced) (n : Int) : x.value = n ↔ x.isInteger = true ∧ x.num = n := by
  rw [isInteger, beq_iff_eq]
  constructor
  · intro hvalue
    have hquotient : (x.num : ℚ) / x.den = (n : ℚ) / (1 : Int) := by rw [Int.cast_one, div_one]; exact hvalue
    obtain ⟨hnum, hden⟩ := Rat.div_int_inj h.1 Int.one_pos h.2 (Nat.coprime_one_right _) hquotient
    exact ⟨hden, hnum⟩
  · rintro ⟨hden, hnum⟩
    rw [value, hden, hnum, Int.cast_one, div_one]

/-- Whether the value is an integer shows in the stored form. -/
theorem isInteger_iff (h : x.IsReduced) : x.isInteger = true ↔ ∃ n : Int, x.value = n :=
  ⟨fun hx => ⟨x.num, (h.value_eq_intCast_iff _).mpr ⟨hx, rfl⟩⟩,
    fun ⟨_, hn⟩ => ((h.value_eq_intCast_iff _).mp hn).1⟩

/-- Of every number there is one form in lowest terms. -/
theorem eq_of_same (hx : x.IsReduced) (hy : y.IsReduced) (h : x.same y = true) : x = y := by
  have hvalues : (x.num : ℚ) / x.den = (y.num : ℚ) / y.den := same_iff_value.mp h
  obtain ⟨hnum, hden⟩ := Rat.div_int_inj hx.1 hy.1 hx.2 hy.2 hvalues
  cases x
  cases y
  cases hnum
  cases hden
  rfl

end IsReduced

end Fraction

/-! ## Values -/

/-- The key is no number, or one in lowest terms. -/
def Key.Reduced : Key → Prop
  | .num n => n.IsReduced
  | .bool _ => True
  | .str _ => True

/-- Every number in the value is in lowest terms, also the keys of maps. -/
inductive Value.Reduced : Value → Prop where
  | unit : Reduced .unit
  | num {n : Fraction} (h : n.IsReduced) : Reduced (.num n)
  | bool (b : Bool) : Reduced (.bool b)
  | str (s : String) : Reduced (.str s)
  | list {vs : List Value} (h : ∀ v ∈ vs, Reduced v) : Reduced (.list vs)
  | map {es : Entries Value} (hk : ∀ e ∈ es, e.1.Reduced) (hv : ∀ e ∈ es, Reduced e.2) :
      Reduced (.map es)
  | function (f : FunctionRef) : Reduced (.function f)

namespace Value

theorem reduced_num {n : Fraction} : (num n).Reduced ↔ n.IsReduced :=
  ⟨fun | .num h => h, .num⟩

theorem hereditary_reduced : Hereditary Reduced Key.Reduced where
  unit := .unit
  bool := .bool
  str := .str
  ofNat n := .num (Fraction.isReduced_ofInt n)
  list := ⟨fun | .list h => h, .list⟩
  map := ⟨fun | .map hk hv => fun e he => ⟨hk e he, hv e he⟩,
    fun h => .map (fun e he => (h e he).1) fun e he => (h e he).2⟩
  ofKey {k} h := by
    cases k with
    | num n => exact .num h
    | bool b => exact .bool b
    | str s => exact .str s
  toKey {v k} h hk := by
    cases h with
    | num h =>
      cases hk
      exact h
    | bool b =>
      cases hk
      trivial
    | str s =>
      cases hk
      trivial
    | _ => cases hk

/-- **Operators** keep numbers in lowest terms. -/
theorem reduced_binary (op : BinaryOp) {l r : Value} (hl : l.Reduced) (hr : r.Reduced) :
    Gives Reduced (op.apply l r) := by
  -- arithmetic is on two numbers, which are in lowest terms
  have harith : ∀ {f : Fraction × Fraction → Except RunError Value},
      (∀ x y, x.IsReduced → y.IsReduced → Gives Reduced (f (x, y))) → Gives Reduced (op.numbers l r >>= f) := by
    intro f hf
    refine (gives_numbers op l r).bind ?_
    rintro ⟨x, y⟩ ⟨rfl, rfl⟩
    exact hf x y (reduced_num.mp hl) (reduced_num.mp hr)
  cases op with
  | eq => exact .ok (.bool _)
  | ne => exact .ok (.bool _)
  | lt => exact (gives_ordering .lt l r).bind fun _ _ => .ok (.bool _)
  | gt => exact (gives_ordering .gt l r).bind fun _ _ => .ok (.bool _)
  | le => exact (gives_ordering .le l r).bind fun _ _ => .ok (.bool _)
  | ge => exact (gives_ordering .ge l r).bind fun _ _ => .ok (.bool _)
  | add =>
    simp only [BinaryOp.apply]
    split
    · exact .ok (.str _)
    · exact harith fun _ _ _ _ => .ok (.num (Fraction.isReduced_reduced _ _))
  | sub => exact harith fun _ _ _ _ => .ok (.num (Fraction.isReduced_reduced _ _))
  | mul => exact harith fun _ _ _ _ => .ok (.num (Fraction.isReduced_reduced _ _))
  | div =>
    refine harith fun x y _ _ => ?_
    dsimp only
    split
    · next hq => exact .ok (.num (.div? hq))
    · trivial
  | floorDiv =>
    refine (gives_integers .floorDiv l r).bind fun _ _ => ?_
    dsimp only
    split
    · trivial
    · exact .ok (.num (Fraction.isReduced_ofInt _))
  | rem =>
    refine (gives_integers .rem l r).bind fun _ _ => ?_
    dsimp only
    split
    · trivial
    · exact .ok (.num (Fraction.isReduced_ofInt _))
  | pow => exact harith fun x y hx _ => (hx.power y).bind fun _ hz => .ok (.num hz)

theorem reduced_unary (op : UnaryOp) {v : Value} (hv : v.Reduced) : Gives Reduced (op.apply v) := by
  cases op with
  | neg =>
    cases hv with
    | num h => exact .ok (.num h.neg)
    | _ => trivial
  | not =>
    cases hv with
    | bool b => exact .ok (.bool _)
    | _ => trivial

end Value

/-! ## Runs -/

/-- The numbers that the program pushes are in lowest terms. -/
def Program.Reduced (p : Program) : Prop := ∀ n, .push (.num n) ∈ p.code → n.IsReduced

namespace Machine

variable {p : Program} {m m' : Machine} {i : Instr Nat}

/-- **One instruction.** -/
theorem Effect.reduced (h : Effect m i m') (hm : m.Everywhere Value.Reduced)
    (hpush : ∀ n, i = .push (.num n) → n.IsReduced) : m'.Everywhere Value.Reduced := by
  refine h.everywhere hm .str fun ops r hc hops => ?_
  refine Value.hereditary_reduced.combine hc hops (fun l hl => ?_)
    (fun op x y hx hy => Value.reduced_binary op hx hy) (fun op x hx => Value.reduced_unary op hx)
    fun _ _ _ => .function _
  cases l with
  | num n => exact .num (hpush n hl)
  | bool b => exact .bool b
  | str s => exact .str s

theorem step_keeps (hp : p.Reduced) (hm : m.program = p ∧ m.Everywhere Value.Reduced)
    (hstep : m.step = (.ok .more, m')) : m'.program = p ∧ m'.Everywhere Value.Reduced := by
  obtain ⟨rfl, hm⟩ := hm
  obtain ⟨-, i, hi, he⟩ := effect_of_step hstep
  refine ⟨he.program_eq, he.reduced hm fun n hn => hp n ?_⟩
  rw [current?, hn] at hi
  exact Array.mem_of_getElem? hi

/-- **A run.** -/
theorem reduced_of_reachable (hp : p.Reduced) (h : Reachable p m) :
    m.program = p ∧ m.Everywhere Value.Reduced := by
  obtain ⟨m₀, n, hs⟩ := h
  exact hs.invariant (P := fun m => m.program = p ∧ m.Everywhere Value.Reduced)
    (fun _ _ hm hstep => step_keeps hp hm hstep) ⟨rfl, everywhere_load m₀ p⟩

/-- **Whatever the next step comes to**, a further state, the end or a failure. -/
theorem reduced_step (hprogram : m.program = p) (hp : p.Reduced) (hm : m.Everywhere Value.Reduced) :
    m.step.2.Everywhere Value.Reduced ∧ ∀ v, m.step.1 = .ok (.done v) → v.Reduced :=
  hm.step .unit fun _ hstep => (step_keeps hp ⟨hprogram, hm⟩ hstep).2

end Machine

/-! ## Tests for integers -/

/-- What the tests for integers find out about the stored form is true of the value. -/
structure Fraction.Tested (x : Fraction) : Prop where
  stored : x.isInteger = true ↔ ∃ n : Int, x.value = n
  /-- `//` and `%` take integers only, and these are the values. -/
  operands : ∀ (op : BinaryOp) (y : Fraction), y.IsReduced → ∀ i j : Int,
    op.integers (.num x) (.num y) = .ok (i, j) ↔ x.value = i ∧ y.value = j
  exponent : ∀ base : Fraction,
    base.power x = .error (.unsupported BinaryOp.pow.symbol (.exponentNotAnInteger x)) ↔
      ¬∃ n : Int, x.value = n
  position : ∀ (op : String) (length i : Nat),
    (Value.num x).position op length = .ok i ↔ x.value = (i : Int) ∧ i < length ∧ i < wordSize
  position_refused : ∀ (op : String) (length : Nat),
    (Value.num x).position op length = .error (.mismatch op "integer" (.num x)) ↔ ¬∃ n : Int, x.value = n
  count : ∀ k : Nat, Stack.count? x = some k ↔ x.value = (k : Int) ∧ k < wordSize
  bound : ∀ i : Int, (Value.num x).sliceBound = .ok i ↔
    x.value = i ∧ -0x8000000000000000 ≤ i ∧ i < 0x8000000000000000
  bound_refused :
    (Value.num x).sliceBound = .error (.mismatch "STR_SLICE" "integer" (.num x)) ↔ ¬∃ n : Int, x.value = n

namespace Fraction

variable {x y : Fraction}

/-- A word is what a numerator that is not negative and not too large stands for. -/
theorem toWord?_eq_some_iff {k : Nat} : x.toWord? = some k ↔ x.num = k ∧ k < wordSize := by
  unfold toWord?
  split
  · next h =>
    rw [Option.some.injEq]
    omega
  · next h =>
    refine iff_of_false nofun fun hk => h ?_
    omega

theorem toInt64?_eq_some_iff {i : Int} :
    x.toInt64? = some i ↔ x.num = i ∧ -0x8000000000000000 ≤ i ∧ i < 0x8000000000000000 := by
  unfold toInt64?
  split
  · next h =>
    rw [Option.some.injEq]
    omega
  · next h =>
    refine iff_of_false nofun fun hi => h ?_
    omega

/-- **The tests for integers** are right about numbers in lowest terms. -/
theorem IsReduced.tested (hx : x.IsReduced) : x.Tested where
  stored := hx.isInteger_iff
  operands op y hy i j := by
    rw [hx.value_eq_intCast_iff, hy.value_eq_intCast_iff]
    show (if !x.isInteger then _ else if !y.isInteger then _ else _) = _ ↔ _
    cases x.isInteger <;> cases y.isInteger <;> simp
  exponent base := by
    rw [← hx.isInteger_iff]
    cases hint : x.isInteger with
    | true =>
      refine iff_of_false (fun h => ?_) (not_not_intro rfl)
      simp only [Fraction.power, hint, Bool.not_true, Bool.false_eq_true, if_false] at h
      repeat' split at h
      all_goals cases h
    | false => simp [Fraction.power, hint]
  position op length i := by
    rw [hx.value_eq_intCast_iff]
    cases hint : x.isInteger with
    | true =>
      simp only [Value.position, hint, if_true, true_and]
      cases hword : x.toWord? with
      | none =>
        refine iff_of_false nofun fun ⟨hi, _, hlt⟩ => ?_
        rw [toWord?_eq_some_iff.mpr ⟨hi, hlt⟩] at hword
        cases hword
      | some k =>
        obtain ⟨hk, hlt⟩ := toWord?_eq_some_iff.mp hword
        by_cases hlength : k < length
        · simp only [hlength, if_true, Except.ok.injEq]
          omega
        · simp only [hlength, if_false, reduceCtorEq, false_iff]
          omega
    | false => simp [Value.position, hint]
  position_refused op length := by
    rw [← hx.isInteger_iff]
    cases hint : x.isInteger with
    | true =>
      refine iff_of_false (fun h => ?_) (not_not_intro rfl)
      simp only [Value.position, hint, if_true] at h
      repeat' split at h
      all_goals cases h
    | false => simp [Value.position, hint]
  count k := by
    rw [hx.value_eq_intCast_iff, Stack.count?]
    cases x.isInteger with
    | true => simp [toWord?_eq_some_iff]
    | false => simp
  bound i := by
    rw [hx.value_eq_intCast_iff]
    cases hint : x.isInteger with
    | true =>
      simp only [Value.sliceBound, hint, if_true, true_and]
      rw [← toInt64?_eq_some_iff]
      cases x.toInt64? <;> simp
    | false => simp [Value.sliceBound, hint]
  bound_refused := by
    rw [← hx.isInteger_iff]
    cases hint : x.isInteger with
    | true =>
      refine iff_of_false (fun h => ?_) (not_not_intro rfl)
      simp only [Value.sliceBound, hint, if_true] at h
      split at h <;> cases h
    | false => simp [Value.sliceBound, hint]

end Fraction

theorem Value.eq_ofNat_of_position {v : Value} {op : String} {length i : Nat} (h : v.position op length = .ok i) :
    v = .ofNat i ∧ i < length := by
  cases v with
  | num x =>
    cases hx : x.isInteger with
    | false => simp [position, hx] at h
    | true =>
      rw [Fraction.eq_ofInt hx] at h ⊢
      obtain ⟨hvalue, hlt, -⟩ := ((Fraction.isReduced_ofInt _).tested.position op length i).mp h
      obtain ⟨-, hnum⟩ := ((Fraction.isReduced_ofInt _).value_eq_intCast_iff _).mp hvalue
      exact ⟨congrArg (Value.num ∘ Fraction.ofInt) hnum, hlt⟩
  | _ => cases h

/-- The positions in a sequence are the integers from 0 up to its length. -/
theorem Value.position_eq_ok_iff {v : Value} {op : String} {length i : Nat} (hlength : length ≤ wordSize) :
    v.position op length = .ok i ↔ v = .ofNat i ∧ i < length := by
  refine ⟨eq_ofNat_of_position, ?_⟩
  rintro ⟨rfl, hlt⟩
  have hvalue := ((Fraction.isReduced_ofInt i).value_eq_intCast_iff i).mpr ⟨rfl, rfl⟩
  exact ((Fraction.isReduced_ofInt i).tested.position op length i).mpr ⟨hvalue, hlt, by omega⟩

/-! ## The theorem -/

namespace Program

/-- A stage of a script that came to a result did so on its own account. -/
theorem of_stage {ε α β : Type} {wrap : ε → ScriptError} {stage : Except ε α} {rest : α → Except ScriptError β}
    {b : β} (h : (stage.mapError wrap >>= rest) = .ok b) : ∃ a, stage = .ok a ∧ rest a = .ok b := by
  cases stage with
  | error e => cases h
  | ok a => exact ⟨a, rfl, h⟩

/-- A compiled script is a text that parses to a tree whose names resolve. -/
theorem stages_of_compileSource {typecheck : Bool} {src : String} {p : Program}
    (h : compileSource typecheck src = .ok p) : ∃ source tree, Source.parse src = .ok source ∧
      resolve source = .ok tree ∧ Program.ofTree tree = .ok p := by
  obtain ⟨source, hparse, h⟩ := of_stage h
  obtain ⟨tree, hresolve, h⟩ := of_stage h
  have h : (Program.ofTree tree).mapError ScriptError.compile = .ok p := by
    rw [compileTree] at h
    cases typecheck with
    | true =>
      obtain ⟨-, -, h⟩ := of_stage h
      exact h
    | false => exact h
  refine ⟨source, tree, hparse, hresolve, ?_⟩
  cases hcompile : Program.ofTree tree with
  | error e => rw [hcompile] at h; cases h
  | ok p' => rw [hcompile] at h; cases h; rfl

/-- Programs of source texts push numbers in lowest terms. -/
theorem reduced_of_compileSource {typecheck : Bool} {src : String} {p : Program}
    (h : compileSource typecheck src = .ok p) : p.Reduced := by
  intro n hn
  obtain ⟨source, tree, hparse, hresolve, hcompile⟩ := stages_of_compileSource h
  rcases number_of_push hparse hresolve hcompile hn with ⟨digits, rfl⟩ | ⟨k, rfl⟩
  · exact Fraction.isReduced_readNumber digits
  · exact Fraction.isReduced_ofInt k

/-- **Numbers stay in lowest terms.** If the constants of a program are in lowest terms, then so is every number
in every state of every run, the last one included: on the stack, in the globals and in the calls in progress,
inside of collections and among their keys, and in the result. Programs of source texts are such programs.
About numbers in lowest terms the tests for integers are right, and equal ones are shown alike. -/
theorem lowest_terms :
    (∀ p : Program, p.Reduced → ∀ m, Machine.Reachable p m →
      m.Everywhere Value.Reduced ∧ m.step.2.Everywhere Value.Reduced ∧
        ∀ v, m.step.1 = .ok (.done v) → v.Reduced) ∧
    (∀ typecheck src p, compileSource typecheck src = .ok p → p.Reduced) ∧
    (∀ x : Fraction, x.IsReduced → x.Tested) ∧
    ∀ x y : Fraction, x.IsReduced → y.IsReduced → x.same y = true → x.display = y.display := by
  refine ⟨fun p hp m hm => ?_, fun _ _ _ => reduced_of_compileSource, fun x hx => hx.tested, ?_⟩
  · obtain ⟨hprogram, hreduced⟩ := Machine.reduced_of_reachable hp hm
    obtain ⟨hnext, hresult⟩ := Machine.reduced_step hprogram hp hreduced
    exact ⟨hreduced, hnext, hresult⟩
  · intro x y hx hy hsame
    rw [hx.eq_of_same hy hsame]

/-- Divides by a negative number and negates the quotient. -/
def sampleQuotient : Program where
  code := #[.push (.num (.ofInt 6)), .push (.num (.ofInt (-4))), .binary .div, .unary .neg, .halt]

theorem lowest_terms_quotient : sampleQuotient.Reduced ∧
    ∃ m, Machine.Reachable sampleQuotient m ∧ m.stack = [.num ⟨3, 2, by decide⟩] ∧
      m.Everywhere Value.Reduced := by
  obtain ⟨hstates, -⟩ := lowest_terms
  have hreduced : sampleQuotient.Reduced := by
    intro n hn
    simp only [sampleQuotient, List.mem_toArray, List.mem_cons, Instr.push.injEq, Literal.num.injEq,
      reduceCtorEq, List.not_mem_nil, or_false] at hn
    rcases hn with rfl | rfl <;> exact Fraction.isReduced_ofInt _
  have hm : ∃ m, Machine.Reachable sampleQuotient m ∧ m.stack = [.num ⟨3, 2, by decide⟩] :=
    ⟨_, ⟨{}, 4, .of_after rfl⟩, rfl⟩
  obtain ⟨m, hreach, hstack⟩ := hm
  exact ⟨hreduced, m, hreach, hstack, (hstates _ hreduced m hreach).1⟩

end Program

end ExactScript
