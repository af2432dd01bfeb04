import Mathlib.Algebra.Order.Field.Basic
import Mathlib.Algebra.Order.Ring.Rat
import Mathlib.Order.Compare
import Mathlib.Tactic.NormNum
import Mathlib.Tactic.Ring
import ExactScript.Proofs.LowestTerms

/-!
# Arithmetic is exact

Every operation on stored forms commutes with `Fraction.value`, so the operators on numbers compute what
the operations on the rational numbers give. Nothing is rounded, and what cannot be computed is refused: a
quotient by zero, a power whose exponent is not stored as an integer or is too large, a negative power of zero.

The order of stored forms compares denominators when the numerators are equal, and cross products otherwise.
With positive denominators both give the order of the values.

## Contents
* `Fraction.value_reduced` up to `Fraction.power_cases`, the values of results;
* `Fraction.order_eq_cmp`, the order;
* `BinaryOp.Computes`, `BinaryOp.apply_div`, `BinaryOp.apply_pow`, `BinaryOp.floor_division` and
  `BinaryOp.apply_comparison`, operator by operator;
* `BinaryOp.exact_arithmetic`, the theorem.
-/

namespace ExactScript

namespace Fraction

variable {x y z : Fraction}

/-! ## Values of results -/

theorem cast_den_ne_zero (x : Fraction) : (x.den : ℚ) ≠ 0 := Int.cast_ne_zero.mpr x.den_ne_zero

@[simp] theorem value_ofInt (n : Int) : (ofInt n).value = n := by
  rw [value, ofInt, Int.cast_one, div_one]

theorem value_eq_zero_iff : x.value = 0 ↔ x.num = 0 := by
  rw [value, div_eq_zero_iff, or_iff_left x.cast_den_ne_zero, Int.cast_eq_zero]

/-- The sign of the value is that of the numerator. -/
theorem value_neg_iff (hx : 0 < x.den) : x.value < 0 ↔ x.num < 0 := by
  rw [value, div_lt_iff₀ (Int.cast_pos.mpr hx), zero_mul, Int.cast_lt_zero]

/-- **Reducing keeps the value.** -/
theorem value_reduced (n : Int) {d : Int} (hd : d ≠ 0) : (reduced n d hd).value = n / d := by
  obtain ⟨a, ha⟩ := Int.gcd_dvd_left n d
  obtain ⟨b, hb⟩ := Int.gcd_dvd_right n d
  have hg : (Int.gcd n d : Int) ≠ 0 := fun h => hd (Int.gcd_eq_zero_iff.mp (Int.natCast_eq_zero.mp h)).2
  have hnum : (reduced n d hd).num = d.sign * a := by
    show d.sign * n / (Int.gcd n d : Int) = _
    rw [Int.mul_ediv_assoc _ (Int.gcd_dvd_left n d), Int.ediv_eq_of_eq_mul_right hg ha]
  have hden : (reduced n d hd).den = d.sign * b := by
    show ((d.natAbs / Int.gcd n d : Nat) : Int) = _
    rw [Int.natCast_ediv, ← Int.sign_mul_self_eq_natAbs, Int.mul_ediv_assoc _ (Int.gcd_dvd_right n d),
      Int.ediv_eq_of_eq_mul_right hg hb]
  have hcross : a * d = n * b := by
    calc a * d = a * (Int.gcd n d * b) := congrArg (a * ·) hb
      _ = Int.gcd n d * a * b := by ring
      _ = n * b := congrArg (· * b) ha.symm
  have hproducts : (reduced n d hd).num * d = n * (reduced n d hd).den := by
    rw [hnum, hden, mul_assoc, hcross]
    ring
  rw [value, div_eq_div_iff (cast_den_ne_zero _) (Int.cast_ne_zero.mpr hd)]
  exact_mod_cast hproducts

theorem value_add (x y : Fraction) : (x.add y).value = x.value + y.value := by
  rw [add, value_reduced, value, value, div_add_div _ _ x.cast_den_ne_zero y.cast_den_ne_zero]
  push_cast
  ring

theorem value_sub (x y : Fraction) : (x.sub y).value = x.value - y.value := by
  rw [sub, value_reduced, value, value, div_sub_div _ _ x.cast_den_ne_zero y.cast_den_ne_zero]
  push_cast
  ring

theorem value_mul (x y : Fraction) : (x.mul y).value = x.value * y.value := by
  rw [mul, value_reduced, value, value, div_mul_div_comm]
  push_cast
  rfl

/-- There is a quotient unless the divisor is zero. -/
theorem div?_cases (x y : Fraction) : (y.value = 0 ∧ x.div? y = none) ∨
    ∃ q, x.div? y = some q ∧ q.IsReduced ∧ y.value ≠ 0 ∧ q.value = x.value / y.value := by
  unfold div?
  split
  · next h => exact .inl ⟨value_eq_zero_iff.mpr h, rfl⟩
  · next h =>
    refine .inr ⟨_, rfl, isReduced_reduced _ _, mt value_eq_zero_iff.mp h, ?_⟩
    rw [value_reduced, value, value, div_div_div_eq]
    push_cast
    rfl

/-- There is a reciprocal unless the number is zero. -/
theorem recip?_cases (x : Fraction) : (x.value = 0 ∧ x.recip? = none) ∨
    ∃ y, x.recip? = some y ∧ x.value ≠ 0 ∧ y.value = x.value⁻¹ := by
  unfold recip?
  split
  · next h => exact .inl ⟨value_eq_zero_iff.mpr h, rfl⟩
  · next h =>
    have hx := mt value_eq_zero_iff.mp h
    split
    · exact .inr ⟨_, rfl, hx, (inv_div _ _).symm⟩
    · refine .inr ⟨_, rfl, hx, ?_⟩
      rw [value, value, inv_div]
      push_cast
      exact neg_div_neg_eq _ _

/-- Squaring halves the exponent. -/
theorem value_pow (x : Fraction) (n : Nat) : (x.pow n).value = x.value ^ n := by
  fun_induction Fraction.pow x n with
  | case1 => simp
  | case2 => rw [pow_one]
  | case3 n h₀ h₁ root heven ih =>
    rw [value_mul, ih, ← pow_add]
    congr 1
    omega
  | case4 n h₀ h₁ root hodd ih =>
    rw [value_mul, value_mul, ih, ← pow_add, ← pow_succ]
    congr 1
    omega

/-- What has a power, and which one. -/
theorem power_cases (x y : Fraction) :
    (∃ z, x.power y = .ok z ∧ (y.isInteger = true ∧ y.num.natAbs < wordSize ∧ ¬(x.value = 0 ∧ y.num < 0)) ∧
      z.value = x.value ^ y.num) ∨
    ∃ e, x.power y = .error e ∧ ¬(y.isInteger = true ∧ y.num.natAbs < wordSize ∧ ¬(x.value = 0 ∧ y.num < 0)) := by
  unfold power
  dsimp only
  split
  · next h =>
    refine .inr ⟨_, rfl, ?_⟩
    rintro ⟨hint, -⟩
    simp [hint] at h
  next hint =>
  replace hint : y.isInteger = true := by simpa using hint
  split
  · next h =>
    refine .inr ⟨_, rfl, ?_⟩
    rintro ⟨-, hlt, -⟩
    omega
  next hlt =>
  split
  · next hneg =>
    -- a negative exponent asks for the reciprocal of the power
    have hpower : (x.pow y.num.natAbs).value = (x.value ^ y.num)⁻¹ := by
      rw [value_pow, ← zpow_neg, ← zpow_natCast, Int.ofNat_natAbs_of_nonpos (Int.le_of_lt hneg)]
    have hzero : (x.pow y.num.natAbs).value = 0 ↔ x.value = 0 := by
      rw [value_pow, pow_eq_zero_iff (by omega)]
    rcases recip?_cases (x.pow y.num.natAbs) with ⟨h, hrecip⟩ | ⟨z, hrecip, h, hz⟩
    · rw [hrecip]
      refine .inr ⟨_, rfl, ?_⟩
      rintro ⟨-, -, hno⟩
      exact hno ⟨hzero.mp h, hneg⟩
    · rw [hrecip]
      refine .inl ⟨z, rfl, ⟨hint, by omega, fun hno => h (hzero.mpr hno.1)⟩, ?_⟩
      rw [hz, hpower, inv_inv]
  · next hpos =>
    refine .inl ⟨_, rfl, ⟨hint, by omega, fun hno => hpos hno.2⟩, ?_⟩
    rw [value_pow, ← zpow_natCast, Int.natAbs_of_nonneg (by omega)]

/-! ## The order -/

/-- With positive denominators, values are ordered as the cross products are. -/
theorem cmp_value (hx : 0 < x.den) (hy : 0 < y.den) :
    cmp x.value y.value = cmp (x.num * y.den) (y.num * x.den) := by
  have hpos : (0 : ℚ) < x.den * y.den := mul_pos (Int.cast_pos.mpr hx) (Int.cast_pos.mpr hy)
  have hleft : x.value * (x.den * y.den) = ((x.num * y.den : Int) : ℚ) := by
    rw [value, ← mul_assoc, div_mul_cancel₀ _ x.cast_den_ne_zero]
    push_cast
    rfl
  have hright : y.value * (x.den * y.den) = ((y.num * x.den : Int) : ℚ) := by
    rw [value, mul_comm (x.den : ℚ), ← mul_assoc, div_mul_cancel₀ _ y.cast_den_ne_zero]
    push_cast
    rfl
  rw [← cmp_mul_pos_right hpos, hleft, hright, Int.cast_strictMono.cmp_map_eq]

/-- **The order is that of the values**, for positive denominators. -/
theorem order_eq_cmp (hx : 0 < x.den) (hy : 0 < y.den) : x.order y = cmp x.value y.value := by
  rw [cmp_value hx hy, order]
  by_cases h : x.num = y.num
  · rw [if_pos h, ← h]
    by_cases hpos : 0 < x.num
    · rw [if_pos hpos, cmp_mul_pos_left hpos, cmp_eq_compare]
    · rw [if_neg hpos]
      by_cases hneg : x.num < 0
      · rw [if_pos hneg, cmp_mul_neg_left hneg, cmp_eq_compare]
      · have hzero : x.num = 0 := by omega
        rw [if_neg hneg, hzero, zero_mul, zero_mul, cmp_self_eq_eq]
  · have hsign : (x.den * y.den).sign = 1 := Int.sign_eq_one_of_pos (Int.mul_pos hx hy)
    rw [if_neg h]
    show compare ((x.den * y.den).sign * _) ((x.den * y.den).sign * _) = _
    rw [hsign, one_mul, one_mul, cmp_eq_compare]

end Fraction

/-! ## Operators -/

/-- What the remainder of a floor division is like: zero or of the sign of the divisor, and smaller. -/
theorem fmod_bounds (i : Int) {j : Int} (hj : j ≠ 0) :
    (i.fmod j = 0 ∨ (0 < i.fmod j ↔ 0 < j)) ∧ |i.fmod j| < |j| := by
  rcases Int.lt_or_gt_of_ne hj with hneg | hpos
  · -- the remainder changes its sign with both operands
    have hnonneg := Int.fmod_nonneg_of_pos (-i) (Int.neg_pos.mpr hneg)
    have hlt := Int.fmod_lt_of_pos (-i) (Int.neg_pos.mpr hneg)
    rw [Int.neg_fmod_neg] at hnonneg hlt
    rw [abs_of_nonpos (by omega), abs_of_neg hneg]
    omega
  · have hnonneg := Int.fmod_nonneg_of_pos i hpos
    have hlt := Int.fmod_lt_of_pos i hpos
    rw [abs_of_nonneg hnonneg, abs_of_pos hpos]
    omega

namespace BinaryOp

variable {x y : Fraction}

/-- The operator has this result, in lowest terms. -/
def Computes (op : BinaryOp) (x y : Fraction) (q : ℚ) : Prop :=
  ∃ z : Fraction, op.apply (.num x) (.num y) = .ok (.num z) ∧ z.IsReduced ∧ z.value = q

theorem integers_eq (op : BinaryOp) (hx : x.isInteger = true) (hy : y.isInteger = true) :
    op.integers (.num x) (.num y) = .ok (x.num, y.num) := by
  show (if !x.isInteger then _ else if !y.isInteger then _ else _) = _
  rw [hx, hy]
  rfl

theorem value_of_isInteger (hx : x.isInteger = true) : x.value = x.num := by
  rw [Fraction.eq_ofInt hx, Fraction.value_ofInt]
  rfl

/-- **Quotients.** -/
theorem apply_div (x y : Fraction) : (y.value ≠ 0 → div.Computes x y (x.value / y.value)) ∧
    (div.apply (.num x) (.num y) = .error .divisionByZero ↔ y.value = 0) := by
  rcases x.div?_cases y with ⟨hzero, hnone⟩ | ⟨q, hsome, hreduced, hzero, hq⟩
  · have hdiv : div.apply (.num x) (.num y) = .error .divisionByZero := by
      simp only [apply, numbers, bind, Except.bind, hnone]
    rw [hdiv]
    exact ⟨fun h => absurd hzero h, iff_of_true rfl hzero⟩
  · have hdiv : div.apply (.num x) (.num y) = .ok (.num q) := by
      simp only [apply, numbers, bind, Except.bind, hsome]
      rfl
    rw [hdiv]
    refine ⟨fun _ => ⟨q, hdiv, hreduced, hq⟩, iff_of_false ?_ hzero⟩
    rintro ⟨⟩

/-- **Powers.** -/
theorem apply_pow (x y : Fraction) :
    ((∃ v, pow.apply (.num x) (.num y) = .ok v) ↔
      y.isInteger = true ∧ y.num.natAbs < wordSize ∧ ¬(x.value = 0 ∧ y.num < 0)) ∧
    ∀ v, pow.apply (.num x) (.num y) = .ok v → ∃ z : Fraction, v = .num z ∧ z.value = x.value ^ y.num := by
  have hpow : pow.apply (.num x) (.num y) = (do return .num (← x.power y)) := rfl
  rcases x.power_cases y with ⟨z, hz, hexists, hvalue⟩ | ⟨e, he, hno⟩
  · rw [hpow, hz]
    refine ⟨iff_of_true ⟨_, rfl⟩ hexists, ?_⟩
    rintro v ⟨⟩
    exact ⟨z, rfl, hvalue⟩
  · rw [hpow, he]
    refine ⟨iff_of_false ?_ hno, ?_⟩
    · rintro ⟨v, ⟨⟩⟩
    · rintro v ⟨⟩

/-- **Floor division and remainder** of what is stored as integers. -/
theorem floor_division (hx : x.isInteger = true) (hy : y.isInteger = true) (hzero : y.value ≠ 0) : ∃ q r : Int,
    floorDiv.apply (.num x) (.num y) = .ok (.num (.ofInt q)) ∧
    rem.apply (.num x) (.num y) = .ok (.num (.ofInt r)) ∧
    x.value = q * y.value + r ∧ (r = 0 ∨ (0 < r ↔ 0 < y.value)) ∧ |(r : ℚ)| < |y.value| := by
  have hne : y.num ≠ 0 := mt Fraction.value_eq_zero_iff.mpr hzero
  obtain ⟨hsign, hlt⟩ := fmod_bounds x.num hne
  refine ⟨x.num.fdiv y.num, x.num.fmod y.num, ?_, ?_, ?_, ?_, ?_⟩
  · show (floorDiv.integers (.num x) (.num y) >>= _) = _
    rw [integers_eq _ hx hy]
    exact if_neg hne
  · show (rem.integers (.num x) (.num y) >>= _) = _
    rw [integers_eq _ hx hy]
    exact if_neg hne
  · rw [value_of_isInteger hx, value_of_isInteger hy]
    have hlaw := Int.mul_fdiv_add_fmod x.num y.num
    rw [mul_comm] at hlaw
    exact_mod_cast hlaw.symm
  · rwa [value_of_isInteger hy, Int.cast_pos]
  · rw [value_of_isInteger hy]
    exact_mod_cast hlt

/-- **Comparisons** of numbers with positive denominators. -/
theorem apply_comparison (hx : 0 < x.den) (hy : 0 < y.den) :
    lt.apply (.num x) (.num y) = .ok (.bool (decide (x.value < y.value))) ∧
    le.apply (.num x) (.num y) = .ok (.bool (decide (x.value ≤ y.value))) ∧
    gt.apply (.num x) (.num y) = .ok (.bool (decide (x.value > y.value))) ∧
    ge.apply (.num x) (.num y) = .ok (.bool (decide (x.value ≥ y.value))) ∧
    eq.apply (.num x) (.num y) = .ok (.bool (decide (x.value = y.value))) ∧
    ne.apply (.num x) (.num y) = .ok (.bool (decide (x.value ≠ y.value))) := by
  have horder := Fraction.order_eq_cmp hx hy
  have hlt : (x.order y == .lt) = decide (x.value < y.value) := by
    rw [Bool.eq_iff_iff, beq_iff_eq, decide_eq_true_iff, horder, cmp_eq_lt_iff]
  have hle : (x.order y != .gt) = decide (x.value ≤ y.value) := by
    rw [Bool.eq_iff_iff, bne_iff_ne, decide_eq_true_iff, horder, ne_eq, cmp_eq_gt_iff, not_lt]
  have hgt : (x.order y == .gt) = decide (x.value > y.value) := by
    rw [Bool.eq_iff_iff, beq_iff_eq, decide_eq_true_iff, horder, cmp_eq_gt_iff]
  have hge : (x.order y != .lt) = decide (x.value ≥ y.value) := by
    rw [Bool.eq_iff_iff, bne_iff_ne, decide_eq_true_iff, horder, ne_eq, cmp_eq_lt_iff, not_lt]
  have heq : x.same y = decide (x.value = y.value) := by
    rw [Bool.eq_iff_iff, Fraction.same_iff_value, decide_eq_true_iff]
  have hne : (!x.same y) = decide (x.value ≠ y.value) := by rw [heq, decide_not]
  rw [← hlt, ← hle, ← hgt, ← hge, ← heq, ← hne]
  exact ⟨rfl, rfl, rfl, rfl, rfl, rfl⟩

/-- Of three comparisons, exactly one holds. -/
theorem exists_unique_comparison (hx : 0 < x.den) (hy : 0 < y.den) :
    ∃! op, op ∈ [lt, eq, gt] ∧ op.apply (.num x) (.num y) = .ok (.bool true) := by
  obtain ⟨hlt, -, hgt, -, heq, -⟩ := apply_comparison hx hy
  have hholds : ∀ op ∈ [lt, eq, gt], op.apply (.num x) (.num y) = .ok (.bool true) ↔
      op = lt ∧ x.value < y.value ∨ op = eq ∧ x.value = y.value ∨ op = gt ∧ x.value > y.value := by
    simp [hlt, heq, hgt]
  have hone : ∀ op ∈ [lt, eq, gt], (∀ op' ∈ [lt, eq, gt], op'.apply (.num x) (.num y) = .ok (.bool true) ↔
      op' = op) → ∃! op', op' ∈ [lt, eq, gt] ∧ op'.apply (.num x) (.num y) = .ok (.bool true) := by
    intro op hop h
    refine ⟨op, ⟨hop, (h op hop).mpr rfl⟩, ?_⟩
    rintro op' ⟨hop', happly⟩
    exact (h op' hop').mp happly
  rcases lt_trichotomy x.value y.value with h | h | h
  · refine hone lt (by simp) fun op hop => (hholds op hop).trans ?_
    simp [h, h.ne, h.not_gt]
  · refine hone eq (by simp) fun op hop => (hholds op hop).trans ?_
    simp [h]
  · refine hone gt (by simp) fun op hop => (hholds op hop).trans ?_
    simp [h, h.ne', h.not_gt]

/-- **Arithmetic is exact** on numbers in any stored form with a positive denominator. Sums, differences,
products and quotients are in lowest terms, and only a quotient by zero fails. A power exists if and only if
the exponent is stored as an integer, has the magnitude of a machine word and is not negative for a base that
is zero. Floor division and remainder, of what is stored as integers, give the dividend back, with a remainder
that is zero or of the sign of the divisor and smaller than it. Comparisons are those of the values, of which
exactly one of `<`, `==` and `>` holds. -/
theorem exact_arithmetic (hx : 0 < x.den) (hy : 0 < y.den) :
    (add.Computes x y (x.value + y.value) ∧ sub.Computes x y (x.value - y.value) ∧
      mul.Computes x y (x.value * y.value)) ∧
    ((y.value ≠ 0 → div.Computes x y (x.value / y.value)) ∧
      (div.apply (.num x) (.num y) = .error .divisionByZero ↔ y.value = 0)) ∧
    (((∃ v, pow.apply (.num x) (.num y) = .ok v) ↔
        y.isInteger = true ∧ y.num.natAbs < wordSize ∧ ¬(x.value = 0 ∧ y.value < 0)) ∧
      ∀ v, pow.apply (.num x) (.num y) = .ok v → ∃ z : Fraction, v = .num z ∧ z.value = x.value ^ y.num) ∧
    (x.isInteger = true → y.isInteger = true → y.value ≠ 0 → ∃ q r : Int,
      floorDiv.apply (.num x) (.num y) = .ok (.num (.ofInt q)) ∧
      rem.apply (.num x) (.num y) = .ok (.num (.ofInt r)) ∧
      x.value = q * y.value + r ∧ (r = 0 ∨ (0 < r ↔ 0 < y.value)) ∧ |(r : ℚ)| < |y.value|) ∧
    (lt.apply (.num x) (.num y) = .ok (.bool (decide (x.value < y.value))) ∧
      le.apply (.num x) (.num y) = .ok (.bool (decide (x.value ≤ y.value))) ∧
      gt.apply (.num x) (.num y) = .ok (.bool (decide (x.value > y.value))) ∧
      ge.apply (.num x) (.num y) = .ok (.bool (decide (x.value ≥ y.value))) ∧
      eq.apply (.num x) (.num y) = .ok (.bool (decide (x.value = y.value))) ∧
      ne.apply (.num x) (.num y) = .ok (.bool (decide (x.value ≠ y.value)))) ∧
    ∃! op, op ∈ [lt, eq, gt] ∧ op.apply (.num x) (.num y) = .ok (.bool true) := by
  have hadd : add.Computes x y (x.value + y.value) := ⟨_, rfl, Fraction.isReduced_reduced _ _, x.value_add y⟩
  have hsub : sub.Computes x y (x.value - y.value) := ⟨_, rfl, Fraction.isReduced_reduced _ _, x.value_sub y⟩
  have hmul : mul.Computes x y (x.value * y.value) := ⟨_, rfl, Fraction.isReduced_reduced _ _, x.value_mul y⟩
  refine ⟨⟨hadd, hsub, hmul⟩, apply_div x y, ?_, floor_division, apply_comparison hx hy,
    exists_unique_comparison hx hy⟩
  rw [Fraction.value_neg_iff hy]
  exact apply_pow x y

/-- A half that is not in lowest terms, to a negative power. -/
theorem exact_arithmetic_half : ∃ x y : Fraction, x.num = 2 ∧ x.den = 4 ∧ y = .ofInt (-3) ∧
    add.Computes x y (-5 / 2) ∧ ∃ z : Fraction, pow.apply (.num x) (.num y) = .ok (.num z) ∧ z.value = 8 := by
  obtain ⟨⟨hsum, -⟩, -, ⟨hexists, hvalue⟩, -⟩ :=
    exact_arithmetic (x := ⟨2, 4, by decide⟩) (y := .ofInt (-3)) (by decide) (by decide)
  refine ⟨⟨2, 4, by decide⟩, .ofInt (-3), rfl, rfl, rfl, ?_, ?_⟩
  · convert hsum using 1
    norm_num [Fraction.value, Fraction.ofInt]
  · have hhalf : (⟨2, 4, by decide⟩ : Fraction).value = 1 / 2 := by norm_num [Fraction.value]
    have hne : (⟨2, 4, by decide⟩ : Fraction).value ≠ 0 := by norm_num [hhalf]
    obtain ⟨v, hv⟩ := hexists.mpr ⟨rfl, by decide, fun hzero => hne hzero.1⟩
    obtain ⟨z, rfl, hz⟩ := hvalue v hv
    refine ⟨z, hv, ?_⟩
    rw [hz, hhalf]
    norm_num [Fraction.ofInt]

end BinaryOp

end ExactScript
