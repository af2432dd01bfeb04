import ExactScript.Proofs.LowestTerms

/-!
# Slices

Which characters a slice takes is said by three numbers. The bounds are counted from the end when they are
negative and brought to the nearest position of a range: from 0 to the length for positive steps, and one place
lower at both ends for negative ones. From the first position on, every step-th character is taken as long as
its position comes before the last one in the direction of the step. All of these positions are in the text.

The number of characters is computed by a division. The same characters are found by a walk that goes on step
by step in signed machine words: there no sum overflows, other than the one after the last position of the
slice, and that ends the walk.

## Contents
* `Slice.Adjusted`, `Slice.Picks`: what a slice is; `Slice.Picks.unique`, and `Slice.picks_sliceChars`;
* `Slice.picks_between` and `Slice.picks_reverse`, the slices that are parts of a text or its reverse;
* `Slice.walk` and `Slice.inWords`, the walk in machine words, with `Slice.inWords_eq`;
* `Slice.Refused` and `Slice.Complaint`, what is wrong with the operands;
* `Value.slice_append`, `Value.slice_one` and `Value.slice_backwards`, what follows for texts;
* `Value.slice_positions`, the theorem.
-/

namespace ExactScript

namespace Slice

/-! ## Positions -/

/-- A bound counted from the end, if it is negative. -/
def counted (length : Nat) (bound : Int) : Int := if bound < 0 then bound + length else bound

/-- The number of a range that is the nearest to `i`. -/
structure Nearest (lowest highest i p : Int) : Prop where
  lowest_le : lowest ≤ p
  le_highest : p ≤ highest
  eq : p = i ∨ i < lowest ∧ p = lowest ∨ highest < i ∧ p = highest

/-- The position that a bound stands for in a text of this length. -/
structure Adjusted (length : Nat) (step bound p : Int) : Prop where
  forward : 0 < step → Nearest 0 length (counted length bound) p
  backward : step < 0 → Nearest (-1) (length - 1) (counted length bound) p

/-- `i` comes before `stop` in the direction of the step. -/
def Before (step stop i : Int) : Prop := 0 < step ∧ i < stop ∨ step < 0 ∧ stop < i

instance (step stop i : Int) : Decidable (Before step stop i) :=
  inferInstanceAs (Decidable (0 < step ∧ i < stop ∨ step < 0 ∧ stop < i))

/-- The characters at the positions `first`, `first + step`, … that come before `last`. -/
structure Picks (cs : List Char) (first last step : Int) (picked : List Char) : Prop where
  before : ∀ k : Nat, k < picked.length ↔ Before step last (first + step * k)
  inside : ∀ k : Nat, k < picked.length → 0 ≤ first + step * k ∧ first + step * k < cs.length
  chars : ∀ k : Nat, k < picked.length → picked[k]? = cs[(first + step * k).toNat]?

variable {cs picked picked' : List Char} {length : Nat} {first last step bound stop i p : Int}

/-- The characters are determined. -/
theorem Picks.unique (h : Picks cs first last step picked) (h' : Picks cs first last step picked') :
    picked = picked' := by
  have hlength : picked.length = picked'.length := by
    have h₁ := (h.before picked'.length).trans (h'.before picked'.length).symm
    have h₂ := (h.before picked.length).trans (h'.before picked.length).symm
    omega
  apply List.ext_getElem?
  intro k
  by_cases hk : k < picked.length
  · rw [h.chars k hk, h'.chars k (hlength ▸ hk)]
  · rw [List.getElem?_eq_none (by omega), List.getElem?_eq_none (by omega)]

theorem adjusted_clampBound (length : Nat) (step bound : Int) :
    Adjusted length step bound (Value.clampBound length step bound) where
  forward h := by
    rw [show Value.clampBound length step bound = max 0 (min (counted length bound) length) from if_pos h]
    constructor <;> omega
  backward h := by
    rw [show Value.clampBound length step bound = max (-1) (min (counted length bound) (length - 1)) from
      if_neg (by omega)]
    constructor <;> omega

/-- The positions of a slice are in the text. -/
theorem Adjusted.inside {start stop : Int} (hfirst : Adjusted length step start first)
    (hlast : Adjusted length step stop last) {k : Nat} (h : Before step last (first + step * k)) :
    0 ≤ first + step * k ∧ first + step * k < length := by
  rcases h with ⟨hpos, hlt⟩ | ⟨hneg, hlt⟩
  · have := (hfirst.forward hpos).lowest_le
    have := (hlast.forward hpos).le_highest
    have := Int.mul_nonneg (Int.le_of_lt hpos) (Int.natCast_nonneg k)
    omega
  · have := (hfirst.backward hneg).le_highest
    have := (hlast.backward hneg).lowest_le
    have := Int.mul_nonpos_of_nonpos_of_nonneg (Int.le_of_lt hneg) (Int.natCast_nonneg k)
    omega

/-- **How many positions there are.** The quotient is rounded up. -/
theorem lt_sliceCount_iff (hstep : step ≠ 0) (k : Nat) :
    k < Value.sliceCount first last step ↔ Before step last (first + step * k) := by
  have hceil : ∀ {d c : Int}, 0 < c → (k < ((d + c - 1) / c).toNat ↔ c * k < d) := by
    intro d c hc
    rw [← Int.ofNat_lt, Int.toNat_eq_max]
    have hle := Int.le_ediv_iff_mul_le (a := (k : Int) + 1) (b := d + c - 1) hc
    rw [Int.add_mul, Int.one_mul, Int.mul_comm] at hle
    omega
  unfold Value.sliceCount Before
  split
  · next hpos =>
    rw [hceil hpos]
    omega
  · next hneg =>
    have hback := hceil (d := first - last) (c := -step) (by omega)
    rw [Int.neg_mul] at hback
    rw [show first - last - step - 1 = first - last + -step - 1 by omega, hback]
    omega

/-- What is found at every number is kept at its place. -/
theorem filterMap_range {α : Type} {f : Nat → Option α} {n : Nat} (h : ∀ k < n, (f k).isSome) :
    ((List.range n).filterMap f).length = n ∧ ∀ k < n, ((List.range n).filterMap f)[k]? = f k := by
  induction n with
  | zero => exact ⟨rfl, fun k hk => nomatch hk⟩
  | succ n ih =>
    obtain ⟨hlength, hget⟩ := ih fun k hk => h k (by omega)
    obtain ⟨a, ha⟩ := Option.isSome_iff_exists.mp (h n (by omega))
    have hsucc : (List.range (n + 1)).filterMap f = (List.range n).filterMap f ++ [a] := by
      rw [List.range_succ, List.filterMap_append]
      simp [ha]
    rw [hsucc, List.length_append, hlength]
    refine ⟨rfl, ?_⟩
    intro k hk
    by_cases hkn : k = n
    · subst hkn
      rw [List.getElem?_append_right (by omega), hlength, Nat.sub_self, ha]
      rfl
    · rw [List.getElem?_append_left (by omega), hget k (by omega)]

/-- **The characters of a slice** are those at its positions. -/
theorem picks_sliceChars (cs : List Char) (hstep : step ≠ 0) (start stop : Int) :
    Picks cs (Value.clampBound cs.length step start) (Value.clampBound cs.length step stop) step
      (Value.sliceChars cs.toArray start stop step) := by
  have hfirst := adjusted_clampBound cs.length step start
  have hlast := adjusted_clampBound cs.length step stop
  have hcount : ∀ k : Nat, _ ↔ Before step (Value.clampBound cs.length step stop)
      (Value.clampBound cs.length step start + step * k) := lt_sliceCount_iff hstep
  have hinside := fun k hk => hfirst.inside hlast ((hcount k).mp hk)
  -- no position is out of range, so none is left out
  have hsome : ∀ k < Value.sliceCount (Value.clampBound cs.length step start)
      (Value.clampBound cs.length step stop) step,
      (cs.toArray[(Value.clampBound cs.length step start + step * k).toNat]?).isSome := by
    intro k hk
    have hrange := hinside k hk
    rw [Array.getElem?_eq_getElem (by rw [List.size_toArray]; omega)]
    rfl
  obtain ⟨hlength, hget⟩ := filterMap_range hsome
  constructor
  case before =>
    intro k
    rw [← hcount k]
    exact iff_of_eq (congrArg (k < ·) hlength)
  case inside =>
    intro k hk
    exact hinside k (hlength ▸ hk)
  case chars =>
    intro k hk
    exact (hget k (hlength ▸ hk)).trans List.getElem?_toArray

/-- Step by step of one, a part of the text. -/
theorem picks_between {first last : Nat} (hle : first ≤ last) (hlast : last ≤ cs.length) :
    Picks cs first last 1 ((cs.drop first).take (last - first)) := by
  have hlength : ((cs.drop first).take (last - first)).length = last - first := by
    rw [List.length_take, List.length_drop]
    omega
  constructor
  case before =>
    intro k
    rw [hlength]
    unfold Before
    omega
  case inside =>
    intro k hk
    rw [hlength] at hk
    omega
  case chars =>
    intro k hk
    rw [hlength] at hk
    rw [List.getElem?_take_of_lt hk, List.getElem?_drop]
    congr 1
    omega

/-- Backwards from the last position, the whole text. -/
theorem picks_reverse (cs : List Char) : Picks cs (cs.length - 1) (-1) (-1) cs.reverse := by
  constructor
  case before =>
    intro k
    rw [List.length_reverse]
    unfold Before
    omega
  case inside =>
    intro k hk
    rw [List.length_reverse] at hk
    omega
  case chars =>
    intro k hk
    rw [List.length_reverse] at hk
    rw [List.getElem?_reverse hk]
    congr 1
    omega

/-! ## In machine words -/

/-- A signed machine word. -/
def IsWord (i : Int) : Prop := -0x8000000000000000 ≤ i ∧ i < 0x8000000000000000

instance (i : Int) : Decidable (IsWord i) :=
  inferInstanceAs (Decidable (-0x8000000000000000 ≤ i ∧ i < 0x8000000000000000))

/-- The sum of two signed machine words, unless it overflows. -/
def addWords (i j : Int) : Option Int := if IsWord (i + j) then some (i + j) else none

/-- The character at a position, unless the position is out of range. -/
def charAt (cs : List Char) (i : Int) : Option Char := if 0 ≤ i then cs[i.toNat]? else none

theorem addWords_eq {j : Int} (h : IsWord (i + j)) : addWords i j = some (i + j) := if_pos h

/-- The walk from position `i` on. It fails at a position that is out of range; after a position from which the
next one overflows it is at its end. -/
def walk (cs : List Char) (stop step i : Int) : Option (List Char) :=
  if Before step stop i then
    match charAt cs i with
    | none => none
    | some c => if IsWord (i + step) then (walk cs stop step (i + step)).map (c :: ·) else some [c]
  else some []
termination_by (if 0 < step then stop - i else i - stop).toNat
decreasing_by
  unfold Before at *
  split <;> omega

/-- A bound counted from the end, if it is negative. -/
def countedWords (length bound : Int) : Option Int :=
  if bound < 0 then addWords bound length else some bound

/-- The adjustment of a bound. It fails at an overflow. -/
def adjustWords (length step bound : Int) : Option Int := do
  let i ← countedWords length bound
  if 0 < step then return max 0 (min i length)
  else
    let highest ← addWords length (-1)
    return max (-1) (min i highest)

/-- The characters of a slice, found by a walk from its first position on. -/
def inWords (cs : List Char) (start stop step : Int) : Option (List Char) := do
  let first ← adjustWords cs.length step start
  let last ← adjustWords cs.length step stop
  walk cs last step first

/-- Adjusting a bound does not overflow. -/
theorem adjustWords_eq (hlength : IsWord length) (hbound : IsWord bound) :
    adjustWords length step bound = some (Value.clampBound length step bound) := by
  have hcounted : countedWords length bound = some (counted length bound) := by
    unfold countedWords counted
    split
    · exact addWords_eq (by unfold IsWord at *; omega)
    · rfl
  have hhighest : addWords length (-1) = some (length - 1 : Int) := addWords_eq (by unfold IsWord at *; omega)
  rw [adjustWords, hcounted, hhighest]
  show (if 0 < step then _ else _) = some (if 0 < step then _ else _)
  split <;> rfl

/-- **The walk finds the characters of the slice.** It does not leave the text, and where it has to stop because
the next position overflows, that position is none of the slice. -/
theorem walk_eq (h : Picks cs i stop step picked) (hlength : IsWord cs.length) (hstop : IsWord stop) :
    walk cs stop step i = some picked := by
  induction picked generalizing i with
  | nil =>
    have hend : ¬Before step stop i := by simpa using h.before 0
    rw [walk, if_neg hend]
  | cons c picked ih =>
    have hbefore : Before step stop i := by simpa using h.before 0
    have hinside : 0 ≤ i ∧ i < cs.length := by simpa using h.inside 0
    have hchar : charAt cs i = some c := by
      rw [charAt, if_pos hinside.1]
      simpa using (h.chars 0 (by simp)).symm
    -- the rest of the slice is the slice from the next position on
    have hrest : Picks cs (i + step) stop step picked := by
      have hshift : ∀ k : Nat, i + step + step * k = i + step * (k + 1 : Nat) := by
        intro k
        rw [Int.natCast_succ, Int.mul_add, Int.mul_one]
        omega
      constructor
      case before =>
        intro k
        rw [hshift, ← h.before (k + 1), List.length_cons]
        omega
      case inside =>
        intro k hk
        rw [hshift]
        exact h.inside (k + 1) (by simpa using hk)
      case chars =>
        intro k hk
        rw [hshift, ← h.chars (k + 1) (by simpa using hk), List.getElem?_cons_succ]
    rw [walk, if_pos hbefore, hchar]
    dsimp only
    split
    · rw [ih hrest]
      rfl
    · next hoverflow =>
      -- the last position is a machine word, and the next one is past all of them
      have hend : ¬Before step stop (i + step) := by
        unfold IsWord at *
        unfold Before at *
        omega
      have hnil : picked = [] := by
        refine List.eq_nil_iff_length_eq_zero.mpr (Nat.eq_zero_of_not_pos fun hpos => hend ?_)
        simpa using (hrest.before 0).mp hpos
      rw [hnil]

/-- **A slice in machine words** is the slice. -/
theorem inWords_eq (hlength : IsWord cs.length) {start stop : Int} (hstart : IsWord start) (hstop : IsWord stop)
    (hstep : step ≠ 0) : inWords cs start stop step = some (Value.sliceChars cs.toArray start stop step) := by
  have hlast : IsWord (Value.clampBound cs.length step stop) := by
    have hadjusted := adjusted_clampBound cs.length step stop
    unfold IsWord at *
    rcases Int.lt_or_gt_of_ne hstep with hneg | hpos
    · have := (hadjusted.backward hneg).lowest_le
      have := (hadjusted.backward hneg).le_highest
      omega
    · have := (hadjusted.forward hpos).lowest_le
      have := (hadjusted.forward hpos).le_highest
      omega
  rw [inWords, adjustWords_eq hlength hstart, adjustWords_eq hlength hstop]
  exact walk_eq (picks_sliceChars cs hstep start stop) hlength hlast

/-! ## Operands -/

/-- A value that is no bound or step of a slice, and what is said about it. -/
inductive Refused : Value → RunError → Prop
  | notInteger {v : Value} (h : ∀ i, v ≠ .num (.ofInt i)) : Refused v (.mismatch "STR_SLICE" "integer" v)
  | tooLarge {i : Int} (h : ¬IsWord i) :
    Refused (.num (.ofInt i)) (.unsupported "STR_SLICE" (.boundTooLarge (.ofInt i)))

theorem sliceBound_of_isWord (h : IsWord i) : (Value.num (.ofInt i)).sliceBound = .ok i := by
  have hword : (Fraction.ofInt i).toInt64? = some i := Fraction.toInt64?_eq_some_iff.mpr ⟨rfl, h⟩
  simp only [Value.sliceBound, hword]
  exact if_pos rfl

theorem sliceBound_of_refused {v : Value} {e : RunError} (h : Refused v e) : v.sliceBound = .error e := by
  cases h with
  | notInteger h =>
    unfold Value.sliceBound
    split
    · next x =>
      have hx : ¬x.isInteger = true := fun hx => h x.num (congrArg Value.num (Fraction.eq_ofInt hx))
      rw [if_neg hx]
    · rfl
  | @tooLarge i h =>
    have hword : (Fraction.ofInt i).toInt64? = none := by
      refine Option.eq_none_iff_forall_ne_some.mpr fun j hj => h ?_
      obtain ⟨rfl, hj⟩ := Fraction.toInt64?_eq_some_iff.mp hj
      exact hj
    simp only [Value.sliceBound, hword]
    exact if_pos rfl

/-- The value is a signed machine word, stored as an integer. -/
def IsBound (v : Value) : Prop := ∃ i, IsWord i ∧ v = .num (.ofInt i)

/-- Every value is a bound or refused. -/
theorem bound_or_refused (v : Value) : IsBound v ∨ ∃ e, Refused v e := by
  by_cases hint : ∃ i, v = .num (.ofInt i)
  · obtain ⟨i, rfl⟩ := hint
    by_cases hword : IsWord i
    · exact .inl ⟨i, hword, rfl⟩
    · exact .inr ⟨_, .tooLarge hword⟩
  · exact .inr ⟨_, .notInteger (not_exists.mp hint)⟩

/-- What is said about the operands of a slice: the first of them that is refused, or else a step of zero. -/
inductive Complaint : (start stop step : Value) → RunError → Prop
  | start {u v w : Value} {e : RunError} (h : Refused u e) : Complaint u v w e
  | stop {u v w : Value} {e : RunError} (hu : IsBound u) (h : Refused v e) : Complaint u v w e
  | step {u v w : Value} {e : RunError} (hu : IsBound u) (hv : IsBound v) (h : Refused w e) : Complaint u v w e
  | zero {u v : Value} (hu : IsBound u) (hv : IsBound v) :
    Complaint u v (.num (.ofInt 0)) (.unsupported "STR_SLICE" .zeroStep)

/-- Either there is something to say about the operands, or they are bounds and a step that is not zero. -/
theorem words_or_complaint (u v w : Value) :
    (∃ a b c, IsWord a ∧ IsWord b ∧ IsWord c ∧ c ≠ 0 ∧ u = .num (.ofInt a) ∧ v = .num (.ofInt b) ∧
      w = .num (.ofInt c)) ∨ ∃ e, Complaint u v w e := by
  rcases bound_or_refused u with hu | ⟨e, hu⟩
  · rcases bound_or_refused v with hv | ⟨e, hv⟩
    · rcases bound_or_refused w with ⟨c, hc, rfl⟩ | ⟨e, hw⟩
      · by_cases hzero : c = 0
        · subst hzero
          exact .inr ⟨_, .zero hu hv⟩
        · obtain ⟨a, ha, rfl⟩ := hu
          obtain ⟨b, hb, rfl⟩ := hv
          exact .inl ⟨a, b, c, ha, hb, hc, hzero, rfl, rfl, rfl⟩
      · exact .inr ⟨e, .step hu hv hw⟩
    · exact .inr ⟨e, .stop hu hv⟩
  · exact .inr ⟨e, .start hu⟩

end Slice

namespace Value

open Slice

variable {s : String} {u v w : Value} {a b c i : Int} {picked : List Char} {e : RunError}

/-- Adjusted bounds are determined. -/
theorem clampBound_of_adjusted {length : Nat} {bound p : Int} (hc : c ≠ 0) (h : Adjusted length c bound p) :
    clampBound length c bound = p := by
  have hclamp := adjusted_clampBound length c bound
  rcases Int.lt_or_gt_of_ne hc with hneg | hpos
  · obtain ⟨_, _, _⟩ := hclamp.backward hneg
    obtain ⟨_, _, _⟩ := h.backward hneg
    omega
  · obtain ⟨_, _, _⟩ := hclamp.forward hpos
    obtain ⟨_, _, _⟩ := h.forward hpos
    omega

theorem slice_of_words (s : String) (ha : IsWord a) (hb : IsWord b) (hc : IsWord c) (hzero : c ≠ 0) :
    slice s (.num (.ofInt a)) (.num (.ofInt b)) (.num (.ofInt c)) =
      .ok (.str (String.ofList (sliceChars s.toList.toArray a b c))) := by
  rw [slice, sliceBound_of_isWord ha, sliceBound_of_isWord hb, sliceBound_of_isWord hc]
  exact if_neg hzero

/-- A slice is what its adjusted bounds and its step say. -/
theorem slice_of_picks {first last : Int} (ha : IsWord a) (hb : IsWord b) (hc : IsWord c) (hzero : c ≠ 0)
    (hfirst : Adjusted s.length c a first) (hlast : Adjusted s.length c b last)
    (h : Picks s.toList first last c picked) :
    slice s (.num (.ofInt a)) (.num (.ofInt b)) (.num (.ofInt c)) = .ok (.str (String.ofList picked)) := by
  have hpicks := picks_sliceChars s.toList hzero a b
  rw [String.length_toList, clampBound_of_adjusted hzero hfirst, clampBound_of_adjusted hzero hlast] at hpicks
  rw [slice_of_words s ha hb hc hzero, hpicks.unique h]

/-- A slice from one position to another, character by character. -/
theorem slice_between {first last : Nat} (hle : first ≤ last) (hlast : last ≤ s.length) (hlength : IsWord s.length) :
    slice s (.num (.ofInt first)) (.num (.ofInt last)) (.num (.ofInt 1)) =
      .ok (.str (String.ofList ((s.toList.drop first).take (last - first)))) := by
  have hadjusted : ∀ n : Nat, n ≤ s.length → Adjusted s.length 1 n n := by
    intro n hn
    constructor
    case forward =>
      intro _
      rw [show counted s.length n = n from if_neg (by omega)]
      constructor <;> omega
    case backward =>
      intro h
      omega
  have hword : ∀ n : Nat, n ≤ s.length → IsWord n := by
    intro n hn
    unfold IsWord at *
    omega
  refine slice_of_picks (hword first (by omega)) (hword last hlast) (by decide) (by decide)
    (hadjusted first (by omega)) (hadjusted last hlast) (picks_between hle ?_)
  rwa [String.length_toList]

/-- What is before a position and what is from there on make up the text. -/
theorem slice_append {i : Nat} (hi : i ≤ s.length) (hlength : IsWord s.length) : ∃ l r,
    slice s (.num (.ofInt 0)) (.num (.ofInt i)) (.num (.ofInt 1)) = .ok (.str l) ∧
      slice s (.num (.ofInt i)) (.num (.ofInt s.length)) (.num (.ofInt 1)) = .ok (.str r) ∧ l ++ r = s := by
  refine ⟨_, _, slice_between (Nat.zero_le i) hi hlength, slice_between hi (Nat.le_refl _) hlength, ?_⟩
  have htake : (s.toList.drop i).take (s.length - i) = s.toList.drop i := by
    rw [← String.length_toList, ← List.length_drop, List.take_length]
  rw [← String.ofList_append, List.drop_zero, Nat.sub_zero, htake, List.take_append_drop, String.ofList_toList]

/-- A slice of one position is what is found there. -/
theorem slice_one {i : Nat} (hi : i < s.length) (hlength : IsWord s.length) : ∃ ch, s.toList[i]? = some ch ∧
    slice s (.num (.ofInt i)) (.num (.ofInt (i + 1))) (.num (.ofInt 1)) = .ok (.str (String.ofList [ch])) ∧
      find (.str s) (.num (.ofInt i)) = .ok (.str (String.ofList [ch])) := by
  have hlt : i < s.toList.length := String.length_toList ▸ hi
  have hone : (s.toList.drop i).take 1 = [s.toList[i]] := by
    rw [List.drop_eq_getElem_cons hlt]
    rfl
  have hbetween := slice_between (Nat.le_succ i) hi hlength
  rw [Nat.succ_sub (Nat.le_refl i), Nat.sub_self, hone] at hbetween
  have hposition : (Value.num (.ofInt i)).position "FIND" s.length = .ok i :=
    (position_eq_ok_iff (by unfold IsWord wordSize at *; omega)).mpr ⟨rfl, hi⟩
  refine ⟨s.toList[i], List.getElem?_eq_getElem hlt, hbetween, ?_⟩
  rw [find, hposition]
  exact congrArg (fun cs => Except.ok (Value.str (String.ofList cs))) hone

/-- A slice backwards from the last character to the one before the first. -/
theorem slice_backwards (hlength : IsWord s.length) :
    slice s (.num (.ofInt (s.length - 1))) (.num (.ofInt (-s.length - 1))) (.num (.ofInt (-1))) =
      .ok (.str (String.ofList s.toList.reverse)) := by
  have hword : IsWord (s.length - 1 : Int) ∧ IsWord (-s.length - 1) := by unfold IsWord at *; omega
  -- the last position of the empty text is already the one before the first
  have hfirst : counted s.length (s.length - 1) = s.length - 1 := by
    unfold counted
    split <;> omega
  have hlast : counted s.length (-s.length - 1) = -1 := by
    rw [show counted s.length (-s.length - 1) = -s.length - 1 + s.length from if_pos (by omega)]
    omega
  have hstart : Adjusted s.length (-1) (s.length - 1) (s.length - 1) := {
    forward := fun h => by omega
    backward := fun _ => ⟨by omega, by omega, .inl hfirst.symm⟩ }
  have hstop : Adjusted s.length (-1) (-s.length - 1) (-1) := {
    forward := fun h => by omega
    backward := fun _ => ⟨by omega, by omega, .inl hlast.symm⟩ }
  have hpicks := picks_reverse s.toList
  rw [String.length_toList] at hpicks
  exact slice_of_picks hword.1 hword.2 (by decide) (by decide) hstart hstop hpicks

/-- The first operand that is refused is complained about. -/
theorem slice_of_complaint (s : String) (h : Complaint u v w e) : slice s u v w = .error e := by
  cases h with
  | start h =>
    rw [slice, sliceBound_of_refused h]
    rfl
  | stop hu h =>
    obtain ⟨a, ha, rfl⟩ := hu
    rw [slice, sliceBound_of_isWord ha, sliceBound_of_refused h]
    rfl
  | step hu hv h =>
    obtain ⟨a, ha, rfl⟩ := hu
    obtain ⟨b, hb, rfl⟩ := hv
    rw [slice, sliceBound_of_isWord ha, sliceBound_of_isWord hb, sliceBound_of_refused h]
    rfl
  | zero hu hv =>
    obtain ⟨a, ha, rfl⟩ := hu
    obtain ⟨b, hb, rfl⟩ := hv
    rw [slice, sliceBound_of_isWord ha, sliceBound_of_isWord hb, sliceBound_of_isWord (by decide)]
    rfl

/-- **Slices.** Bounds and a step that are signed machine words, stored as integers, give the characters at the
positions from the adjusted start on, step by step, that come before the adjusted stop. In machine words the same
characters are found without an overflow and without a position that is out of range, in every text whose length
is a machine word. So a text is put together again from what is before a position and what is from there on; a
slice of one position is the character that is found there; and a slice backwards over the whole text reverses
it. All other operands are errors. -/
theorem slice_positions (s : String) :
    (∀ a b c : Int, IsWord a → IsWord b → IsWord c → c ≠ 0 → ∃ first last picked,
      Adjusted s.length c a first ∧ Adjusted s.length c b last ∧ Picks s.toList first last c picked ∧
        slice s (.num (.ofInt a)) (.num (.ofInt b)) (.num (.ofInt c)) = .ok (.str (String.ofList picked)) ∧
        (IsWord s.length → inWords s.toList a b c = some picked)) ∧
    (IsWord s.length →
      (∀ i : Nat, i ≤ s.length → ∃ l r,
        slice s (.num (.ofInt 0)) (.num (.ofInt i)) (.num (.ofInt 1)) = .ok (.str l) ∧
        slice s (.num (.ofInt i)) (.num (.ofInt s.length)) (.num (.ofInt 1)) = .ok (.str r) ∧ l ++ r = s) ∧
      (∀ i : Nat, i < s.length → ∃ ch, s.toList[i]? = some ch ∧
        slice s (.num (.ofInt i)) (.num (.ofInt (i + 1))) (.num (.ofInt 1)) = .ok (.str (String.ofList [ch])) ∧
        find (.str s) (.num (.ofInt i)) = .ok (.str (String.ofList [ch]))) ∧
      slice s (.num (.ofInt (s.length - 1))) (.num (.ofInt (-s.length - 1))) (.num (.ofInt (-1))) =
        .ok (.str (String.ofList s.toList.reverse))) ∧
    ∀ u v w e, slice s u v w = .error e ↔ Complaint u v w e := by
  refine ⟨?_, ?_, ?_⟩
  · intro a b c ha hb hc hzero
    refine ⟨_, _, _, adjusted_clampBound _ c a, adjusted_clampBound _ c b, ?_, slice_of_words s ha hb hc hzero, ?_⟩
    · exact String.length_toList ▸ picks_sliceChars s.toList hzero a b
    · intro hlength
      exact inWords_eq (String.length_toList ▸ hlength) ha hb hzero
  · intro hlength
    exact ⟨fun i hi => slice_append hi hlength, fun i hi => slice_one hi hlength, slice_backwards hlength⟩
  · intro u v w e
    constructor
    · intro h
      rcases words_or_complaint u v w with ⟨a, b, c, ha, hb, hc, hzero, rfl, rfl, rfl⟩ | ⟨e', he'⟩
      · rw [slice_of_words s ha hb hc hzero] at h
        cases h
      · rw [slice_of_complaint s he'] at h
        cases h
        exact he'
    · exact slice_of_complaint s

/-- The position after the last character is no machine word any more. -/
theorem slice_positions_huge_step :
    slice "abc" (.num (.ofInt 2)) (.num (.ofInt (-4))) (.num (.ofInt (-0x8000000000000000))) = .ok (.str "c") ∧
      inWords "abc".toList 2 (-4) (-0x8000000000000000) = some ['c'] := by
  obtain ⟨first, last, picked, hfirst, hlast, hpicks, hslice, hwords⟩ :=
    (slice_positions "abc").1 2 (-4) (-0x8000000000000000) (by decide) (by decide) (by decide) (by decide)
  have hfirst' : first = 2 := (clampBound_of_adjusted (by decide) hfirst).symm.trans (by decide)
  have hlast' : last = -1 := (clampBound_of_adjusted (by decide) hlast).symm.trans (by decide)
  subst hfirst' hlast'
  have hpicked : picked = ['c'] := hpicks.unique {
    before := fun k => by
      rw [List.length_singleton]
      unfold Before
      omega
    inside := fun k hk => by
      obtain rfl := Nat.lt_one_iff.mp hk
      decide
    chars := fun k hk => by
      obtain rfl := Nat.lt_one_iff.mp hk
      decide }
  subst hpicked
  exact ⟨hslice, hwords (by decide)⟩

end Value

end ExactScript
