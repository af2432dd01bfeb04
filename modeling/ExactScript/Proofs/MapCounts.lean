import Mathlib.Data.List.Induction
import ExactScript.Proofs.Failures
import ExactScript.Proofs.LowestTerms

/-!
# Maps from counted entries

The number of entries of a map is on the stack above the keys and the values, and twice that number is taken.
Twice a machine word is computed in machine words: for counts in the upper half of the range, what is taken is
less than twice the count, and there may be enough of it on a stack that is far too short. Compiled code never
gets there, for its counts are the lengths of lists in memory.

Of keys that are the same, the last one determines the value.

## Contents
* `Key.same_congr`, `Entries.get?_insert` and `Entries.get?_ofPairs`, what is at a key;
* `Value.flatten` and `Value.entries_cases`, both ways to build a map;
* `Machine.buildMap_takes`, the theorem.
-/

namespace ExactScript

/-! ## Entries -/

namespace Key

variable {j k : Key}

/-- Keys that are the same are the same as the same keys. -/
theorem same_congr (h : j.same k = true) (l : Key) : j.same l = k.same l := by
  cases j with
  | num x =>
    cases k with
    | num y =>
      cases l with
      | num z =>
        have hvalue : x.value = y.value := Fraction.same_iff_value.mp h
        show x.same z = y.same z
        rw [Bool.eq_iff_iff, Fraction.same_iff_value, Fraction.same_iff_value, hvalue]
      | _ => rfl
    | _ => cases h
  | bool a =>
    cases k with
    | bool b =>
      obtain rfl : a = b := beq_iff_eq.mp h
      rfl
    | _ => cases h
  | str a =>
    cases k with
    | str b =>
      obtain rfl : a = b := beq_iff_eq.mp h
      rfl
    | _ => cases h

theorem same_self (k : Key) : k.same k = true := by
  cases k with
  | num x => exact Fraction.same_iff_value.mpr rfl
  | bool b => exact beq_self_eq_true b
  | str s => exact beq_self_eq_true s

end Key

namespace Entries

variable {es : Entries Value} {j k : Key} {v : Value}

/-- **What is at a key** after another one was set. -/
theorem get?_insert : get? (Entries.insert es k v) j = if k.same j then some v else get? es j := by
  induction es with
  | nil => rfl
  | cons e es ih =>
    obtain ⟨i, w⟩ := e
    simp only [insert]
    split
    · next hi =>
      simp only [get?, Key.same_congr hi j]
      split <;> rfl
    · next hi =>
      simp only [get?, ih]
      split
      · next hij =>
        -- the entry that is found is the one before
        have hkj : ¬k.same j := fun hkj => hi <| by
          rw [Key.same_congr hij k, ← Key.same_congr hkj k, Key.same_self]
        rw [if_neg hkj]
      · rfl

/-- The entries with these keys and values, set one after the other. -/
def ofPairs (pairs : List (Key × Value)) : Entries Value :=
  pairs.foldl (fun es kv => Entries.insert es kv.1 kv.2) []

/-- **Later keys win.** -/
theorem get?_ofPairs (pairs : List (Key × Value)) (k : Key) :
    get? (ofPairs pairs) k = (pairs.reverse.find? fun kv => kv.1.same k).map Prod.snd := by
  induction pairs using List.reverseRecOn with
  | nil => rfl
  | append_singleton pairs kv ih =>
    rw [ofPairs, List.foldl_concat, ← ofPairs, get?_insert, ih, List.reverse_concat, List.find?_cons]
    split
    · next h => rw [h]; rfl
    · next h => rw [Bool.not_eq_true] at h; rw [h]

end Entries

namespace Value

/-- Keys and values in turns. -/
def flatten (pairs : List (Key × Value)) : List Value := pairs.flatMap fun kv => [ofKey kv.1, kv.2]

theorem length_flatten (pairs : List (Key × Value)) : (flatten pairs).length = 2 * pairs.length := by
  rw [flatten, List.length_flatMap]
  simp [Nat.mul_comm]

theorem toKey?_ofKey (k : Key) : (ofKey k).toKey? = some k := by cases k <;> rfl

theorem eq_ofKey {v : Value} {k : Key} (h : v.toKey? = some k) : v = ofKey k := by
  cases v <;> cases h <;> rfl

/-- Values in turns are keys and values, or there is a first one in the place of a key that is none. -/
theorem flatten_cases {flat : List Value} {n : Nat} (h : flat.length = 2 * n) :
    (∃ pairs, flat = flatten pairs) ∨
      ∃ pairs v later, flat = flatten pairs ++ v :: later ∧ v.toKey? = none := by
  induction n generalizing flat with
  | zero => exact .inl ⟨[], List.length_eq_zero_iff.mp h⟩
  | succ n ih =>
    match flat, h with
    | key :: v :: flat, h =>
      cases hkey : key.toKey? with
      | none => exact .inr ⟨[], key, v :: flat, rfl, hkey⟩
      | some k =>
        obtain rfl := eq_ofKey hkey
        rcases ih (by simpa [Nat.mul_succ] using h) with ⟨pairs, rfl⟩ | ⟨pairs, w, later, rfl, hw⟩
        · exact .inl ⟨(k, v) :: pairs, rfl⟩
        · exact .inr ⟨(k, v) :: pairs, w, later, rfl, hw⟩

theorem entriesOfFlat_append (es : Entries Value) (pairs : List (Key × Value)) (rest : List Value) :
    entriesOfFlat es (flatten pairs ++ rest) =
      entriesOfFlat (pairs.foldl (fun es kv => Entries.insert es kv.1 kv.2) es) rest := by
  induction pairs generalizing es with
  | nil => rfl
  | cons kv pairs ih =>
    have hkey : (ofKey kv.1).key "BUILD_MAP" = .ok kv.1 := by rw [key, toKey?_ofKey]
    show (ofKey kv.1).key "BUILD_MAP" >>= _ = _
    rw [hkey]
    exact ih _

theorem ofFlat_flatten (pairs : List (Key × Value)) :
    ofFlat (flatten pairs) = .ok (.map (Entries.ofPairs pairs)) := by
  have hall := entriesOfFlat_append [] pairs []
  rw [List.append_nil] at hall
  rw [ofFlat, hall]
  rfl

theorem ofFlat_of_not_key {v : Value} (pairs : List (Key × Value)) {later : List Value} (hv : v.toKey? = none)
    (hlater : later ≠ []) : ofFlat (flatten pairs ++ v :: later) =
      .error (.mismatch "BUILD_MAP" "num, bool or str" v) := by
  obtain ⟨w, later, rfl⟩ := List.exists_cons_of_ne_nil hlater
  have hkey : v.key "BUILD_MAP" = .error (.mismatch "BUILD_MAP" "num, bool or str" v) := by rw [key, hv]
  rw [ofFlat, entriesOfFlat_append, entriesOfFlat, hkey]
  rfl

end Value

/-! ## The instruction -/

theorem Stack.lt_of_count? {x : Fraction} {n : Nat} (h : count? x = some n) : n < wordSize := by
  unfold count? at h
  split at h
  · exact (Fraction.toWord?_eq_some_iff.mp h).2
  · cases h

namespace Machine

variable {m : Machine} {x : Fraction} {n : Nat} {s : Stack}

/-- The values that are taken are what the map is built of. -/
theorem exec_buildMap {flat rest : Stack} (hs : m.stack = .num x :: (flat.reverse ++ rest))
    (hn : Stack.count? x = some n) (hlength : flat.length = 2 * n % wordSize) :
    exec .buildMap m = yield (Value.ofFlat flat) { m with stack := rest } := by
  have hcount : Stack.popCount "BUILD_MAP" m.stack = .ok n (flat.reverse ++ rest) := hs ▸ Stack.popCount_num hn
  have htake : Stack.takeTop (2 * n % wordSize) (flat.reverse ++ rest) = .ok flat rest := by
    rw [Stack.takeTop_append (by rw [List.length_reverse, hlength]), List.reverse_reverse]
  exact (bind_onStack hcount).trans (bind_onStack htake)

theorem exec_buildMap_of_lt (hs : m.stack = .num x :: s) (hn : Stack.count? x = some n)
    (h : s.length < 2 * n % wordSize) : exec .buildMap m = .error .stackUnderflow { m with stack := s } := by
  have hcount : Stack.popCount "BUILD_MAP" m.stack = .ok n s := hs ▸ Stack.popCount_num hn
  have htake : Stack.takeTop (2 * n % wordSize) s = .error .stackUnderflow s := by
    simp only [Stack.takeTop, bind, EStateM.bind, Stack.popMany, if_pos h]
  exact (bind_onStack hcount).trans (bind_onStack_error htake)

/-- **The count of a map.** When the count `n` is on top of the stack, `k` values are taken with it: twice the
count as long as that is a machine word, and otherwise what is left of it in a machine word. The machine fails
when there are fewer than `k`. Else exactly these come off, and there are two cases. They are keys and values in
turns: then the map of them is pushed, in which later keys win. Or there is a first value in the place of a key
that is none, and the machine fails. -/
theorem buildMap_takes (hm : m.status = .running) (hi : m.current? = some .buildMap)
    (hs : m.stack = .num x :: s) (hn : Stack.count? x = some n) :
    ∃ k, (2 * n < wordSize → k = 2 * n) ∧ (wordSize ≤ 2 * n → k + wordSize = 2 * n) ∧
      (s.length < k → m.step = (.error .stackUnderflow, { m with stack := s, status := .failed })) ∧
      (k ≤ s.length → ∃ flat rest, s = flat.reverse ++ rest ∧ flat.length = k ∧
        ((∃ pairs entries, flat = Value.flatten pairs ∧
            (∀ key, Entries.get? entries key = (pairs.reverse.find? fun kv => kv.1.same key).map Prod.snd) ∧
            m.step = (.ok .more, { m with stack := .map entries :: rest, ip := m.ip + 1 })) ∨
          ∃ pairs v later, flat = Value.flatten pairs ++ v :: later ∧ v.toKey? = none ∧
            m.step = (.error (.mismatch "BUILD_MAP" "num, bool or str" v),
              { m with stack := rest, status := .failed }))) := by
  have hword := Stack.lt_of_count? hn
  refine ⟨2 * n % wordSize, Nat.mod_eq_of_lt, fun h => ?_, fun h => ?_, fun h => ?_⟩
  · rw [Nat.mod_eq_sub_mod h, Nat.mod_eq_of_lt (by omega), Nat.sub_add_cancel h]
  · exact step_of_error hm hi (exec_buildMap_of_lt hs hn h)
  obtain ⟨flat, rest, rfl, hlength⟩ : ∃ flat rest : Stack, s = flat.reverse ++ rest ∧
      flat.length = 2 * n % wordSize := by
    refine ⟨(s.take (2 * n % wordSize)).reverse, s.drop (2 * n % wordSize), ?_, ?_⟩
    · rw [List.reverse_reverse, List.take_append_drop]
    · rw [List.length_reverse, List.length_take_of_le h]
  refine ⟨flat, rest, rfl, hlength, ?_⟩
  have hexec := exec_buildMap hs hn hlength
  -- there is an even number of machine words, so it is an even number of values
  have heven : flat.length = 2 * (n % (wordSize / 2)) := by
    rw [hlength, ← Nat.mul_mod_mul_left]
    rfl
  rcases Value.flatten_cases heven with ⟨pairs, rfl⟩ | ⟨pairs, v, later, rfl, hv⟩
  · rw [Value.ofFlat_flatten] at hexec
    exact .inl ⟨pairs, _, rfl, Entries.get?_ofPairs pairs, step_of_more hm hi hexec⟩
  · have hlater : later ≠ [] := by
      rintro rfl
      rw [List.length_append, Value.length_flatten, List.length_singleton] at heven
      omega
    rw [Value.ofFlat_of_not_key pairs hv hlater] at hexec
    exact .inr ⟨pairs, v, later, rfl, hv, step_of_error hm hi hexec⟩

/-- A machine in front of the construction of a map, with this count above a truth value. -/
def sampleCount (n : Nat) : Machine where
  program := { code := #[.buildMap, .halt] }
  stack := [.ofNat n, .bool true]
  status := .running

/-- Half the range of machine words is no values at all. -/
theorem buildMap_takes_none : ∃ entries, (sampleCount 0x8000000000000000).step =
    (.ok .more, { sampleCount 0x8000000000000000 with stack := [.map entries, .bool true], ip := 1 }) ∧
    ∀ key, Entries.get? entries key = none := by
  have hcount : Stack.count? (.ofNat 0x8000000000000000) = some 0x8000000000000000 :=
    Stack.count?_ofNat (by decide)
  obtain ⟨k, -, hk, -, htakes⟩ :=
    buildMap_takes (m := sampleCount 0x8000000000000000) rfl rfl rfl hcount
  have hnone : k = 0 := Nat.add_right_cancel ((hk (by decide)).trans (Nat.zero_add wordSize).symm)
  subst hnone
  obtain ⟨flat, rest, hrest, hflat, hcases⟩ := htakes (Nat.zero_le _)
  obtain rfl := List.length_eq_zero_iff.mp hflat
  obtain rfl : rest = [.bool true] := hrest.symm
  rcases hcases with ⟨pairs, entries, hpairs, hget, hstep⟩ | ⟨pairs, v, later, hpairs, -⟩
  · obtain rfl : pairs = [] := by cases pairs with | nil => rfl | cons => cases hpairs
    exact ⟨entries, hstep, hget⟩
  · cases pairs <;> cases hpairs

/-- A count may be met by a stack that is too short for it. -/
theorem exists_map_of_too_few : ¬∀ (m : Machine) (x : Fraction) (n : Nat) (s : Stack), m.status = .running →
    m.current? = some .buildMap → m.stack = .num x :: s → Stack.count? x = some n → s.length < 2 * n →
    m.step = (.error .stackUnderflow, { m with stack := s, status := .failed }) := by
  intro h
  have hcount : Stack.count? (.ofNat 0x8000000000000000) = some 0x8000000000000000 :=
    Stack.count?_ofNat (by decide)
  have hfails := h (sampleCount 0x8000000000000000) _ _ [.bool true] rfl rfl rfl hcount (by decide)
  cases hfails

end Machine

end ExactScript
