import ExactScript.Proofs.LowestTerms
import ExactScript.Proofs.Tokens

/-!
# Printed collections are readable

Two collections with the same text are the same collection. Texts of values are not told apart by where they end
in the whole text, for separators may also stand in strings. But they can be read from the left: the first
character decides what kind of value it is, a string goes on until a quote without a backslash before it, and
everything else but collections until the next separator or bracket. So what is proved is that of two texts with
something behind them, which may only be a separator or a bracket, both parts are the same if the wholes are. In
this form it passes from the elements to a collection. Numbers have to be in lowest terms, since a zero is printed
without its denominator.

## Contents
* `append_inj_of_border`, texts that end where a certain character is;
* `Text.escaped_append_inj` and `Text.quoted_append_inj`, strings;
* `Fraction.IsReduced.display_append_inj`, numbers, and `Key.Reduced.display_append_inj`, keys;
* `joined_append_inj`, elements between brackets;
* `Value.Reduced.shown_append_inj`, values, and `Value.display_inj`, the theorem.
-/

namespace ExactScript

/-! ## Texts up to a border -/

/-- What ends before the first character with the property `P` can be told from what is behind it. -/
theorem append_inj_of_border {α : Type} {P : α → Prop} {xs ys r s : List α} (hx : ∀ c ∈ xs, ¬P c)
    (hy : ∀ c ∈ ys, ¬P c) (hr : ∀ c ∈ r.head?, P c) (hs : ∀ c ∈ s.head?, P c) (h : xs ++ r = ys ++ s) :
    xs = ys ∧ r = s := by
  induction xs generalizing ys with
  | nil =>
    cases ys with
    | nil => exact ⟨rfl, h⟩
    | cons y ys =>
      obtain rfl : r = y :: (ys ++ s) := h
      exact absurd (hr y rfl) (hy y List.mem_cons_self)
  | cons x xs ih =>
    cases ys with
    | nil =>
      obtain rfl : x :: (xs ++ r) = s := h
      exact absurd (hs x rfl) (hx x List.mem_cons_self)
    | cons y ys =>
      obtain ⟨rfl, htail⟩ := List.cons.inj h
      obtain ⟨rfl, hrest⟩ := ih (fun c hc => hx c (List.mem_cons_of_mem _ hc))
        (fun c hc => hy c (List.mem_cons_of_mem _ hc)) htail
      exact ⟨rfl, hrest⟩

/-! ## Strings -/

namespace Text

theorem exists_digit_of_mem_toDigits {b n : Nat} (hb : 1 < b) {c : Char} (h : c ∈ Nat.toDigits b n) :
    ∃ d < b, c = Nat.digitChar d := by
  induction n using Nat.strong_induction_on with
  | _ n ih =>
    rw [Nat.toDigits_eq_if hb] at h
    split at h
    · next hn => exact ⟨n, hn, List.mem_singleton.mp h⟩
    · next hn =>
      rcases List.mem_append.mp h with h | h
      · exact ih (n / b) (Nat.div_lt_self (by omega) hb) h
      · exact ⟨n % b, Nat.mod_lt n (by omega), List.mem_singleton.mp h⟩

/-- Hexadecimal digits determine the number. -/
theorem toDigits_sixteen_inj {m n : Nat} (h : Nat.toDigits 16 m = Nat.toDigits 16 n) : m = n := by
  have hdigit : ∀ d < 16, ∀ e < 16, Nat.digitChar d = Nat.digitChar e → d = e := by decide
  induction m using Nat.strong_induction_on generalizing n with
  | _ m ih =>
    rw [Nat.toDigits_eq_if (by decide), Nat.toDigits_eq_if (n := n) (by decide)] at h
    split at h <;> split at h
    · next hm hn => exact hdigit m hm n hn (List.singleton_inj.mp h)
    · exact absurd (List.append_eq_singleton_iff.mp h.symm) (by simp [Nat.toDigits_ne_nil])
    · exact absurd (List.append_eq_singleton_iff.mp h) (by simp [Nat.toDigits_ne_nil])
    · next hm hn =>
      obtain ⟨hinit, hlast⟩ := List.append_inj' h rfl
      have hdiv : m / 16 = n / 16 := ih (m / 16) (by omega) hinit
      have hmod : m % 16 = n % 16 :=
        hdigit _ (Nat.mod_lt m (by decide)) _ (Nat.mod_lt n (by decide)) (List.singleton_inj.mp hlast)
      omega

/-- The character that is written as a backslash and this one. -/
def named? : Char → Option Char
  | '"' => some '"'
  | '\\' => some '\\'
  | 'n' => some '\n'
  | 'r' => some '\r'
  | 't' => some '\t'
  | '0' => some '\x00'
  | _ => none

/-- A character in quoted text stands for itself, has a name, or is written as a number. -/
theorem escaped_cases (c : Char) :
    (escaped c = [c] ∧ c ≠ '"' ∧ c ≠ '\\') ∨ (∃ e, escaped c = ['\\', e] ∧ named? e = some c) ∨
      escaped c = '\\' :: 'u' :: '{' :: (Nat.toDigits 16 c.toNat ++ ['}']) := by
  unfold escaped
  split
  case h_7 hquote hbackslash _ _ _ _ =>
    split
    · exact .inr (.inr rfl)
    · exact .inl ⟨rfl, hquote, hbackslash⟩
  all_goals exact .inr (.inl ⟨_, rfl, rfl⟩)

variable {c d : Char} {r s : List Char}

/-- **One character of quoted text** can be told from what is behind it. -/
theorem escaped_append_inj (h : escaped c ++ r = escaped d ++ s) : c = d ∧ r = s := by
  rcases escaped_cases c with ⟨hc, -, hbackslash⟩ | ⟨e, hc, he⟩ | hc <;>
    rcases escaped_cases d with ⟨hd, -, hbackslash'⟩ | ⟨e', hd, he'⟩ | hd <;> rw [hc, hd] at h
  · exact List.cons.inj h
  · exact absurd (List.cons.inj h).1 hbackslash
  · exact absurd (List.cons.inj h).1 hbackslash
  · exact absurd (List.cons.inj h).1.symm hbackslash'
  · obtain ⟨heq, hrest⟩ := List.cons.inj (List.cons.inj h).2
    exact ⟨Option.some.inj (he.symm.trans ((congrArg named? heq).trans he')), hrest⟩
  · obtain ⟨rfl, -⟩ := List.cons.inj (List.cons.inj h).2
    cases he
  · exact absurd (List.cons.inj h).1.symm hbackslash'
  · obtain ⟨rfl, -⟩ := List.cons.inj (List.cons.inj h).2
    cases he'
  · -- no hexadecimal digit is a brace
    have hplain : ∀ n, ∀ x ∈ Nat.toDigits 16 n, x ≠ '}' := by
      intro n x hx
      obtain ⟨i, hi, rfl⟩ := exists_digit_of_mem_toDigits (by decide) hx
      exact (by decide : ∀ i < 16, Nat.digitChar i ≠ '}') i hi
    have hnumber : Nat.toDigits 16 c.toNat ++ '}' :: r = Nat.toDigits 16 d.toNat ++ '}' :: s := by
      simpa using h
    obtain ⟨hdigits, hrest⟩ :=
      append_inj_of_border (P := (· = '}')) (hplain _) (hplain _) (by simp) (by simp) hnumber
    exact ⟨Char.toNat_inj.mp (toDigits_sixteen_inj hdigits), (List.cons.inj hrest).2⟩

/-- A quote in quoted text stands after a backslash. -/
theorem escaped_append_ne (c : Char) (r s : List Char) : escaped c ++ r ≠ '"' :: s := by
  intro h
  rcases escaped_cases c with ⟨hc, hquote, -⟩ | ⟨e, hc, -⟩ | hc <;> rw [hc] at h
  · exact hquote (List.cons.inj h).1
  · cases h
  · cases h

theorem flatMap_escaped_append_inj {cs ds : List Char}
    (h : cs.flatMap escaped ++ '"' :: r = ds.flatMap escaped ++ '"' :: s) : cs = ds ∧ r = s := by
  induction cs generalizing ds with
  | nil =>
    cases ds with
    | nil => exact ⟨rfl, (List.cons.inj h).2⟩
    | cons d ds =>
      rw [List.flatMap_cons, List.append_assoc] at h
      exact absurd h.symm (escaped_append_ne d _ _)
  | cons c cs ih =>
    cases ds with
    | nil =>
      rw [List.flatMap_cons, List.append_assoc] at h
      exact absurd h (escaped_append_ne c _ _)
    | cons d ds =>
      rw [List.flatMap_cons, List.flatMap_cons, List.append_assoc, List.append_assoc] at h
      obtain ⟨rfl, hchars⟩ := escaped_append_inj h
      obtain ⟨rfl, hrest⟩ := ih hchars
      exact ⟨rfl, hrest⟩

/-- **Quoted text** can be told from what is behind it. -/
theorem quoted_append_inj {x y : String} (h : (quoted x).toList ++ r = (quoted y).toList ++ s) : x = y ∧ r = s := by
  have hchars : x.toList.flatMap escaped ++ '"' :: r = y.toList.flatMap escaped ++ '"' :: s := by
    simpa [quoted] using h
  obtain ⟨hsame, hrest⟩ := flatMap_escaped_append_inj hchars
  exact ⟨String.toList_inj.mp hsame, hrest⟩

end Text

/-! ## What may stand behind a value -/

/-- Nothing, or a separator or bracket. -/
def IsBorder (r : List Char) : Prop := ∀ c ∈ r.head?, c ∈ [',', ':', ']', '}']

theorem isBorder_nil : IsBorder [] := fun _ h => by cases h

theorem isBorder_cons {c : Char} {r : List Char} (h : c ∈ [',', ':', ']', '}']) : IsBorder (c :: r) := fun _ hd =>
  Option.some.inj hd ▸ h

/-! ## Numbers -/

theorem natText_inj {m n : Nat} (h : (toString m).toList = (toString n).toList) : m = n := by
  rw [Source.digits_eq, Source.digits_eq] at h
  rw [← Nat.ofDigitChars_ten_toDigits (n := m), h, Nat.ofDigitChars_ten_toDigits]

theorem intText_negSucc (n : Nat) : (toString (Int.negSucc n)).toList = '-' :: (toString (n + 1)).toList := by
  show ("-" ++ (n + 1).repr).toList = _
  rw [String.toList_append]
  rfl

theorem mem_intText {n : Int} {c : Char} (h : c ∈ (toString n).toList) : c.isDigit = true ∨ c = '-' := by
  cases n with
  | ofNat n => exact .inl (Source.isDigit_of_mem_digits (n := n) h)
  | negSucc n =>
    rw [intText_negSucc] at h
    exact (List.mem_cons.mp h).elim .inr fun h => .inl (Source.isDigit_of_mem_digits h)

theorem intText_inj {m n : Int} (h : (toString m).toList = (toString n).toList) : m = n := by
  have hsign : ∀ k l : Nat, (toString k).toList ≠ '-' :: (toString l).toList := fun k l heq =>
    absurd (Source.isDigit_of_mem_digits (n := k) (heq ▸ List.mem_cons_self)) (by decide)
  cases m with
  | ofNat m =>
    cases n with
    | ofNat n => exact congrArg Int.ofNat (natText_inj h)
    | negSucc n => exact absurd (h.trans (intText_negSucc n)) (hsign m _)
  | negSucc m =>
    cases n with
    | ofNat n => exact absurd (h.symm.trans (intText_negSucc m)) (hsign n _)
    | negSucc n =>
      rw [intText_negSucc, intText_negSucc] at h
      exact congrArg Int.negSucc (Nat.succ.inj (natText_inj (List.cons.inj h).2))

namespace Fraction

variable {x y : Fraction} {r s : List Char}

/-- The bar and the denominator, unless this is one. -/
def barred (x : Fraction) : List Char := if x.den = 1 then [] else '/' :: (toString x.den).toList

theorem toList_text (x : Fraction) : x.text.toList = (toString x.num).toList ++ x.barred := by
  unfold text barred
  split <;> simp

theorem head?_barred (x : Fraction) : ∀ c ∈ x.barred.head?, c = '/' := by
  unfold barred
  split <;> simp

theorem den_eq_of_barred (h : x.barred = y.barred) : x.den = y.den := by
  unfold barred at h
  split at h <;> split at h
  · next hx hy => rw [hx, hy]
  · cases h
  · cases h
  · exact intText_inj (List.cons.inj h).2

theorem mem_text {c : Char} (h : c ∈ x.text.toList) : c.isDigit = true ∨ c = '-' ∨ c = '/' := by
  rw [toList_text] at h
  rcases List.mem_append.mp h with h | h
  · exact (mem_intText h).imp_right .inl
  · unfold barred at h
    split at h
    · cases h
    · rcases List.mem_cons.mp h with rfl | h
      · exact .inr (.inr rfl)
      · exact (mem_intText h).imp_right .inl

/-- The numerator stands before a bar, or before the end. -/
theorem text_inj (h : x.text.toList = y.text.toList) : x = y := by
  have hplain : ∀ n : Int, ∀ c ∈ (toString n).toList, c ≠ '/' := by
    intro n c hc
    rcases mem_intText hc with hdigit | rfl
    · exact (Source.ne_of_class (by decide) hdigit).symm
    · decide
  rw [toList_text, toList_text] at h
  obtain ⟨hnum, hbarred⟩ := append_inj_of_border (hplain _) (hplain _) x.head?_barred y.head?_barred h
  have hnum : x.num = y.num := intText_inj hnum
  have hden : x.den = y.den := den_eq_of_barred hbarred
  cases x
  cases y
  cases hnum
  cases hden
  rfl

namespace IsReduced

/-- In lowest terms a zero has the denominator one anyway. -/
theorem display_eq_text (h : x.IsReduced) : x.display = x.text := by
  unfold display
  split
  · next hzero =>
    have hden : x.den = 1 := by
      have hgcd := h.2
      rw [hzero, Int.gcd_zero_left] at hgcd
      have := h.1
      omega
    rw [text, if_pos hden, hzero]
    rfl
  · rfl

/-- **A number** can be told from what is behind it. -/
theorem display_append_inj (hx : x.IsReduced) (hy : y.IsReduced) (hr : IsBorder r) (hs : IsBorder s)
    (h : x.display.toList ++ r = y.display.toList ++ s) : x = y ∧ r = s := by
  have hplain : ∀ z : Fraction, ∀ c ∈ z.text.toList, c ∉ [',', ':', ']', '}'] := by
    intro z c hc
    rcases mem_text hc with hdigit | rfl | rfl
    · simp only [List.mem_cons, List.not_mem_nil, or_false, not_or]
      refine ⟨?_, ?_, ?_, ?_⟩ <;> exact (Source.ne_of_class (by decide) hdigit).symm
    · decide
    · decide
  rw [hx.display_eq_text, hy.display_eq_text] at h
  obtain ⟨htext, hrest⟩ := append_inj_of_border (hplain x) (hplain y) hr hs h
  exact ⟨text_inj htext, hrest⟩

end IsReduced

end Fraction

/-! ## Kinds of values -/

/-- The kind of value whose text inside a collection begins with the character. -/
def Kind.ofFirst : Char → Option Kind
  | '(' => some .unit
  | 't' => some .bool
  | 'f' => some .bool
  | '"' => some .str
  | '[' => some .list
  | '\x7b' => some .map
  | '<' => some .function
  | '-' => some .num
  | c => if c.isDigit then some .num else none

theorem Kind.ofFirst_of_isDigit {c : Char} (h : c.isDigit = true) : ofFirst c = some .num := by
  unfold ofFirst
  split
  case h_9 => rw [if_pos h]
  all_goals first | rfl | cases h

theorem Fraction.exists_display_cons (x : Fraction) :
    ∃ c cs, x.display.toList = c :: cs ∧ Kind.ofFirst c = some .num := by
  have hint : ∀ n : Int, ∃ c cs, (toString n).toList = c :: cs ∧ Kind.ofFirst c = some .num := by
    intro n
    cases n with
    | ofNat n =>
      obtain ⟨c, cs, hcs, hc⟩ := Source.exists_digits_cons n
      exact ⟨c, cs, hcs, Kind.ofFirst_of_isDigit hc⟩
    | negSucc n => exact ⟨'-', _, intText_negSucc n, rfl⟩
  obtain ⟨c, cs, hcs, hc⟩ := hint x.num
  unfold display
  split
  · exact ⟨'0', [], rfl, rfl⟩
  unfold text
  split
  · exact ⟨c, cs, hcs, hc⟩
  · exact ⟨c, _, by rw [String.toList_append, String.toList_append, hcs]; rfl, hc⟩

namespace Value

variable {v w : Value} {r s : List Char}

theorem exists_shown_cons (v : Value) : ∃ c cs, v.shown.toList = c :: cs ∧ Kind.ofFirst c = some v.kind := by
  cases v with
  | unit => exact ⟨'(', _, rfl, rfl⟩
  | num n => exact n.exists_display_cons
  | bool b => cases b <;> exact ⟨_, _, rfl, rfl⟩
  | str s => exact ⟨'"', s.toList.flatMap Text.escaped ++ ['"'], by simp [shown, Text.quoted], rfl⟩
  | list elems => exact ⟨'[', _, by rw [shown, String.toList_append, String.toList_append]; rfl, rfl⟩
  | map entries => exact ⟨'\x7b', _, by rw [shown, String.toList_append, String.toList_append]; rfl, rfl⟩
  | function f =>
    have htext : (function f).shown.toList =
        '<' :: ("fn@".toList ++ ((toString f.entry).toList ++ '/' :: ((toString f.arity).toList ++ ['>']))) := by
      simp [shown]
    exact ⟨'<', _, htext, rfl⟩

/-- The first character decides what kind of value there is. -/
theorem kind_eq_of_shown (h : v.shown.toList ++ r = w.shown.toList ++ s) : v.kind = w.kind := by
  obtain ⟨c, cs, hv, hc⟩ := v.exists_shown_cons
  obtain ⟨d, ds, hw, hd⟩ := w.exists_shown_cons
  rw [hv, hw] at h
  obtain rfl : c = d := (List.cons.inj h).1
  exact Option.some.inj (hc.symm.trans hd)

end Value

theorem boolText_append_inj {b c : Bool} {r s : List Char} (h : (toString b).toList ++ r = (toString c).toList ++ s) :
    b = c ∧ r = s := by
  cases b <;> cases c
  · exact ⟨rfl, List.append_cancel_left h⟩
  · exact absurd (List.cons.inj h).1 (by decide)
  · exact absurd (List.cons.inj h).1 (by decide)
  · exact ⟨rfl, List.append_cancel_left h⟩

/-! ## Keys -/

namespace Key

variable {j k : Key} {r s : List Char}

theorem display_eq_shown (k : Key) : k.display = (Value.ofKey k).shown := by
  cases k <;> simp only [display, Value.ofKey, Value.shown]

/-- **A key** can be told from what is behind it. -/
theorem Reduced.display_append_inj (hj : j.Reduced) (hk : k.Reduced) (hr : IsBorder r) (hs : IsBorder s)
    (h : j.display.toList ++ r = k.display.toList ++ s) : j = k ∧ r = s := by
  have hkind : (Value.ofKey j).kind = (Value.ofKey k).kind := by
    rw [display_eq_shown, display_eq_shown] at h
    exact Value.kind_eq_of_shown h
  cases j with
  | num x =>
    cases k with
    | num y => exact (Fraction.IsReduced.display_append_inj hj hk hr hs h).imp_left (congrArg num)
    | _ => cases hkind
  | bool b =>
    cases k with
    | bool c => exact (boolText_append_inj h).imp_left (congrArg bool)
    | _ => cases hkind
  | str x =>
    cases k with
    | str y => exact (Text.quoted_append_inj h).imp_left (congrArg str)
    | _ => cases hkind

end Key

/-! ## Elements between brackets -/

section Joined

variable {α : Type} {text : α → List Char} {close : Char} {xs ys : List α} {r s : List Char}

/-- What stands behind an element: the others, each after a separator, and the closing bracket. -/
def behind (close : Char) (r : List Char) : List (List Char) → List Char
  | [] => close :: r
  | t :: ts => ',' :: ' ' :: ([',', ' '].intercalate (t :: ts) ++ close :: r)

theorem intercalate_cons_append (close : Char) (r t : List Char) (ts : List (List Char)) :
    [',', ' '].intercalate (t :: ts) ++ close :: r = t ++ behind close r ts := by
  cases ts with
  | nil => rw [List.intercalate_singleton, behind]
  | cons u us => rw [List.intercalate_cons_cons, behind, List.append_assoc, List.append_assoc]; rfl

/-- **Elements between brackets** can be told from what is behind them, if each of them can. -/
theorem joined_append_inj (hclose : close = ']' ∨ close = '\x7d')
    (hfirst : ∀ x, ∃ c cs, text x = c :: cs ∧ (Kind.ofFirst c).isSome)
    (hread : ∀ x ∈ xs, ∀ y ∈ ys, ∀ r s, IsBorder r → IsBorder s → text x ++ r = text y ++ s → x = y ∧ r = s)
    (h : [',', ' '].intercalate (xs.map text) ++ close :: r = [',', ' '].intercalate (ys.map text) ++ close :: s) :
    xs = ys ∧ r = s := by
  have hborder : ∀ (t : List Char) ts, IsBorder (behind close t ts) := by
    intro t ts
    cases ts with
    | nil => rcases hclose with rfl | rfl <;> exact isBorder_cons (by decide)
    | cons => exact isBorder_cons (by decide)
  -- a closing bracket is not the beginning of an element
  have hempty : ∀ (x : α) (t u : List Char), close :: t ≠ text x ++ u := by
    intro x t u heq
    obtain ⟨c, cs, hx, hc⟩ := hfirst x
    rw [hx] at heq
    obtain ⟨rfl, -⟩ := List.cons.inj heq
    rcases hclose with rfl | rfl <;> cases hc
  induction xs generalizing ys with
  | nil =>
    cases ys with
    | nil => exact ⟨rfl, (List.cons.inj h).2⟩
    | cons y ys =>
      rw [List.map_cons, intercalate_cons_append] at h
      exact absurd h (hempty y _ _)
  | cons x xs ih =>
    cases ys with
    | nil =>
      rw [List.map_cons, intercalate_cons_append] at h
      exact absurd h.symm (hempty x _ _)
    | cons y ys =>
      rw [List.map_cons, List.map_cons, intercalate_cons_append, intercalate_cons_append] at h
      obtain ⟨rfl, hbehind⟩ := hread x List.mem_cons_self y List.mem_cons_self _ _ (hborder _ _) (hborder _ _) h
      have hrest : [',', ' '].intercalate (xs.map text) ++ close :: r =
          [',', ' '].intercalate (ys.map text) ++ close :: s := by
        cases xs <;> cases ys
        · exact hbehind
        · exact absurd (List.cons.inj hbehind).1 (by rcases hclose with rfl | rfl <;> decide)
        · exact absurd (List.cons.inj hbehind).1 (by rcases hclose with rfl | rfl <;> decide)
        · exact (List.cons.inj (List.cons.inj hbehind).2).2
      have hread' := fun x hx y hy => hread x (List.mem_cons_of_mem _ hx) y (List.mem_cons_of_mem _ hy)
      obtain ⟨rfl, rfl⟩ := ih hread' hrest
      exact ⟨rfl, rfl⟩

end Joined

/-! ## Values -/

namespace Value

variable {v w : Value} {r s : List Char}

theorem shownElems_eq (vs : List Value) : shownElems vs = vs.map shown := by
  induction vs with
  | nil => rfl
  | cons v vs ih => rw [shownElems, ih, List.map_cons]

/-- The text of an entry of a map. -/
def entryText (e : Key × Value) : List Char := e.1.display.toList ++ ':' :: ' ' :: e.2.shown.toList

theorem shownEntries_eq (es : List (Key × Value)) : (shownEntries es).map String.toList = es.map entryText := by
  induction es with
  | nil => rfl
  | cons e es ih =>
    obtain ⟨k, v⟩ := e
    rw [shownEntries, List.map_cons, List.map_cons, ih, entryText, String.toList_append, String.toList_append,
      List.append_assoc]
    rfl

theorem shown_list_append (vs : List Value) (r : List Char) : (list vs).shown.toList ++ r =
    '[' :: ([',', ' '].intercalate (vs.map fun v => v.shown.toList) ++ ']' :: r) := by
  rw [shown, String.toList_append, String.toList_append, String.toList_intercalate, shownElems_eq, List.map_map]
  simp [Function.comp_def]

theorem shown_map_append (es : List (Key × Value)) (r : List Char) : (map es).shown.toList ++ r =
    '\x7b' :: ([',', ' '].intercalate (es.map entryText) ++ '\x7d' :: r) := by
  rw [shown, String.toList_append, String.toList_append, String.toList_intercalate, shownEntries_eq]
  simp

theorem shown_function_append (f : FunctionRef) (r : List Char) : (function f).shown.toList ++ r =
    "<fn@".toList ++ ((toString f.entry).toList ++ '/' :: ((toString f.arity).toList ++ '>' :: r)) := by
  simp [shown]

theorem shown_function_append_inj {f g : FunctionRef}
    (h : (function f).shown.toList ++ r = (function g).shown.toList ++ s) : f = g ∧ r = s := by
  have hplain : ∀ {c : Char}, c.isDigit = false → ∀ n : Nat, ∀ d ∈ (toString n).toList, d ≠ c := fun hc n d hd =>
    (Source.ne_of_class hc (Source.isDigit_of_mem_digits hd)).symm
  rw [shown_function_append, shown_function_append] at h
  obtain ⟨hentry, hbar⟩ := append_inj_of_border (P := (· = '/')) (hplain (by decide) _) (hplain (by decide) _)
    (by simp) (by simp) (List.append_cancel_left h)
  obtain ⟨harity, hend⟩ := append_inj_of_border (P := (· = '>')) (hplain (by decide) _) (hplain (by decide) _)
    (by simp) (by simp) (List.cons.inj hbar).2
  obtain ⟨entry, arity⟩ := f
  obtain rfl := natText_inj hentry
  obtain rfl := natText_inj harity
  exact ⟨rfl, (List.cons.inj hend).2⟩

/-- **A value** can be told from what is behind it, by induction on the value. -/
theorem Reduced.shown_append_inj (hv : v.Reduced) (hw : w.Reduced) (hr : IsBorder r) (hs : IsBorder s)
    (h : v.shown.toList ++ r = w.shown.toList ++ s) : v = w ∧ r = s := by
  have hkind : v.kind = w.kind := kind_eq_of_shown h
  induction hv generalizing w r s with
  | unit =>
    cases w with
    | unit => exact ⟨rfl, List.append_cancel_left h⟩
    | _ => cases hkind
  | num hx =>
    cases hw with
    | num hy => exact (hx.display_append_inj hy hr hs h).imp_left (congrArg Value.num)
    | _ => cases hkind
  | bool b =>
    cases w with
    | bool c => exact (boolText_append_inj h).imp_left (congrArg Value.bool)
    | _ => cases hkind
  | str x =>
    cases w with
    | str y => exact (Text.quoted_append_inj h).imp_left (congrArg Value.str)
    | _ => cases hkind
  | @list vs _ ih =>
    cases hw with
    | @list ws hws =>
      rw [shown_list_append, shown_list_append] at h
      refine (joined_append_inj (.inl rfl) (fun x => ?_) (fun x hx y hy t u ht hu hxy => ?_)
        (List.cons.inj h).2).imp_left (congrArg Value.list)
      · obtain ⟨c, cs, hcs, hc⟩ := x.exists_shown_cons
        exact ⟨c, cs, hcs, hc ▸ rfl⟩
      · exact ih x hx (hws y hy) ht hu hxy (kind_eq_of_shown hxy)
    | _ => cases hkind
  | @map es hkeys _ ih =>
    cases hw with
    | @map fs hkeys' hvalues' =>
      rw [shown_map_append, shown_map_append] at h
      refine (joined_append_inj (.inr rfl) (fun e => ?_) (fun e he f hf t u ht hu hef => ?_)
        (List.cons.inj h).2).imp_left (congrArg Value.map)
      · obtain ⟨c, cs, hcs, hc⟩ := (ofKey e.1).exists_shown_cons
        rw [← Key.display_eq_shown] at hcs
        exact ⟨c, _, by rw [entryText, hcs]; rfl, hc ▸ rfl⟩
      · -- the key ends at the colon, the value at the border behind the entry
        rw [entryText, entryText, List.append_assoc, List.append_assoc] at hef
        obtain ⟨hkey, hvalue⟩ := (hkeys e he).display_append_inj (hkeys' f hf) (isBorder_cons (by decide))
          (isBorder_cons (by decide)) hef
        have hvalue := (List.cons.inj (List.cons.inj hvalue).2).2
        obtain ⟨hvalue, hrest⟩ := ih e he (hvalues' f hf) ht hu hvalue (kind_eq_of_shown hvalue)
        exact ⟨Prod.ext hkey hvalue, hrest⟩
    | _ => cases hkind
  | function f =>
    cases w with
    | function g => exact (shown_function_append_inj h).imp_left (congrArg Value.function)
    | _ => cases hkind

/-- The value is a list or a map. -/
def IsCollection : Value → Prop
  | list _ | map _ => True
  | _ => False

theorem IsCollection.display_eq_shown (h : v.IsCollection) : v.display = v.shown := by
  cases v <;> first | rfl | exact h.elim

/-- **Printed collections are unambiguous.** Two lists or maps, with whatever is nested in them and with all numbers
in lowest terms, are the same if they are printed the same, down to the order of elements and entries. -/
theorem display_inj (hv : v.IsCollection) (hw : w.IsCollection) (hvr : v.Reduced) (hwr : w.Reduced)
    (h : v.display = w.display) : v = w := by
  rw [hv.display_eq_shown, hw.display_eq_shown] at h
  exact (hvr.shown_append_inj hwr isBorder_nil isBorder_nil (congrArg (·.toList ++ []) h)).1

/-- A string that looks like an entry, next to a list. -/
def sampleEntries (n : Fraction) : Value := map [(.str "a: 1, \"b", list [num n, unit])]

theorem display_inj_entries :
    (sampleEntries (.reduced 2 4 (by decide))).display = (sampleEntries ⟨1, 2, by decide⟩).display ∧
      sampleEntries (.reduced 2 4 (by decide)) = sampleEntries ⟨1, 2, by decide⟩ := by
  have hreduced : ∀ {n : Fraction}, n.IsReduced → (sampleEntries n).Reduced := fun hn =>
    .map (by simp [Key.Reduced]) (by simpa using .list (by simpa using ⟨.num hn, .unit⟩))
  exact ⟨rfl, display_inj trivial trivial (hreduced (Fraction.isReduced_reduced ..))
    (hreduced ⟨by decide, by decide⟩) rfl⟩

end Value

end ExactScript
