import Mathlib.Data.List.Forall2
import Mathlib.Data.List.Perm.Basic
import ExactScript.Proofs.Dictionaries

/-!
# Equality

Values are compared by what they are made of: numbers by their values, lists element by element, and a map with
another one by looking up each of its entries there. That this is an equivalence is not seen from maps as they
are compared, for the lookups go only from the left to the right; it takes the numbers of entries and the fact
that the keys of a map are different. Then two maps are equal just if the entries of one are those of the other in
another order, and such matchings of entries can be turned around and composed.

The same comparison decides where things are in a map: what is put under a key is found under the keys that are
equal to it, and under no others.

## Contents
* `Value.Equal`, and `Value.Alike`, what values that are equal look like;
* `Entries.Distinct` and `Value.Keyed`, the keys of a map are different, at every depth;
* `Entries.Matching`, entries up to their order: `exists_matching` and `Matching.found`, from lookups and back,
  `Matching.turned` and `Matching.composed`;
* `Value.Keyed.refl`, `Value.Keyed.symm` and `Value.Keyed.trans`, an equivalence;
* `Value.equal_map_iff_find` and `Value.find_put_ofKey`, equality and what is found in maps;
* `Value.equality_laws`, the theorem.
-/

namespace ExactScript

/-! ## Lists that are related element by element -/

section Forall₂

variable {α β γ : Type} {R : α → β → Prop} {S : β → γ → Prop} {as : List α} {bs : List β} {cs : List γ}

theorem forall₂_turned {R' : β → α → Prop} (h : List.Forall₂ R as bs)
    (hturn : ∀ a ∈ as, ∀ b ∈ bs, R a b → R' b a) : List.Forall₂ R' bs as := by
  induction h with
  | nil => exact .nil
  | cons hab _ ih =>
    exact .cons (hturn _ List.mem_cons_self _ List.mem_cons_self hab)
      (ih fun a ha b hb => hturn a (List.mem_cons_of_mem _ ha) b (List.mem_cons_of_mem _ hb))

theorem forall₂_composed {T : α → γ → Prop} (h : List.Forall₂ R as bs) (h' : List.Forall₂ S bs cs)
    (hcomp : ∀ a ∈ as, ∀ b ∈ bs, ∀ c ∈ cs, R a b → S b c → T a c) : List.Forall₂ T as cs := by
  induction h generalizing cs with
  | nil =>
    cases h'
    exact .nil
  | cons hab _ ih =>
    cases h' with
    | cons hbc htail =>
      refine .cons (hcomp _ List.mem_cons_self _ List.mem_cons_self _ List.mem_cons_self hab hbc) (ih htail ?_)
      exact fun a ha b hb c hc =>
        hcomp a (List.mem_cons_of_mem _ ha) b (List.mem_cons_of_mem _ hb) c (List.mem_cons_of_mem _ hc)

end Forall₂

/-! ## Entries -/

namespace Entries

variable {es fs : Entries Value} {j k : Key} {v : Value} {R : Value → Value → Prop}

/-- No two entries have the same key. -/
def Distinct (es : Entries Value) : Prop := (es.map Prod.fst).Pairwise fun j k => j.same k = false

/-- The entries are the same up to their order and up to keys that are the same, with values that are related. -/
def Matching (R : Value → Value → Prop) (es fs : Entries Value) : Prop :=
  ∃ gs, List.Forall₂ (fun e g => e.1.same g.1 = true ∧ R e.2 g.2) es gs ∧ gs.Perm fs

theorem get?_congr (h : j.same k = true) : get? es j = get? es k := by
  induction es with
  | nil => rfl
  | cons e es ih =>
    obtain ⟨i, w⟩ := e
    simp only [get?, ih, Key.same_comm i, Key.same_congr h]

theorem get?_append : get? (es ++ fs) k = (get? es k).or (get? fs k) := by
  induction es with
  | nil => rfl
  | cons e es ih =>
    obtain ⟨i, w⟩ := e
    simp only [List.cons_append, get?, ih]
    split <;> rfl

/-- An entry is found under its key. -/
theorem Distinct.get?_of_mem (h : es.Distinct) (hmem : (j, v) ∈ es) (hjk : j.same k = true) :
    get? es k = some v := by
  induction es with
  | nil => cases hmem
  | cons e es ih =>
    obtain ⟨i, w⟩ := e
    obtain ⟨hhead, htail⟩ := List.pairwise_cons.mp h
    rw [get?]
    rcases List.mem_cons.mp hmem with heq | hmem
    · cases heq
      rw [if_pos hjk]
    · have hij : i.same j = false := hhead j (List.mem_map_of_mem hmem)
      have hik : i.same k = false := by rw [Key.same_comm, ← Key.same_congr hjk, Key.same_comm, hij]
      rw [hik]
      exact ih htail hmem

/-- What holds of entries holds of what is found. -/
theorem found_of_get? (h : ∀ e ∈ es, ∃ w, get? fs e.1 = some w ∧ R e.2 w) (hv : get? es k = some v) :
    ∃ w, get? fs k = some w ∧ R v w := by
  obtain ⟨before, j, after, rfl, hj, -, -⟩ := insert_of_get? (w := v) hv
  rw [← get?_congr hj]
  exact h (j, v) (by simp)

/-- When all entries of both are found in the other ones, there is something at the same keys. -/
theorem rel_get? {S : Value → Value → Prop} (h : ∀ e ∈ es, ∃ w, get? fs e.1 = some w ∧ R e.2 w)
    (hback : ∀ f ∈ fs, ∃ v, get? es f.1 = some v ∧ S f.2 v) (k : Key) :
    Option.Rel R (get? es k) (get? fs k) := by
  cases hget : get? es k with
  | some v =>
    obtain ⟨w, hw, hvw⟩ := found_of_get? h hget
    exact hw ▸ .some hvw
  | none =>
    cases hget' : get? fs k with
    | none => exact .none
    | some w =>
      obtain ⟨v, hv, -⟩ := found_of_get? hback hget'
      rw [hget] at hv
      cases hv

/-- **From lookups to a matching.** As many entries with different keys, all of which are found, are all that there
is to find. -/
theorem exists_matching (hes : es.Distinct) (hlength : es.length = fs.length)
    (h : ∀ e ∈ es, ∃ w, get? fs e.1 = some w ∧ R e.2 w) : Matching R es fs := by
  induction es generalizing fs with
  | nil => exact ⟨[], .nil, (List.length_eq_zero_iff.mp hlength.symm) ▸ .refl _⟩
  | cons e es ih =>
    obtain ⟨hhead, htail⟩ := List.pairwise_cons.mp hes
    obtain ⟨⟨w, hw, hR⟩, h⟩ := List.forall_mem_cons.mp h
    obtain ⟨before, j, after, rfl, hj, -, -⟩ := insert_of_get? (w := w) hw
    -- the other entries are found among the others
    have hothers : ∀ f ∈ es, ∃ u, get? (before ++ after) f.1 = some u ∧ R f.2 u := by
      intro f hf
      obtain ⟨u, hu, hRu⟩ := h f hf
      have hdiffers : ¬j.same f.1 = true := by
        rw [Key.same_congr hj, hhead f.1 (List.mem_map_of_mem hf)]
        decide
      rw [get?_append, get?, if_neg hdiffers, ← get?_append] at hu
      exact ⟨u, hu, hRu⟩
    have hrest : es.length = (before ++ after).length := by
      simp only [List.length_append, List.length_cons] at hlength ⊢
      omega
    obtain ⟨gs, hgs, hperm⟩ := ih htail hrest hothers
    exact ⟨(j, w) :: gs, .cons ⟨Key.same_comm j e.1 ▸ hj, hR⟩ hgs, (hperm.cons _).trans List.perm_middle.symm⟩

namespace Matching

theorem length_eq (h : Matching R es fs) : es.length = fs.length := by
  obtain ⟨gs, hgs, hperm⟩ := h
  rw [hgs.length_eq, hperm.length_eq]

/-- **From a matching to lookups.** -/
theorem found (h : Matching R es fs) (hfs : fs.Distinct) : ∀ e ∈ es, ∃ w, get? fs e.1 = some w ∧ R e.2 w := by
  obtain ⟨gs, hgs, hperm⟩ := h
  have hmem : ∀ g ∈ gs, g ∈ fs := fun g => hperm.mem_iff.mp
  clear hperm
  induction hgs with
  | nil => nofun
  | @cons e g es gs heg _ ih =>
    obtain ⟨hg, hgs⟩ := List.forall_mem_cons.mp hmem
    refine List.forall_mem_cons.mpr ⟨?_, ih hgs⟩
    exact ⟨g.2, hfs.get?_of_mem hg (Key.same_comm e.1 g.1 ▸ heg.1), heg.2⟩

theorem turned {S : Value → Value → Prop} (h : Matching R es fs)
    (hturn : ∀ e ∈ es, ∀ f ∈ fs, R e.2 f.2 → S f.2 e.2) : Matching S fs es := by
  obtain ⟨gs, hgs, hperm⟩ := h
  have hback : List.Forall₂ (fun g e => g.1.same e.1 = true ∧ S g.2 e.2) gs es :=
    forall₂_turned hgs fun e he g hg heg =>
      ⟨Key.same_comm e.1 g.1 ▸ heg.1, hturn e he g (hperm.mem_iff.mp hg) heg.2⟩
  -- what was put into the order of the first entries is put back
  exact List.perm_comp_forall₂ hperm.symm hback

theorem composed {gs : Entries Value} {S T : Value → Value → Prop} (h : Matching R es fs) (h' : Matching S fs gs)
    (hcomp : ∀ e ∈ es, ∀ f ∈ fs, ∀ g ∈ gs, R e.2 f.2 → S f.2 g.2 → T e.2 g.2) : Matching T es gs := by
  obtain ⟨fs', hes, hperm⟩ := h
  obtain ⟨gs', hfs, hperm'⟩ := h'
  -- both matchings go through the same order of the entries in between
  obtain ⟨gs'', hfs', hperm''⟩ := List.perm_comp_forall₂ hperm hfs
  have hall := hperm''.trans hperm'
  refine ⟨gs'', forall₂_composed hes hfs' fun e he f hf g hg hef hfg => ?_, hall⟩
  exact ⟨(Key.same_congr hef.1 g.1).trans hfg.1,
    hcomp e he f (hperm.mem_iff.mp hf) g (hall.mem_iff.mp hg) hef.2 hfg.2⟩

end Matching

end Entries

namespace Value

/-! ## Equality -/

/-- The comparison `==` answers with `true`. -/
def Equal (x y : Value) : Prop := BinaryOp.eq.apply x y = .ok (.bool true)

/-- Values that are equal. The entries of the first map are found in the second one. -/
inductive Alike : Value → Value → Prop where
  | unit : Alike .unit .unit
  | num {x y : Fraction} (h : x.value = y.value) : Alike (.num x) (.num y)
  | bool (b : Bool) : Alike (.bool b) (.bool b)
  | str (s : String) : Alike (.str s) (.str s)
  | list {xs ys : List Value} (h : List.Forall₂ Equal xs ys) : Alike (.list xs) (.list ys)
  | map {es fs : Entries Value} (hlength : es.length = fs.length)
      (h : ∀ e ∈ es, ∃ w, Entries.get? fs e.1 = some w ∧ Equal e.2 w) : Alike (.map es) (.map fs)
  | function (f : FunctionRef) : Alike (.function f) (.function f)

/-- The keys of every map in the value are different. -/
inductive Keyed : Value → Prop where
  | unit : Keyed .unit
  | num (n : Fraction) : Keyed (.num n)
  | bool (b : Bool) : Keyed (.bool b)
  | str (s : String) : Keyed (.str s)
  | list {vs : List Value} (h : ∀ v ∈ vs, Keyed v) : Keyed (.list vs)
  | map {es : Entries Value} (hdistinct : es.Distinct) (h : ∀ e ∈ es, Keyed e.2) : Keyed (.map es)
  | function (f : FunctionRef) : Keyed (.function f)

variable {x y z v : Value} {xs ys : List Value} {es fs : Entries Value} {j k : Key}

theorem equal_iff_same : Equal x y ↔ x.same y = true := by simp [Equal, BinaryOp.apply]

theorem sameElems_iff : sameElems xs ys = true ↔ List.Forall₂ Equal xs ys := by
  induction xs generalizing ys with
  | nil => cases ys <;> simp [sameElems]
  | cons x xs ih => cases ys <;> simp [sameElems, ih, equal_iff_same]

theorem sameEntries_iff :
    sameEntries es fs = true ↔ ∀ e ∈ es, ∃ w, Entries.get? fs e.1 = some w ∧ Equal e.2 w := by
  induction es with
  | nil => simp [sameEntries]
  | cons e es ih =>
    obtain ⟨k, v⟩ := e
    rw [sameEntries, Bool.and_eq_true, ih, List.forall_mem_cons]
    refine and_congr_left fun _ => ?_
    cases Entries.get? fs k <;> simp [equal_iff_same]

theorem equal_iff : Equal x y ↔ Alike x y := by
  constructor
  · intro h
    have hsame := equal_iff_same.mp h
    cases x <;> cases y <;> simp only [same, Bool.and_eq_true, beq_iff_eq, Bool.false_eq_true] at hsame
    case unit.unit => exact .unit
    case num.num => exact .num (Fraction.same_iff_value.mp hsame)
    case bool.bool => exact hsame ▸ .bool _
    case str.str => exact hsame ▸ .str _
    case list.list => exact .list (sameElems_iff.mp hsame)
    case map.map => exact .map hsame.1 (sameEntries_iff.mp hsame.2)
    case function.function => exact hsame ▸ .function _
  · intro h
    rw [equal_iff_same]
    cases h with
    | unit => rfl
    | num h => exact Fraction.same_iff_value.mpr h
    | bool b => exact beq_self_eq_true b
    | str s => exact beq_self_eq_true s
    | list h => exact sameElems_iff.mpr h
    | map hlength h => exact Bool.and_eq_true_iff.mpr ⟨beq_iff_eq.mpr hlength, sameEntries_iff.mpr h⟩
    | function f => exact beq_self_eq_true f

theorem equal_ofKey : Equal (ofKey j) (ofKey k) ↔ j.same k = true := by rw [equal_iff_same, same_ofKey]

/-- **Equal maps** have the same entries, in any order. -/
theorem equal_map_iff (hes : es.Distinct) (hfs : fs.Distinct) :
    Equal (map es) (map fs) ↔ Entries.Matching Equal es fs := by
  rw [equal_iff]
  constructor
  · intro h
    cases h with
    | map hlength hfound => exact Entries.exists_matching hes hlength hfound
  · intro h
    exact .map h.length_eq (h.found hfs)

/-! ## An equivalence -/

namespace Keyed

theorem refl (h : v.Keyed) : Equal v v := by
  rw [equal_iff]
  induction h with
  | unit => exact .unit
  | num n => exact .num rfl
  | bool b => exact .bool b
  | str s => exact .str s
  | list _ ih => exact .list (List.forall₂_same.mpr fun v hv => equal_iff.mpr (ih v hv))
  | @map es hdistinct _ ih =>
    exact .map rfl fun e he =>
      ⟨e.2, hdistinct.get?_of_mem he (Key.same_self e.1), equal_iff.mpr (ih e he)⟩
  | function f => exact .function f

theorem symm (hx : x.Keyed) (hy : y.Keyed) (h : Equal x y) : Equal y x := by
  induction hx generalizing y with
  | num n =>
    cases equal_iff.mp h with
    | num hvalue => exact equal_iff.mpr (.num hvalue.symm)
  | list _ ih =>
    cases equal_iff.mp h with
    | list hxy =>
      cases hy with
      | list hys => exact equal_iff.mpr (.list (forall₂_turned hxy fun x hx y hy => ih x hx (hys y hy)))
  | @map es hes _ ih =>
    cases equal_iff.mp h with
    | @map _ fs =>
      cases hy with
      | map hfs hvalues =>
        have hmatching := (equal_map_iff hes hfs).mp h
        exact (equal_map_iff hfs hes).mpr (hmatching.turned fun e he f hf => ih e he (hvalues f hf))
  | _ =>
    cases equal_iff.mp h
    exact h

theorem trans (hx : x.Keyed) (hy : y.Keyed) (hz : z.Keyed) (hxy : Equal x y) (hyz : Equal y z) : Equal x z := by
  induction hx generalizing y z with
  | num n =>
    cases equal_iff.mp hxy with
    | num h =>
      cases equal_iff.mp hyz with
      | num h' => exact equal_iff.mpr (.num (h.trans h'))
  | list _ ih =>
    cases equal_iff.mp hxy with
    | list hxs =>
      cases equal_iff.mp hyz with
      | list hys =>
        cases hy with
        | list hy =>
          cases hz with
          | list hz =>
            exact equal_iff.mpr (.list (forall₂_composed hxs hys fun x hx y hy' z hz' =>
              ih x hx (hy y hy') (hz z hz')))
  | @map es hes _ ih =>
    cases equal_iff.mp hxy with
    | @map _ fs =>
      cases equal_iff.mp hyz with
      | @map _ gs =>
        cases hy with
        | map hfs hy =>
          cases hz with
          | map hgs hz =>
            have hesfs := (equal_map_iff hes hfs).mp hxy
            have hfsgs := (equal_map_iff hfs hgs).mp hyz
            exact (equal_map_iff hes hgs).mpr (hesfs.composed hfsgs fun e he f hf g hg =>
              ih e he (hy f hf) (hz g hg))
  | _ =>
    cases equal_iff.mp hxy
    exact hyz

end Keyed

/-! ## Looking up keys -/

theorem toOption_find_ofKey (es : Entries Value) (k : Key) :
    ((map es).find (ofKey k)).toOption = Entries.get? es k := by
  rw [find_ofKey]
  cases Entries.get? es k <;> rfl

theorem toOption_find_of_toKey?_eq_none (h : v.toKey? = none) : ((map es).find v).toOption = none := by
  have hkey : v.key "FIND" = .error (.mismatch "FIND" "num, bool or str" v) := by rw [key, h]
  rw [find, hkey]
  rfl

/-- Values that are equal are the same key, or neither is a key. -/
theorem keys_of_equal (h : Equal x y) :
    (∃ j k, x = ofKey j ∧ y = ofKey k ∧ j.same k = true) ∨ x.toKey? = none ∧ y.toKey? = none := by
  rw [equal_iff_same] at h
  cases hy : y.toKey? with
  | some k =>
    obtain rfl := eq_ofKey hy
    obtain ⟨j, rfl, hjk⟩ := exists_of_same_ofKey h
    exact .inl ⟨j, k, rfl, rfl, hjk⟩
  | none =>
    cases hx : x.toKey? with
    | some j =>
      obtain rfl := eq_ofKey hx
      obtain ⟨k, rfl, -⟩ := exists_of_same_ofKey ((same_ofKey_comm y j).trans h)
      rw [toKey?_ofKey] at hy
      cases hy
    | none => exact .inr ⟨rfl, rfl⟩

/-- **Equal maps**, by what is found in them. -/
theorem equal_map_iff_find (hes : (map es).Keyed) (hfs : (map fs).Keyed) :
    Equal (map es) (map fs) ↔ es.length = fs.length ∧ ∀ j k, Equal j k →
      Option.Rel Equal ((map es).find j).toOption ((map fs).find k).toOption := by
  constructor
  · intro h
    cases equal_iff.mp h with
    | map hlength hfound =>
      cases equal_iff.mp (hes.symm hfs h) with
      | map _ hback =>
        refine ⟨hlength, fun x y hxy => ?_⟩
        rcases keys_of_equal hxy with ⟨j, k, rfl, rfl, hjk⟩ | ⟨hx, hy⟩
        · rw [toOption_find_ofKey, toOption_find_ofKey, ← Entries.get?_congr hjk]
          exact Entries.rel_get? hfound hback j
        · rw [toOption_find_of_toKey?_eq_none hx, toOption_find_of_toKey?_eq_none hy]
          exact .none
  · rintro ⟨hlength, hfound⟩
    cases hes with
    | map hdistinct =>
      refine equal_iff.mpr (.map hlength fun e he => ?_)
      have hrel := hfound (ofKey e.1) (ofKey e.1) (equal_ofKey.mpr (Key.same_self e.1))
      rw [toOption_find_ofKey, toOption_find_ofKey, hdistinct.get?_of_mem he (Key.same_self e.1)] at hrel
      generalize Entries.get? fs e.1 = found at hrel ⊢
      cases hrel with
      | some h => exact ⟨_, rfl, h⟩

/-- **What is put under a key** is found under the keys that are equal to it. -/
theorem find_put_ofKey (es : Entries Value) (j k : Key) (v : Value) : ∃ m, (map es).put (ofKey j) v = .ok m ∧
    (Equal (ofKey j) (ofKey k) → m.find (ofKey k) = .ok v) ∧
    (¬Equal (ofKey j) (ofKey k) → m.find (ofKey k) = (map es).find (ofKey k)) := by
  have hkey : (ofKey j).key "PUT" = .ok j := by rw [key, toKey?_ofKey]
  refine ⟨map (es.insert j v), by rw [put, hkey]; rfl, fun h => ?_, fun h => ?_⟩
  · rw [find_ofKey, Entries.get?_insert, if_pos (equal_ofKey.mp h)]
  · rw [find_ofKey, Entries.get?_insert, if_neg (mt equal_ofKey.mpr h), ← find_ofKey]

/-! ## The theorem -/

/-- **Equality.** Among values in which no map has two equal keys, however deep inside it is, equality is an
equivalence, and `!=` is its negation. Numbers are equal when their values are, whatever their stored forms, and
lists when their elements are. Two maps are equal just if they have the same number of entries and, whatever the
order of these is, under keys that are equal there are values that are equal, or nothing in both. And two keys of
which the second one is not in a map are equal just if what is put under the first one is found under the second
one. -/
theorem equality_laws :
    Equivalence (fun x y : { v : Value // v.Keyed } => Equal x y) ∧
    (∀ x y, BinaryOp.ne.apply x y = .ok (.bool true) ↔ ¬Equal x y) ∧
    (∀ x y, Equal (num x) (num y) ↔ x.value = y.value) ∧
    (∀ xs ys, Equal (list xs) (list ys) ↔ List.Forall₂ Equal xs ys) ∧
    (∀ es fs, (map es).Keyed → (map fs).Keyed →
      (Equal (map es) (map fs) ↔ es.length = fs.length ∧ ∀ j k, Equal j k →
        Option.Rel Equal ((map es).find j).toOption ((map fs).find k).toOption)) ∧
    ∀ es j k v, (map es).find (ofKey k) = .error (.keyNotFound k) →
      ∃ m, (map es).put (ofKey j) v = .ok m ∧ (Equal (ofKey j) (ofKey k) ↔ m.find (ofKey k) = .ok v) := by
  refine ⟨⟨fun x => x.2.refl, fun {x y} => x.2.symm y.2, fun {x y z} => x.2.trans y.2 z.2⟩, fun x y => ?_,
    fun x y => equal_iff_same.trans Fraction.same_iff_value, fun xs ys => equal_iff_same.trans sameElems_iff,
    fun es fs => equal_map_iff_find, fun es j k v hnew => ?_⟩
  · rw [equal_iff_same]
    simp [BinaryOp.apply]
  · obtain ⟨m, hm, hequal, hdiffers⟩ := find_put_ofKey es j k v
    refine ⟨m, hm, hequal, fun hfound => ?_⟩
    by_contra hne
    rw [hdiffers hne, hnew] at hfound
    cases hfound

def sampleThird : Value := .map [(.num ⟨1, 3, by decide⟩, .list [.bool true]), (.str "a", .unit)]

/-- The same, with a third that is not in lowest terms, and in another order. -/
def sampleSixths : Value := .map [(.str "a", .unit), (.num ⟨2, 6, by decide⟩, .list [.bool true])]

theorem equality_laws_reordered :
    Equal sampleThird sampleSixths ∧ Equal sampleSixths sampleThird ∧
    Option.Rel Equal (sampleThird.find (.num ⟨2, 6, by decide⟩)).toOption
      (sampleSixths.find (.num ⟨1, 3, by decide⟩)).toOption ∧
    ∃ m, (map []).put (.num ⟨1, 3, by decide⟩) (.bool true) = .ok m ∧
      m.find (.num ⟨2, 6, by decide⟩) = .ok (.bool true) := by
  have hvalue : Keyed (.list [.bool true]) := .list (by simp [Keyed.bool])
  have hthird : sampleThird.Keyed := .map (by simp [Entries.Distinct, Key.same]) (by simp [Keyed.unit, hvalue])
  have hsixths : sampleSixths.Keyed :=
    .map (by simp [Entries.Distinct, Key.same]) (by simp [Keyed.unit, hvalue])
  obtain ⟨hequivalence, -, -, -, hmap, hput⟩ := equality_laws
  have hequal : Equal sampleThird sampleSixths := rfl
  have hkeys : Equal (.num ⟨2, 6, by decide⟩) (.num ⟨1, 3, by decide⟩) := rfl
  obtain ⟨m, hm, hfound⟩ := hput [] (.num ⟨1, 3, by decide⟩) (.num ⟨2, 6, by decide⟩) (.bool true) rfl
  exact ⟨hequal, hequivalence.symm (x := ⟨_, hthird⟩) (y := ⟨_, hsixths⟩) hequal,
    ((hmap _ _ hthird hsixths).mp hequal).2 _ _ hkeys, m, hm, hfound.mp rfl⟩

end Value

end ExactScript
