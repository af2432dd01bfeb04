import ExactScript.Proofs.References
import ExactScript.Proofs.TypeChecking

/-!
# Operations on values of known types

The check accepts an operation when the types of its operands go with it. Here the operations on values
keep to what the check says: a result is of the type that it computes, and where the operands are of known
types, a failure is not about their kinds, but for the kinds that the check does not tell apart: what can
be a key of a map, and which numbers are integers.

## Contents
* `Ty.Describes`, the values of a type;
* `RunError.Excused`, the failures that remain, and `Fulfils`;
* one lemma for each operation, as `fulfils_binary` or `fulfils_put`.
-/

namespace ExactScript

/-- The values of a type. Of a function it says the number of arguments. -/
inductive Ty.Describes : Ty → Value → Prop
  | any (v : Value) : Describes .any v
  | unit : Describes .unit .unit
  | num (n : Fraction) : Describes .num (.num n)
  | bool (b : Bool) : Describes .bool (.bool b)
  | str (s : String) : Describes .str (.str s)
  | list (vs : List Value) : Describes .list (.list vs)
  | map (es : Entries Value) : Describes .map (.map es)
  | function {n : Nat} {r : Ty} {f : FunctionRef} (h : f.arity = n) : Describes (.function n r) (.function f)

/-! ## Failures -/

namespace RunError

/-- The complaint that a value is no key of a map, or no integer. -/
def AboutPosition : RunError → Prop
  | typeMismatch op expected _ =>
    expected = "num, bool or str" ∧ op ∈ ["BUILD_MAP", "FIND", "PUT", "DELETE"] ∨
      expected = "integer" ∧ op ∈ ["FIND", "PUT", "DELETE", "STR_SLICE"]
  | _ => False

/-- The errors that say what kind of value was found, or how many arguments. -/
def namesKind : RunError → Bool
  | typeMismatch .. | notCallable _ | arityMismatch .. => true
  | _ => false

/-- A failure that does not contradict the types: nothing is called that cannot be called like this, and
a mismatch is about a key, an index or the bound of a slice. -/
structure Excused (e : RunError) : Prop where
  callable : ∀ found, e ≠ .notCallable found
  arity : ∀ expected found, e ≠ .arityMismatch expected found
  mismatch : ∀ op expected found, e = .typeMismatch op expected found → e.AboutPosition

end RunError

section Fulfils

variable {α β : Type} {strict strict' : Prop} {P : α → Prop} {Q : β → Prop}

/-- A result satisfies `P`; a failure is excused, if `strict` holds. -/
def Fulfils (strict : Prop) (P : α → Prop) : Except RunError α → Prop
  | .ok a => P a
  | .error e => strict → e.Excused

theorem Fulfils.ok {a : α} (h : P a) : Fulfils strict P (.ok a) := h

theorem Fulfils.error {e : RunError} (h : e.Excused) : Fulfils strict P (.error e) := fun _ => h

/-- Without strictness only results matter. -/
theorem Fulfils.of_not {m : Except RunError α} (hs : ¬strict) (h : ∀ a, m = .ok a → P a) :
    Fulfils strict P m := by
  cases m with
  | ok a => exact h a rfl
  | error e => exact fun hstrict => absurd hstrict hs

theorem Fulfils.bind {m : Except RunError α} {k : α → Except RunError β} (h : Fulfils strict P m)
    (hk : ∀ a, P a → Fulfils strict Q (k a)) : Fulfils strict Q (m >>= k) := by
  cases m with
  | ok a => exact hk a h
  | error e => exact h

theorem Fulfils.imp {P' : α → Prop} {m : Except RunError α} (h : Fulfils strict P m) (hs : strict' → strict)
    (hP : ∀ a, P a → P' a) : Fulfils strict' P' m := by
  cases m with
  | ok a => exact hP a h
  | error e => exact fun hstrict => h (hs hstrict)

/-- Errors that name no kind are excused. -/
theorem RunError.excused_of_namesKind {e : RunError} (h : e.namesKind = false) : e.Excused where
  callable found heq := by rw [heq] at h; cases h
  arity expected found heq := by rw [heq] at h; cases h
  mismatch op expected found heq := by rw [heq] at h; cases h

theorem RunError.excused_mismatch {op expected : String} {v : Value}
    (h : (RunError.mismatch op expected v).AboutPosition) : (RunError.mismatch op expected v).Excused :=
  ⟨fun _ heq => (by cases heq), fun _ _ heq => (by cases heq), fun _ _ _ _ => h⟩

end Fulfils

/-! ## Operators -/

section Operators

variable {strict : Prop} {l r t : Ty} {v w : Value}

open RunError

theorem accepts_singleton {t u : Ty} : accepts [t] u ↔ t.compatible u := by simp [accepts]

theorem Ty.compatible_comm (t u : Ty) : t.compatible u = u.compatible t := by
  cases t <;> cases u <;> simp [compatible, Bool.beq_comm]

/-- A value of a known type that is accepted as one of another known type is one. -/
theorem Ty.Describes.of_compatible (h : l.Describes v) (hl : l.ground) (ht : t.ground) (hc : l.compatible t) :
    t.Describes v :=
  eq_of_compatible hl ht hc ▸ h

theorem fulfils_numbers (op : BinaryOp) (hv : l.Describes v) (hw : r.Describes w) (hl : l.compatible .num)
    (hr : r.compatible .num) : Fulfils (l.ground ∧ r.ground) (fun _ => True) (op.numbers v w) := by
  by_cases hs : l.ground ∧ r.ground
  · cases hv.of_compatible hs.1 rfl hl
    cases hw.of_compatible hs.2 rfl hr
    exact .ok trivial
  · exact .of_not hs fun _ _ => trivial

theorem fulfils_integers (op : BinaryOp) (hv : l.Describes v) (hw : r.Describes w) (hl : l.compatible .num)
    (hr : r.compatible .num) : Fulfils (l.ground ∧ r.ground) (fun _ => True) (op.integers v w) := by
  refine (fulfils_numbers op hv hw hl hr).bind fun _ _ => ?_
  dsimp only
  split
  · exact .error (excused_of_namesKind rfl)
  split
  · exact .error (excused_of_namesKind rfl)
  · exact .ok trivial

theorem fulfils_ordering (op : BinaryOp) (hv : l.Describes v) (hw : r.Describes w)
    (hl : accepts [.num, .str] l) (hr : l.compatible r) :
    Fulfils (l.ground ∧ r.ground) (fun _ => True) (op.ordering v w) := by
  by_cases hs : l.ground ∧ r.ground
  · obtain rfl := Ty.eq_of_compatible hs.1 hs.2 hr
    simp only [accepts, List.any_cons, List.any_nil, Bool.or_false, Bool.or_eq_true] at hl
    rcases hl with hl | hl
    · rw [Ty.compatible_comm] at hl
      cases hv.of_compatible hs.1 rfl hl
      cases hw.of_compatible hs.1 rfl hl
      exact .ok trivial
    · rw [Ty.compatible_comm] at hl
      cases hv.of_compatible hs.1 rfl hl
      cases hw.of_compatible hs.1 rfl hl
      exact .ok trivial
  · exact .of_not hs fun _ _ => trivial

theorem fulfils_power (x y : Fraction) : Fulfils strict (fun _ => True) (x.power y) := by
  unfold Fraction.power
  dsimp only
  split
  · exact .error (excused_of_namesKind rfl)
  split
  · exact .error (excused_of_namesKind rfl)
  split
  · split
    · exact .ok trivial
    · exact .error (excused_of_namesKind rfl)
  · exact .ok trivial

/-- What the rule of `+` says. -/
theorem BinaryOp.of_sumType (h : BinaryOp.sumType l r = some t) :
    t = .any ∧ l = .any ∨ t = .str ∧ (l = .str ∧ r.compatible .str ∨ r = .str ∧ l.compatible .str) ∨
      t = .num ∧ l.compatible .num ∧ r.compatible .num ∧ (l = .num ∨ r = .num) := by
  cases l <;> cases r <;> simp_all [sumType, Ty.compatible]

/-- The sum of values: strings are joined, numbers added. -/
theorem fulfils_add (hv : l.Describes v) (hw : r.Describes w) (ht : BinaryOp.sumType l r = some t) :
    Fulfils (l.ground ∧ r.ground) t.Describes (BinaryOp.add.apply v w) := by
  rcases BinaryOp.of_sumType ht with ⟨rfl, rfl⟩ | ⟨rfl, hstr⟩ | ⟨rfl, hl, hr, hnum⟩
  · exact .of_not (fun hs => by cases hs.1) fun a _ => .any a
  · by_cases hs : l.ground ∧ r.ground
    · obtain ⟨rfl, rfl⟩ : l = .str ∧ r = .str := by
        rcases hstr with ⟨rfl, hc⟩ | ⟨rfl, hc⟩
        · exact ⟨rfl, Ty.eq_of_compatible hs.2 rfl hc⟩
        · exact ⟨Ty.eq_of_compatible hs.1 rfl hc, rfl⟩
      cases hv
      cases hw
      exact .ok (.str _)
    · refine .of_not hs fun a h => ?_
      rcases hstr with ⟨rfl, -⟩ | ⟨rfl, -⟩
      · cases hv
        cases w <;> cases h
        exact .str _
      · cases hw
        cases v <;> cases h
        exact .str _
  · -- one operand is a number, so no strings are joined
    have happly : BinaryOp.add.apply v w =
        (BinaryOp.add.numbers v w >>= fun xy => .ok (.num (xy.1.add xy.2))) := by
      rcases hnum with rfl | rfl
      · cases hv
        cases w <;> rfl
      · cases hw
        cases v <;> rfl
    rw [happly]
    exact (fulfils_numbers .add hv hw hl hr).bind fun _ _ => .ok (.num _)

/-- **Binary operators.** -/
theorem fulfils_binary {op : BinaryOp} (hv : l.Describes v) (hw : r.Describes w)
    (ht : op.resultType? l r = some t) : Fulfils (l.ground ∧ r.ground) t.Describes (op.apply v w) := by
  have harith : ∀ {l r : Ty}, (if l.compatible .num ∧ r.compatible .num then some Ty.num else none) = some t →
      t = .num ∧ l.compatible .num ∧ r.compatible .num := by
    intro l r h
    split at h
    · next hc => exact ⟨(Option.some.inj h).symm, hc⟩
    · cases h
  have horder : ∀ {l r : Ty}, (if accepts [.num, .str] l ∧ l.compatible r then some Ty.bool else none) = some t →
      t = .bool ∧ accepts [.num, .str] l ∧ l.compatible r := by
    intro l r h
    split at h
    · next hc => exact ⟨(Option.some.inj h).symm, hc⟩
    · cases h
  cases op with
  | eq => cases ht; exact .ok (.bool _)
  | ne => cases ht; exact .ok (.bool _)
  | lt =>
    obtain ⟨rfl, hl, hr⟩ := horder ht
    exact (fulfils_ordering .lt hv hw hl hr).bind fun _ _ => .ok (.bool _)
  | gt =>
    obtain ⟨rfl, hl, hr⟩ := horder ht
    exact (fulfils_ordering .gt hv hw hl hr).bind fun _ _ => .ok (.bool _)
  | le =>
    obtain ⟨rfl, hl, hr⟩ := horder ht
    exact (fulfils_ordering .le hv hw hl hr).bind fun _ _ => .ok (.bool _)
  | ge =>
    obtain ⟨rfl, hl, hr⟩ := horder ht
    exact (fulfils_ordering .ge hv hw hl hr).bind fun _ _ => .ok (.bool _)
  | add => exact fulfils_add hv hw ht
  | sub =>
    obtain ⟨rfl, hl, hr⟩ := harith ht
    exact (fulfils_numbers .sub hv hw hl hr).bind fun _ _ => .ok (.num _)
  | mul =>
    obtain ⟨rfl, hl, hr⟩ := harith ht
    exact (fulfils_numbers .mul hv hw hl hr).bind fun _ _ => .ok (.num _)
  | div =>
    obtain ⟨rfl, hl, hr⟩ := harith ht
    refine (fulfils_numbers .div hv hw hl hr).bind fun _ _ => ?_
    dsimp only
    split
    · exact .ok (.num _)
    · exact .error (excused_of_namesKind rfl)
  | floorDiv =>
    obtain ⟨rfl, hl, hr⟩ := harith ht
    refine (fulfils_integers .floorDiv hv hw hl hr).bind fun _ _ => ?_
    dsimp only
    split
    · exact .error (excused_of_namesKind rfl)
    · exact .ok (.num _)
  | rem =>
    obtain ⟨rfl, hl, hr⟩ := harith ht
    refine (fulfils_integers .rem hv hw hl hr).bind fun _ _ => ?_
    dsimp only
    split
    · exact .error (excused_of_namesKind rfl)
    · exact .ok (.num _)
  | pow =>
    obtain ⟨rfl, hl, hr⟩ := harith ht
    exact (fulfils_numbers .pow hv hw hl hr).bind fun _ _ => (fulfils_power _ _).bind fun _ _ => .ok (.num _)

/-- **Unary operators.** -/
theorem fulfils_unary (op : UnaryOp) (hv : t.Describes v) (ha : accepts [op.type] t) :
    Fulfils t.ground op.type.Describes (op.apply v) := by
  by_cases hs : t.ground
  · rw [accepts_singleton, Ty.compatible_comm] at ha
    cases op with
    | neg =>
      cases hv.of_compatible hs rfl ha
      exact .ok (.num _)
    | not =>
      cases hv.of_compatible hs rfl ha
      exact .ok (.bool _)
  · refine .of_not hs fun a h => ?_
    cases op <;> cases v <;> cases h <;> first | exact .num _ | exact .bool _

theorem describes_literal (l : Literal) : l.type.Describes (.ofLiteral l) := by
  cases l with
  | num n => exact .num n
  | bool b => exact .bool b
  | str s => exact .str s

end Operators

/-! ## Collections -/

section Collections

variable {strict : Prop} {t u : Ty} {v w k : Value}

open RunError

theorem fulfils_key {op : String} (hop : op ∈ ["BUILD_MAP", "FIND", "PUT", "DELETE"]) (v : Value) :
    Fulfils strict (fun _ => True) (v.key op) := by
  have hmismatch : ∀ w : Value, (mismatch op "num, bool or str" w).Excused := fun w =>
    excused_mismatch (.inl ⟨rfl, hop⟩)
  cases v <;> first | exact .ok trivial | exact .error (hmismatch _)

theorem fulfils_position {op : String} (hop : op ∈ ["FIND", "PUT", "DELETE", "STR_SLICE"]) (v : Value)
    (n : Nat) : Fulfils strict (fun _ => True) (v.position op n) := by
  have hmismatch : ∀ w : Value, (mismatch op "integer" w).Excused := fun w =>
    excused_mismatch (.inr ⟨rfl, hop⟩)
  unfold Value.position
  split
  · split
    · split
      · split
        · exact .ok trivial
        · exact .error (excused_of_namesKind rfl)
      · exact .error (excused_of_namesKind rfl)
    · exact .error (hmismatch _)
  · exact .error (hmismatch _)

theorem fulfils_sliceBound (v : Value) : Fulfils strict (fun _ => True) v.sliceBound := by
  have hmismatch : ∀ w : Value, (mismatch "STR_SLICE" "integer" w).Excused := fun w =>
    excused_mismatch (.inr ⟨rfl, by simp⟩)
  unfold Value.sliceBound
  split
  · split
    · split
      · exact .ok trivial
      · exact .error (excused_of_namesKind rfl)
    · exact .error (hmismatch _)
  · exact .error (hmismatch _)

theorem fulfils_ofFlat (flat : List Value) : Fulfils strict Ty.map.Describes (Value.ofFlat flat) := by
  have hentries : ∀ es : Entries Value, Fulfils strict (fun _ => True) (Value.entriesOfFlat es flat) := by
    intro es
    fun_induction Value.entriesOfFlat es flat with
    | case1 es k v rest ih => exact (fulfils_key (by simp) k).bind fun j _ => ih j
    | case2 => exact .ok trivial
  exact (hentries []).bind fun es _ => .ok (.map es)

/-- An operation that is defined on the accepted types, and fails on values of all others. -/
theorem fulfils_of_accepts {α : Type} {P : α → Prop} {accepted : List Ty} (hv : t.Describes v)
    (ha : accepts accepted t) (hall : ∀ u ∈ accepted, u.ground) {m : Except RunError α}
    (hok : ∀ u ∈ accepted, u.Describes v → Fulfils t.ground P m)
    (hno : (∀ u ∈ accepted, ¬u.Describes v) → ∃ e, m = .error e) : Fulfils t.ground P m := by
  by_cases hin : ∃ u ∈ accepted, u.Describes v
  · obtain ⟨u, hu, hd⟩ := hin
    exact hok u hu hd
  · have hout : ∀ u ∈ accepted, ¬u.Describes v := fun u hu hd => hin ⟨u, hu, hd⟩
    obtain ⟨e, rfl⟩ := hno hout
    refine .of_not (fun hs => ?_) fun _ h => by cases h
    obtain ⟨u, hu, hc⟩ := List.any_eq_true.mp ha
    exact hout u hu (Ty.eq_of_compatible (hall u hu) hs hc ▸ hv)

theorem fulfils_of_list {α : Type} {P : α → Prop} (hv : t.Describes v) (ha : accepts [.list] t)
    {f : Value → Except RunError α} (hok : ∀ vs, Fulfils t.ground P (f (.list vs)))
    (hno : ∀ w : Value, w.kind ≠ .list → ∃ e, f w = .error e) : Fulfils t.ground P (f v) := by
  refine fulfils_of_accepts hv ha (by simp [Ty.ground]) (List.forall_mem_singleton.mpr fun h => ?_) fun hno' =>
    hno v fun hk => ?_
  · cases h
    exact hok _
  · cases v <;> cases hk
    exact hno' _ (by simp) (.list _)

theorem fulfils_of_map {α : Type} {P : α → Prop} (hv : t.Describes v) (ha : accepts [.map] t)
    {f : Value → Except RunError α} (hok : ∀ es, Fulfils t.ground P (f (.map es)))
    (hno : ∀ w : Value, w.kind ≠ .map → ∃ e, f w = .error e) : Fulfils t.ground P (f v) := by
  refine fulfils_of_accepts hv ha (by simp [Ty.ground]) (List.forall_mem_singleton.mpr fun h => ?_) fun hno' =>
    hno v fun hk => ?_
  · cases h
    exact hok _
  · cases v <;> cases hk
    exact hno' _ (by simp) (.map _)

theorem fulfils_length {op : String} (hv : t.Describes v) (ha : accepts [.list, .map, .str] t) :
    Fulfils t.ground (fun _ => True) (v.length op) := by
  refine fulfils_of_accepts hv ha (by simp [Ty.ground]) (fun u hu hd => ?_) fun hno => ?_
  · simp only [List.mem_cons, List.not_mem_nil, or_false] at hu
    rcases hu with rfl | rfl | rfl <;> cases hd <;> exact .ok trivial
  · cases v <;> first | exact ⟨_, rfl⟩ | skip
    · exact absurd (.str _) (hno .str (by simp))
    · exact absurd (.list _) (hno .list (by simp))
    · exact absurd (.map _) (hno .map (by simp))

/-- **Queries.** -/
theorem fulfils_query (op : QueryOp) (hv : t.Describes v) (ha : accepts op.accepted t) :
    Fulfils t.ground op.resultType.Describes (op.apply v) := by
  cases op with
  | head =>
    refine fulfils_of_list hv ha (fun vs => ?_) fun w hw => ?_
    · cases vs with
      | nil => exact .error (excused_of_namesKind rfl)
      | cons x xs => exact .ok (.any x)
    · cases w <;> first | exact ⟨_, rfl⟩ | exact absurd rfl hw
  | tail =>
    refine fulfils_of_list hv ha (fun vs => ?_) fun w hw => ?_
    · cases vs with
      | nil => exact .error (excused_of_namesKind rfl)
      | cons x xs => exact .ok (.list xs)
    · cases w <;> first | exact ⟨_, rfl⟩ | exact absurd rfl hw
  | isEmpty => exact (fulfils_length hv ha).bind fun _ _ => .ok (.bool _)
  | length => exact (fulfils_length hv ha).bind fun _ _ => .ok (.num _)
  | keys =>
    refine fulfils_of_map hv ha (fun es => .ok (.list _)) fun w hw => ?_
    cases w <;> first | exact ⟨_, rfl⟩ | exact absurd rfl hw
  | values =>
    refine fulfils_of_map hv ha (fun es => .ok (.list _)) fun w hw => ?_
    cases w <;> first | exact ⟨_, rfl⟩ | exact absurd rfl hw
  | items =>
    refine fulfils_of_map hv ha (fun es => .ok (.list _)) fun w hw => ?_
    cases w <;> first | exact ⟨_, rfl⟩ | exact absurd rfl hw

/-- Types do not tell the values of a kind apart, functions aside. -/
theorem Ty.Describes.of_kind (h : t.Describes v) (hk : w.kind = v.kind) (hf : w.kind ≠ .function) :
    t.Describes w := by
  cases h with
  | any => exact .any w
  | unit => cases w <;> cases hk; exact .unit
  | num => cases w <;> cases hk; exact .num _
  | bool => cases w <;> cases hk; exact .bool _
  | str => cases w <;> cases hk; exact .str _
  | list => cases w <;> cases hk; exact .list _
  | map => cases w <;> cases hk; exact .map _
  | function => exact absurd hk hf

/-- The changed collection `w` is of the kind of `v`. -/
def Value.Resembles (w v : Value) : Prop := w.kind = v.kind ∧ w.kind ≠ .function

theorem fulfils_of_collection {m : Except RunError Value} (hv : t.Describes v)
    (ha : accepts [.list, .map] t) (hlist : ∀ vs, v = .list vs → Fulfils t.ground (Value.Resembles · v) m)
    (hmap : ∀ es, v = .map es → Fulfils t.ground (Value.Resembles · v) m)
    (hno : v.kind ≠ .list → v.kind ≠ .map → ∃ e, m = .error e) : Fulfils t.ground (Value.Resembles · v) m := by
  refine fulfils_of_accepts hv ha (by simp [Ty.ground]) (fun u hu hd => ?_) fun hno' => hno ?_ ?_
  · simp only [List.mem_cons, List.not_mem_nil, or_false] at hu
    rcases hu with rfl | rfl <;> cases hd
    · exact hlist _ rfl
    · exact hmap _ rfl
  · intro hk
    cases v <;> cases hk
    exact hno' .list (by simp) (.list _)
  · intro hk
    cases v <;> cases hk
    exact hno' .map (by simp) (.map _)

/-- **Setting an element** leaves a collection of the same kind. -/
theorem fulfils_put (hv : t.Describes v) (ha : accepts [.list, .map] t) :
    Fulfils t.ground (Value.Resembles · v) (v.put k w) := by
  refine fulfils_of_collection hv ha (fun vs h => ?_) (fun es h => ?_) fun hl hm => ?_
  · subst h
    exact (fulfils_position (by simp) k _).bind fun _ _ => .ok ⟨rfl, by simp [Value.kind]⟩
  · subst h
    exact (fulfils_key (by simp) k).bind fun _ _ => .ok ⟨rfl, by simp [Value.kind]⟩
  · cases v <;> first | exact ⟨_, rfl⟩ | exact absurd rfl hl | exact absurd rfl hm

theorem fulfils_delete (hv : t.Describes v) (ha : accepts [.list, .map] t) :
    Fulfils t.ground (Value.Resembles · v) (v.delete k) := by
  refine fulfils_of_collection hv ha (fun vs h => ?_) (fun es h => ?_) fun hl hm => ?_
  · subst h
    exact (fulfils_position (by simp) k _).bind fun _ _ => .ok ⟨rfl, by simp [Value.kind]⟩
  · subst h
    refine (fulfils_key (by simp) k).bind fun _ _ => ?_
    split
    · exact .ok ⟨rfl, by simp [Value.kind]⟩
    · exact .error (excused_of_namesKind rfl)
  · cases v <;> first | exact ⟨_, rfl⟩ | exact absurd rfl hl | exact absurd rfl hm

/-- A list that is extended stays a list. -/
theorem fulfils_extend {op : UpdateOp} (hop : op ≠ .delete) (hv : t.Describes v) (ha : accepts [.list] t) :
    Fulfils t.ground (fun a => a.kind = .list ∧ v.kind = .list) (op.apply v w) := by
  have hfails : ∀ u : Value, u.kind ≠ .list → ∃ e, op.apply u w = .error e := by
    intro u hu
    cases op with
    | delete => exact absurd rfl hop
    | _ => cases u <;> first | exact ⟨_, rfl⟩ | exact absurd rfl hu
  refine fulfils_of_accepts hv ha (by simp [Ty.ground]) (List.forall_mem_singleton.mpr fun h => ?_) fun hno =>
    hfails v fun hk => ?_
  · cases h
    cases op with
    | delete => exact absurd rfl hop
    | _ => exact .ok ⟨rfl, rfl⟩
  · cases v <;> cases hk
    exact hno .list (by simp) (.list _)

/-- **Elements.** Of the elements of a string it is known that they are strings. -/
theorem fulfils_find (hv : t.Describes v) (ha : accepts [.list, .map, .str] t) :
    Fulfils t.ground (if t = .str then Ty.str else .any).Describes (v.find k) := by
  by_cases hstr : t = .str
  · subst hstr
    cases hv
    exact (fulfils_position (by simp) k _).bind fun _ _ => .ok (.str _)
  rw [if_neg hstr]
  refine fulfils_of_accepts hv ha (by simp [Ty.ground]) (fun u hu hd => ?_) fun hno => ?_
  · simp only [List.mem_cons, List.not_mem_nil, or_false] at hu
    rcases hu with rfl | rfl | rfl <;> cases hd
    · exact (fulfils_position (by simp) k _).bind fun _ _ => .ok (.any _)
    · refine (fulfils_key (by simp) k).bind fun _ _ => ?_
      split
      · exact .ok (.any _)
      · exact .error (excused_of_namesKind rfl)
    · exact (fulfils_position (by simp) k _).bind fun _ _ => .ok (.any _)
  · cases v <;> first | exact ⟨_, rfl⟩ | skip
    · exact absurd (.str _) (hno .str (by simp))
    · exact absurd (.list _) (hno .list (by simp))
    · exact absurd (.map _) (hno .map (by simp))

theorem fulfils_filled (hw : t.Describes w) (ha : accepts [.num] t) :
    Fulfils t.ground Ty.list.Describes (v.filled w) := by
  refine fulfils_of_accepts hw ha (by simp [Ty.ground]) (List.forall_mem_singleton.mpr fun h => ?_) fun hno => ?_
  · obtain ⟨n⟩ := h
    unfold Value.filled
    dsimp only
    split
    · unfold Value.replicate
      split
      · exact .ok (.list _)
      · exact .error (excused_of_namesKind rfl)
    · exact .error (excused_of_namesKind rfl)
  · cases w <;> first | exact ⟨_, rfl⟩ | exact absurd (.num _) (hno .num (by simp))

/-- **Concatenation** of the values of the given types. -/
theorem fulfils_concat {vs : List Value} {ts : List Ty} (hvs : List.Forall₂ Ty.Describes ts vs)
    (hts : ∀ t ∈ ts, accepts [.str] t) :
    Fulfils (∀ t ∈ ts, t.ground) Ty.str.Describes (Value.concat vs) := by
  have hchars : Fulfils (∀ t ∈ ts, t.ground) (fun _ => True) (Value.charsOfAll vs) := by
    induction hvs with
    | nil => exact .ok trivial
    | @cons t v ts vs hv _ ih =>
      obtain ⟨ht, hts⟩ := List.forall_mem_cons.mp hts
      by_cases hstr : Ty.str.Describes v
      · obtain ⟨s⟩ := hstr
        exact ((ih hts).imp (fun hs u hu => hs u (by simp [hu])) fun _ h => h).bind fun _ _ => .ok trivial
      · refine .of_not (fun hs => hstr ?_) fun _ _ => trivial
        have hground : t.ground := hs t (by simp)
        rw [accepts_singleton, Ty.compatible_comm] at ht
        exact hv.of_compatible hground rfl ht
  exact hchars.bind fun _ _ => .ok (.str _)

/-- **Slices.** -/
theorem fulfils_sliced {a b c : Value} (hv : t.Describes v) (ha : accepts [.str] t) :
    Fulfils t.ground Ty.str.Describes (v.sliced a b c) := by
  refine fulfils_of_accepts hv ha (by simp [Ty.ground]) (List.forall_mem_singleton.mpr fun h => ?_) fun hno => ?_
  · obtain ⟨s⟩ := h
    refine (fulfils_sliceBound a).bind fun _ _ => (fulfils_sliceBound b).bind fun _ _ =>
      (fulfils_sliceBound c).bind fun _ _ => ?_
    split
    · exact .error (excused_of_namesKind rfl)
    · exact .ok (.str _)
  · cases v <;> first | exact ⟨_, rfl⟩ | exact absurd (.str _) (hno .str (by simp))

end Collections

end ExactScript
