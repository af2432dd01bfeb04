import ExactScript.Proofs.Contents

/-!
# Functions inside values

Functions are values and can be hidden in lists and maps. No operation makes a function: every function
in a result was in an operand before.

## Contents
* `Value.Within`, a property of every function in a value, which is hereditary;
* what operations give in this respect, and `gives_combine`, the same for instructions;
* `Memory.Within`, `Machine.Within`, kept by every effect.
-/

namespace ExactScript

variable {φ : FunctionRef → Prop}

/-! ## Values -/

mutual

/-- Every function in the value satisfies `φ`. -/
def Value.Within (φ : FunctionRef → Prop) : Value → Prop
  | .function f => φ f
  | .list elems => WithinElems φ elems
  | .map entries => WithinEntries φ entries
  | .unit => True
  | .num _ => True
  | .bool _ => True
  | .str _ => True

def WithinElems (φ : FunctionRef → Prop) : List Value → Prop
  | [] => True
  | v :: vs => v.Within φ ∧ WithinElems φ vs

def WithinEntries (φ : FunctionRef → Prop) : List (Key × Value) → Prop
  | [] => True
  | (_, v) :: es => v.Within φ ∧ WithinEntries φ es

end

theorem withinElems_iff {vs : List Value} : WithinElems φ vs ↔ ∀ v ∈ vs, v.Within φ := by
  induction vs with
  | nil => exact iff_of_true trivial nofun
  | cons v vs ih =>
    show v.Within φ ∧ WithinElems φ vs ↔ _
    rw [ih, List.forall_mem_cons]

theorem withinEntries_iff {es : Entries Value} : WithinEntries φ es ↔ ∀ e ∈ es, e.2.Within φ := by
  induction es with
  | nil => exact iff_of_true trivial nofun
  | cons e es ih =>
    show e.2.Within φ ∧ WithinEntries φ es ↔ _
    rw [ih, List.forall_mem_cons]

mutual

theorem Value.Within.mono {ψ : FunctionRef → Prop} (hψ : ∀ f, φ f → ψ f) :
    {v : Value} → v.Within φ → v.Within ψ
  | .function f, h => hψ f h
  | .list _, h => withinElems_mono hψ h
  | .map _, h => withinEntries_mono hψ h
  | .unit, _ => trivial
  | .num _, _ => trivial
  | .bool _, _ => trivial
  | .str _, _ => trivial

theorem withinElems_mono {ψ : FunctionRef → Prop} (hψ : ∀ f, φ f → ψ f) :
    {vs : List Value} → WithinElems φ vs → WithinElems ψ vs
  | [], _ => trivial
  | _ :: _, h => ⟨h.1.mono hψ, withinElems_mono hψ h.2⟩

theorem withinEntries_mono {ψ : FunctionRef → Prop} (hψ : ∀ f, φ f → ψ f) :
    {es : List (Key × Value)} → WithinEntries φ es → WithinEntries ψ es
  | [], _ => trivial
  | _ :: _, h => ⟨h.1.mono hψ, withinEntries_mono hψ h.2⟩

end

mutual

/-- What holds of all functions holds of those in a value. -/
theorem Value.within_of_forall (h : ∀ f, φ f) : (v : Value) → v.Within φ
  | .function f => h f
  | .list elems => withinElems_of_forall h elems
  | .map entries => withinEntries_of_forall h entries
  | .unit => trivial
  | .num _ => trivial
  | .bool _ => trivial
  | .str _ => trivial

theorem withinElems_of_forall (h : ∀ f, φ f) : (vs : List Value) → WithinElems φ vs
  | [] => trivial
  | v :: vs => ⟨v.within_of_forall h, withinElems_of_forall h vs⟩

theorem withinEntries_of_forall (h : ∀ f, φ f) : (es : List (Key × Value)) → WithinEntries φ es
  | [] => trivial
  | (_, v) :: es => ⟨v.within_of_forall h, withinEntries_of_forall h es⟩

end

namespace Value

@[simp] theorem within_function {f : FunctionRef} : (function f).Within φ ↔ φ f := Iff.rfl
@[simp] theorem within_unit : unit.Within φ := trivial
@[simp] theorem within_num {n : Fraction} : (num n).Within φ := trivial
@[simp] theorem within_bool {b : Bool} : (bool b).Within φ := trivial
@[simp] theorem within_str {s : String} : (str s).Within φ := trivial

@[simp] theorem within_list {vs : List Value} : (list vs).Within φ ↔ ∀ v ∈ vs, v.Within φ :=
  withinElems_iff

@[simp] theorem within_map {es : Entries Value} : (map es).Within φ ↔ ∀ e ∈ es, e.2.Within φ :=
  withinEntries_iff

@[simp] theorem within_ofLiteral {l : Literal} : (ofLiteral l).Within φ := by cases l <;> simp [ofLiteral]

@[simp] theorem within_ofKey {k : Key} : (ofKey k).Within φ := by cases k <;> simp [ofKey]

end Value

/-! ## Operations -/

section Operators

theorem gives_power (x y : Fraction) : Gives (fun _ => True) (x.power y) := by
  unfold Fraction.power
  dsimp only
  split
  · trivial
  split
  · trivial
  split
  · split <;> trivial
  · trivial

/-- No operator answers with a function. -/
theorem gives_binary (op : BinaryOp) (l r : Value) : Gives (Value.Within φ) (op.apply l r) := by
  cases op with
  | eq => exact .ok Value.within_bool
  | ne => exact .ok Value.within_bool
  | lt => exact (gives_ordering .lt l r).bind fun _ _ => .ok Value.within_bool
  | gt => exact (gives_ordering .gt l r).bind fun _ _ => .ok Value.within_bool
  | le => exact (gives_ordering .le l r).bind fun _ _ => .ok Value.within_bool
  | ge => exact (gives_ordering .ge l r).bind fun _ _ => .ok Value.within_bool
  | add =>
    simp only [BinaryOp.apply]
    split
    · exact .ok Value.within_str
    · exact (gives_numbers .add _ _).bind fun _ _ => .ok Value.within_num
  | sub => exact (gives_numbers .sub l r).bind fun _ _ => .ok Value.within_num
  | mul => exact (gives_numbers .mul l r).bind fun _ _ => .ok Value.within_num
  | div =>
    refine (gives_numbers .div l r).bind fun _ _ => ?_
    dsimp only
    split
    · exact .ok Value.within_num
    · trivial
  | floorDiv =>
    refine (gives_integers .floorDiv l r).bind fun _ _ => ?_
    dsimp only
    split
    · trivial
    · exact .ok Value.within_num
  | rem =>
    refine (gives_integers .rem l r).bind fun _ _ => ?_
    dsimp only
    split
    · trivial
    · exact .ok Value.within_num
  | pow =>
    exact (gives_numbers .pow l r).bind fun _ _ => (gives_power _ _).bind fun _ _ => .ok Value.within_num

theorem gives_unary (op : UnaryOp) (v : Value) : Gives (Value.Within φ) (op.apply v) := by
  cases op <;> cases v <;> first | exact .ok Value.within_num | exact .ok Value.within_bool | trivial

end Operators

section Collections

variable {v w k : Value}

/-- Keys hold no functions. -/
theorem hereditary_within : Hereditary (Value.Within φ) fun _ => True where
  unit := Value.within_unit
  bool _ := Value.within_bool
  str _ := Value.within_str
  ofNat _ := Value.within_num
  list := Value.within_list
  map := by simp
  ofKey _ := Value.within_ofKey
  toKey _ _ := trivial

theorem gives_ofFlat {flat : List Value} (h : ∀ v ∈ flat, v.Within φ) :
    Gives (Value.Within φ) (Value.ofFlat flat) :=
  Hereditary.ofFlat hereditary_within h

theorem gives_replicate {n : Nat} (hv : v.Within φ) : Gives (Value.Within φ) (v.replicate n) :=
  Hereditary.replicate hereditary_within hv

theorem gives_filled (hv : v.Within φ) : Gives (Value.Within φ) (v.filled w) :=
  Hereditary.filled hereditary_within hv

theorem gives_concat (vs : List Value) : Gives (Value.Within φ) (Value.concat vs) :=
  Hereditary.concat hereditary_within vs

theorem gives_sliced {start stop step : Value} : Gives (Value.Within φ) (v.sliced start stop step) :=
  Hereditary.sliced hereditary_within

theorem gives_find (hv : v.Within φ) : Gives (Value.Within φ) (v.find k) :=
  Hereditary.find hereditary_within hv

theorem gives_put (hv : v.Within φ) (hw : w.Within φ) : Gives (Value.Within φ) (v.put k w) :=
  Hereditary.put hereditary_within hv (fun _ _ => trivial) hw

theorem gives_delete (hv : v.Within φ) : Gives (Value.Within φ) (v.delete k) :=
  Hereditary.delete hereditary_within hv

theorem gives_query (op : QueryOp) (hv : v.Within φ) : Gives (Value.Within φ) (op.apply v) :=
  Hereditary.query hereditary_within op hv

theorem gives_update (op : UpdateOp) (hv : v.Within φ) (hw : w.Within φ) :
    Gives (Value.Within φ) (op.apply v w) :=
  Hereditary.update hereditary_within op hv hw

end Collections

/-- **Instructions make no functions**, but for the one that is meant to. -/
theorem gives_combine {i : Instr Nat} {ops : List Value} {r : Except RunError Value}
    (h : i.combine ops = some r) (hops : ∀ v ∈ ops, v.Within φ)
    (hnew : ∀ entry arity, i = .makeFunction entry arity → φ ⟨entry, arity⟩) :
    Gives (Value.Within φ) r :=
  Hereditary.combine hereditary_within h hops (fun _ _ => Value.within_ofLiteral)
    (fun op x y _ _ => gives_binary op x y) (fun op x _ => gives_unary op x)
    fun entry arity hmake => Value.within_function.mpr (hnew entry arity hmake)

/-! ## Memory and machines -/

/-- Every function in the values of the map satisfies `φ`. -/
def IdMap.Within (φ : FunctionRef → Prop) (m : IdMap Value) : Prop :=
  ∀ id v, m.get? id = some v → v.Within φ

namespace Memory

/-- Every function that is stored satisfies `φ`. -/
structure Within (φ : FunctionRef → Prop) (m : Memory) : Prop where
  globals : m.globals.Within φ
  locals : ∀ f ∈ m.frames, f.locals.Within φ

variable {m : Memory} {id : Nat} {v : Value}

theorem within_iff : m.Within φ ↔ m.Everywhere fun _ v => v.Within φ :=
  ⟨fun h => ⟨h.globals, h.locals⟩, fun h => ⟨h.globals, h.locals⟩⟩

namespace Within

theorem empty : Memory.empty.Within φ := within_iff.mpr .empty

theorem load (hm : m.Within φ) (h : m.load id = some v) : v.Within φ := (within_iff.mp hm).load h

theorem store (hm : m.Within φ) (hv : v.Within φ) (id : Nat) : (m.store id v).Within φ :=
  within_iff.mpr ((within_iff.mp hm).store hv)

theorem pushFrame (hm : m.Within φ) (address : Nat) (f : FunctionRef) :
    (m.pushFrame { returnAddress := address, function := f }).Within φ :=
  within_iff.mpr ((within_iff.mp hm).pushFrame address f)

theorem popFrame {f : Frame} {m' : Memory} (hm : m.Within φ) (h : m.popFrame? = some (f, m')) :
    m'.Within φ :=
  within_iff.mpr ((within_iff.mp hm).popFrame h)

end Within

end Memory

namespace Machine

/-- Every function on the stack and in the memory satisfies `φ`. -/
structure Within (φ : FunctionRef → Prop) (m : Machine) : Prop where
  stack : ∀ v ∈ m.stack, v.Within φ
  memory : m.memory.Within φ

theorem within_iff {m : Machine} : m.Within φ ↔ m.Everywhere (Value.Within φ) :=
  ⟨fun h => ⟨h.stack, Memory.within_iff.mp h.memory⟩, fun h => ⟨h.stack, Memory.within_iff.mpr h.memory⟩⟩

theorem within_load (m : Machine) (p : Program) : (m.load p).Within φ := within_iff.mpr (everywhere_load m p)

theorem Within.mono {ψ : FunctionRef → Prop} {m : Machine} (hψ : ∀ f, φ f → ψ f) (hm : m.Within φ) :
    m.Within ψ where
  stack v hv := (hm.stack v hv).mono hψ
  memory := ⟨fun id v hv => (hm.memory.globals id v hv).mono hψ,
    fun f hf id v hv => (hm.memory.locals f hf id v hv).mono hψ⟩

/-- **No instruction brings a function that was not there**, but for the one that makes it. -/
theorem Effect.within {m m' : Machine} {i : Instr Nat} (h : Effect m i m') (hm : m.Within φ)
    (hnew : ∀ entry arity, i = .makeFunction entry arity → φ ⟨entry, arity⟩) : m'.Within φ :=
  within_iff.mpr <| h.everywhere (within_iff.mp hm) (fun _ => Value.within_str)
    fun _ _ hc hops => gives_combine hc hops hnew

/-- A call finds what holds of every function. -/
theorem Within.callee {m : Machine} {f : FunctionRef} {s : Stack} (hm : m.Within φ)
    (hs : m.stack = .function f :: s) : φ f :=
  Value.within_function.mp (hm.stack _ (by simp [hs]))

end Machine

end ExactScript
