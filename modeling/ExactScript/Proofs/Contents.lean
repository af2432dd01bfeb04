import ExactScript.Proofs.Effects

/-!
# What values are made of

Values are put into lists and maps and taken out of them again, stored and loaded. A property of values is
*hereditary* when a collection has it just in case everything in the collection has it. Operations on
collections answer with what was in their operands, so they keep every hereditary property. What is left for
a particular property is what literals, operators and new functions are like; then it holds of every value
in every state of a run. And an operation that fails blames its operands, not the machine.

## Contents
* `Gives`, what a result and an error of an operation satisfy;
* `Hereditary`, and its rules, one for each operation on collections, up to `Hereditary.combine`;
* `Memory.Everywhere`, `Machine.Everywhere`, and `Machine.Effect.everywhere`.
-/

namespace ExactScript

/-! ## Results -/

/-- The error blames the operands of an operation. -/
def RunError.OfOperation : RunError → Prop
  | divisionByZero => True
  | unsupported _ _ => True
  | indexOutOfBounds _ _ => True
  | keyNotFound _ => True
  | emptyCollection _ => True
  | typeMismatch _ _ _ => True
  | _ => False

/-- A result satisfies `P`, and an error blames operands. -/
def Gives {α : Type} (P : α → Prop) : Except RunError α → Prop
  | .ok a => P a
  | .error e => e.OfOperation

section Gives

variable {α β : Type} {P : α → Prop} {Q : β → Prop}

theorem Gives.ok {a : α} (h : P a) : Gives P (.ok a) := h

theorem Gives.bind {m : Except RunError α} {k : α → Except RunError β} (h : Gives P m)
    (hk : ∀ a, P a → Gives Q (k a)) : Gives Q (m >>= k) := by
  cases m with
  | ok a => exact hk a h
  | error e => exact h

end Gives

/-! ## What operations read of their operands -/

theorem gives_numbers (op : BinaryOp) (l r : Value) :
    Gives (fun xy => l = .num xy.1 ∧ r = .num xy.2) (op.numbers l r) := by
  cases l <;> cases r <;> first | exact ⟨rfl, rfl⟩ | trivial

theorem gives_integers (op : BinaryOp) (l r : Value) : Gives (fun _ => True) (op.integers l r) :=
  (gives_numbers op l r).bind fun _ _ => by
    dsimp only
    split
    · trivial
    split <;> trivial

theorem gives_ordering (op : BinaryOp) (l r : Value) : Gives (fun _ => True) (op.ordering l r) := by
  cases l <;> cases r <;> trivial

theorem gives_charsOfAll (vs : List Value) : Gives (fun _ => True) (Value.charsOfAll vs) := by
  fun_induction Value.charsOfAll vs with
  | case1 => trivial
  | case2 s vs ih => exact ih.bind fun _ _ => trivial
  | case3 => trivial

theorem gives_position (op : String) (v : Value) (n : Nat) : Gives (· < n) (v.position op n) := by
  unfold Value.position
  split
  · split
    · split
      · split
        · assumption
        · trivial
      · trivial
    · trivial
  · trivial

theorem gives_length (op : String) (v : Value) : Gives (fun _ => True) (v.length op) := by
  cases v <;> trivial

theorem gives_sliceBound (v : Value) : Gives (fun _ => True) v.sliceBound := by
  unfold Value.sliceBound
  split
  · split
    · split <;> trivial
    · trivial
  · trivial

theorem gives_key (op : String) (v : Value) : Gives (fun k => v.toKey? = some k) (v.key op) := by
  cases v <;> first | rfl | trivial

/-! ## Hereditary properties -/

/-- A collection has the property just in case all that is in it has it; `Q` is the property of keys. -/
structure Hereditary (P : Value → Prop) (Q : Key → Prop) : Prop where
  unit : P .unit
  bool : ∀ b, P (.bool b)
  str : ∀ s, P (.str s)
  ofNat : ∀ n, P (.ofNat n)
  list : ∀ {vs}, P (.list vs) ↔ ∀ v ∈ vs, P v
  map : ∀ {es}, P (.map es) ↔ ∀ e ∈ es, Q e.1 ∧ P e.2
  ofKey : ∀ {k}, Q k → P (.ofKey k)
  toKey : ∀ {v k}, P v → v.toKey? = some k → Q k

namespace Entries

variable {P : Value → Prop} {Q : Key → Prop} {es : Entries Value} {k : Key} {v : Value}

theorem forall_insert (hes : ∀ e ∈ es, Q e.1 ∧ P e.2) (hk : Q k) (hv : P v) :
    ∀ e ∈ es.insert k v, Q e.1 ∧ P e.2 := by
  induction es with
  | nil => exact List.forall_mem_singleton.mpr ⟨hk, hv⟩
  | cons f es ih =>
    obtain ⟨j, w⟩ := f
    obtain ⟨hw, hes⟩ := List.forall_mem_cons.mp hes
    simp only [insert]
    split
    · exact List.forall_mem_cons.mpr ⟨⟨hw.1, hv⟩, hes⟩
    · exact List.forall_mem_cons.mpr ⟨hw, ih hes⟩

theorem of_get? (hes : ∀ e ∈ es, Q e.1 ∧ P e.2) (h : es.get? k = some v) : P v := by
  induction es with
  | nil => cases h
  | cons f es ih =>
    obtain ⟨j, w⟩ := f
    obtain ⟨hw, hes⟩ := List.forall_mem_cons.mp hes
    simp only [get?] at h
    split at h
    · cases h
      exact hw.2
    · exact ih hes h

theorem forall_erase? {rest : Entries Value} (hes : ∀ e ∈ es, Q e.1 ∧ P e.2)
    (h : es.erase? k = some rest) : ∀ e ∈ rest, Q e.1 ∧ P e.2 := by
  induction es generalizing rest with
  | nil => cases h
  | cons f es ih =>
    obtain ⟨j, w⟩ := f
    obtain ⟨hw, hes⟩ := List.forall_mem_cons.mp hes
    simp only [erase?] at h
    split at h
    · cases h
      exact hes
    · obtain ⟨tail, htail, rfl⟩ := Option.map_eq_some_iff.mp h
      exact List.forall_mem_cons.mpr ⟨hw, ih hes htail⟩

end Entries

namespace Hereditary

variable {P : Value → Prop} {Q : Key → Prop} {v w k : Value}

theorem entriesOfFlat (h : Hereditary P Q) {es : Entries Value} {flat : List Value}
    (hes : ∀ e ∈ es, Q e.1 ∧ P e.2) (hflat : ∀ v ∈ flat, P v) :
    Gives (fun es : Entries Value => ∀ e ∈ es, Q e.1 ∧ P e.2) (Value.entriesOfFlat es flat) := by
  fun_induction Value.entriesOfFlat es flat with
  | case1 es k v rest ih =>
    obtain ⟨hk, hrest⟩ := List.forall_mem_cons.mp hflat
    obtain ⟨hv, hrest⟩ := List.forall_mem_cons.mp hrest
    exact (gives_key "BUILD_MAP" k).bind fun j hj =>
      ih j (Entries.forall_insert hes (h.toKey hk hj) hv) hrest
  | case2 es => exact hes

theorem ofFlat (h : Hereditary P Q) {flat : List Value} (hflat : ∀ v ∈ flat, P v) :
    Gives P (Value.ofFlat flat) :=
  (h.entriesOfFlat (by simp) hflat).bind fun _ hes => h.map.mpr hes

theorem replicate (h : Hereditary P Q) {n : Nat} (hv : P v) : Gives P (v.replicate n) := by
  unfold Value.replicate
  split
  · exact h.list.mpr fun x hx => List.eq_of_mem_replicate hx ▸ hv
  · trivial

theorem filled (h : Hereditary P Q) (hv : P v) : Gives P (v.filled w) := by
  unfold Value.filled
  split
  · split
    · exact h.replicate hv
    · trivial
  · trivial

theorem concat (h : Hereditary P Q) (vs : List Value) : Gives P (Value.concat vs) :=
  (gives_charsOfAll vs).bind fun _ _ => .ok (h.str _)

theorem sliced (h : Hereditary P Q) {start stop step : Value} : Gives P (v.sliced start stop step) := by
  unfold Value.sliced
  split
  · refine (gives_sliceBound start).bind fun _ _ => (gives_sliceBound stop).bind fun _ _ =>
      (gives_sliceBound step).bind fun _ _ => ?_
    split
    · trivial
    · exact .ok (h.str _)
  · trivial

theorem find (h : Hereditary P Q) (hv : P v) : Gives P (v.find k) := by
  unfold Value.find
  split
  · refine (gives_key _ k).bind fun j _ => ?_
    split
    · next hget => exact Entries.of_get? (h.map.mp hv) hget
    · trivial
  · next elems =>
    refine (gives_position _ k _).bind fun i hi => ?_
    rw [List.getD_eq_getElem?_getD, List.getElem?_eq_getElem hi, Option.getD_some]
    exact h.list.mp hv _ (List.getElem_mem hi)
  · exact (gives_position _ k _).bind fun _ _ => .ok (h.str _)
  · trivial

/-- The key has to be one that may be in a map. -/
theorem put (h : Hereditary P Q) (hv : P v) (hk : ∀ j, k.toKey? = some j → Q j) (hw : P w) :
    Gives P (v.put k w) := by
  unfold Value.put
  split
  · exact (gives_key _ k).bind fun j hj => h.map.mpr (Entries.forall_insert (h.map.mp hv) (hk j hj) hw)
  · refine (gives_position _ k _).bind fun i _ => h.list.mpr fun x hx => ?_
    rcases List.mem_or_eq_of_mem_set hx with hx | rfl
    · exact h.list.mp hv x hx
    · exact hw
  · trivial

theorem delete (h : Hereditary P Q) (hv : P v) : Gives P (v.delete k) := by
  unfold Value.delete
  split
  · refine (gives_key _ k).bind fun j _ => ?_
    split
    · next herase => exact h.map.mpr (Entries.forall_erase? (h.map.mp hv) herase)
    · trivial
  · exact (gives_position _ k _).bind fun i _ => h.list.mpr fun x hx =>
      h.list.mp hv x (List.mem_of_mem_eraseIdx hx)
  · trivial

theorem query (h : Hereditary P Q) (op : QueryOp) (hv : P v) : Gives P (op.apply v) := by
  cases op with
  | head =>
    simp only [QueryOp.apply]
    split
    · exact h.list.mp hv _ List.mem_cons_self
    · trivial
    · trivial
  | tail =>
    simp only [QueryOp.apply]
    split
    · exact h.list.mpr (List.forall_mem_cons.mp (h.list.mp hv)).2
    · trivial
    · trivial
  | isEmpty => exact (gives_length _ v).bind fun _ _ => .ok (h.bool _)
  | length => exact (gives_length _ v).bind fun _ _ => .ok (h.ofNat _)
  | keys =>
    simp only [QueryOp.apply]
    split
    · exact h.list.mpr (List.forall_mem_map.mpr fun e he => h.ofKey (h.map.mp hv e he).1)
    · trivial
  | values =>
    simp only [QueryOp.apply]
    split
    · exact h.list.mpr (List.forall_mem_map.mpr fun e he => (h.map.mp hv e he).2)
    · trivial
  | items =>
    simp only [QueryOp.apply]
    split
    · refine h.list.mpr (List.forall_mem_map.mpr fun e he => h.list.mpr ?_)
      obtain ⟨hk, hv⟩ := h.map.mp hv e he
      exact List.forall_mem_cons.mpr ⟨h.ofKey hk, List.forall_mem_singleton.mpr hv⟩
    · trivial

theorem update (h : Hereditary P Q) (op : UpdateOp) (hv : P v) (hw : P w) : Gives P (op.apply v w) := by
  cases op with
  | cons =>
    simp only [UpdateOp.apply]
    split
    · exact h.list.mpr (List.forall_mem_cons.mpr ⟨hw, h.list.mp hv⟩)
    · trivial
  | append =>
    simp only [UpdateOp.apply]
    split
    · exact h.list.mpr (List.forall_mem_append.mpr ⟨h.list.mp hv, List.forall_mem_singleton.mpr hw⟩)
    · trivial
  | delete => exact h.delete hv

/-- **What instructions make of their operands** has every hereditary property that literals, operators and
new functions have. -/
theorem combine (h : Hereditary P Q) {i : Instr Nat} {ops : List Value} {r : Except RunError Value}
    (hc : i.combine ops = some r) (hops : ∀ v ∈ ops, P v) (hpush : ∀ l, i = .push l → P (.ofLiteral l))
    (hbinary : ∀ op x y, P x → P y → Gives P (BinaryOp.apply op x y))
    (hunary : ∀ op x, P x → Gives P (UnaryOp.apply op x))
    (hnew : ∀ entry arity, i = .makeFunction entry arity → P (.function ⟨entry, arity⟩)) : Gives P r := by
  cases Instr.combination_of_combine hc with
  | push l => exact .ok (hpush l rfl)
  | pushUnit => exact .ok h.unit
  | binary op y x => exact hbinary op x y (hops x (by simp)) (hops y (by simp))
  | unary op x => exact hunary op x (hops x (by simp))
  | strCat => exact h.concat ops
  | strSlice => exact h.sliced
  | buildList => exact h.list.mpr fun v hv => hops v (List.mem_cons_of_mem _ (List.mem_reverse.mp hv))
  | buildMap => exact h.ofFlat fun v hv => hops v (List.mem_cons_of_mem _ (List.mem_reverse.mp hv))
  | listFill size x => exact h.filled (hops x (by simp))
  | query op x => exact h.query op (hops x (by simp))
  | update op y x => exact h.update op (hops x (by simp)) (hops y (by simp))
  | find y x => exact h.find (hops x (by simp))
  | put z y x => exact h.put (hops x (by simp)) (fun _ => h.toKey (hops y (by simp))) (hops z (by simp))
  | makeFunction entry arity => exact .ok (hnew entry arity rfl)

end Hereditary

/-! ## Values in memory -/

namespace Memory

variable {Q : Nat → Value → Prop} {m : Memory} {id : Nat} {v : Value}

/-- Every value satisfies `Q` of the id that it is stored under. -/
structure Everywhere (Q : Nat → Value → Prop) (m : Memory) : Prop where
  globals : ∀ id v, m.globals.get? id = some v → Q id v
  locals : ∀ f ∈ m.frames, ∀ id v, f.locals.get? id = some v → Q id v

theorem of_get?_insert {g : IdMap Value} (hg : ∀ id v, g.get? id = some v → Q id v) (hv : Q id v) :
    ∀ j w, (g.insert id v).get? j = some w → Q j w := by
  intro j w hw
  by_cases hj : j = id
  · subst hj
    rw [IdMap.get?_insert_self] at hw
    cases hw
    exact hv
  · rw [IdMap.get?_insert_of_ne _ hj] at hw
    exact hg j w hw

namespace Everywhere

theorem empty : Memory.empty.Everywhere Q where
  globals _ _ h := by cases h
  locals _ h := by cases h

theorem load (hm : m.Everywhere Q) (h : m.load id = some v) : Q id v := by
  unfold Memory.load at h
  split at h
  · exact hm.globals id v h
  · next f rest hf =>
    rcases Option.or_eq_some_iff.mp h with h | ⟨-, h⟩
    · exact hm.locals f (by simp [hf]) id v h
    · exact hm.globals id v h

theorem store (hm : m.Everywhere Q) (hv : Q id v) : (m.store id v).Everywhere Q := by
  unfold Memory.store
  split
  · exact ⟨of_get?_insert hm.globals hv, hm.locals⟩
  · next f rest hf =>
    split
    · exact ⟨of_get?_insert hm.globals hv, hm.locals⟩
    · refine ⟨hm.globals, ?_⟩
      have hlocals := hm.locals
      rw [hf] at hlocals
      obtain ⟨hhead, hrest⟩ := List.forall_mem_cons.mp hlocals
      exact List.forall_mem_cons.mpr ⟨of_get?_insert hhead hv, hrest⟩

theorem pushFrame (hm : m.Everywhere Q) (address : Nat) (f : FunctionRef) :
    (m.pushFrame { returnAddress := address, function := f }).Everywhere Q := by
  refine ⟨hm.globals, List.forall_mem_cons.mpr ⟨?_, hm.locals⟩⟩
  intro id v h
  cases h

theorem popFrame {f : Frame} {m' : Memory} (hm : m.Everywhere Q) (h : m.popFrame? = some (f, m')) :
    m'.Everywhere Q := by
  unfold Memory.popFrame? at h
  split at h
  · cases h
  · next g rest hf =>
    cases h
    refine ⟨hm.globals, fun f' hf' => hm.locals f' ?_⟩
    rw [hf]
    exact List.mem_cons_of_mem _ hf'

end Everywhere

end Memory

namespace Machine

/-- Every value on the stack and in the memory satisfies `P`. -/
structure Everywhere (P : Value → Prop) (m : Machine) : Prop where
  stack : ∀ v ∈ m.stack, P v
  memory : m.memory.Everywhere fun _ v => P v

variable {P : Value → Prop} {m m' : Machine} {i : Instr Nat}

theorem everywhere_load (m : Machine) (p : Program) : (m.load p).Everywhere P where
  stack _ h := by cases h
  memory := .empty

/-- **One instruction** brings no value that is not like those that were there, if it is so with what it makes
of its operands. -/
theorem Effect.everywhere (h : Effect m i m') (hm : m.Everywhere P) (hstr : ∀ s, P (.str s))
    (hcombine : ∀ ops r, i.combine ops = some r → (∀ v ∈ ops, P v) → Gives P r) : m'.Everywhere P := by
  obtain ⟨hstack, hmem⟩ := hm
  cases h with
  | compute _ hs hc =>
    rw [hs] at hstack
    obtain ⟨hops, hrest⟩ := List.forall_mem_append.mp hstack
    exact ⟨List.forall_mem_cons.mpr ⟨hcombine _ _ hc hops, hrest⟩, hmem⟩
  | pop hs =>
    rw [hs] at hstack
    exact ⟨(List.forall_mem_cons.mp hstack).2, hmem⟩
  | dup hs =>
    rw [hs] at hstack
    exact ⟨List.forall_mem_cons.mpr ⟨(List.forall_mem_cons.mp hstack).1, hstack⟩, hmem⟩
  | jump => exact ⟨hstack, hmem⟩
  | taken hs =>
    rw [hs] at hstack
    exact ⟨(List.forall_mem_cons.mp hstack).2, hmem⟩
  | passed hs =>
    rw [hs] at hstack
    exact ⟨(List.forall_mem_cons.mp hstack).2, hmem⟩
  | load hl => exact ⟨List.forall_mem_cons.mpr ⟨hmem.load hl, hstack⟩, hmem⟩
  | store hs =>
    rw [hs] at hstack
    obtain ⟨hv, hrest⟩ := List.forall_mem_cons.mp hstack
    exact ⟨hrest, hmem.store hv⟩
  | print hs =>
    rw [hs] at hstack
    exact ⟨List.forall_mem_cons.mpr ⟨hstr _, (List.forall_mem_append.mp hstack).2⟩, hmem⟩
  | call hs =>
    rw [hs] at hstack
    exact ⟨(List.forall_mem_cons.mp hstack).2, hmem.pushFrame _ _⟩
  | ret hp => exact ⟨hstack, hmem.popFrame hp⟩

end Machine

end ExactScript
