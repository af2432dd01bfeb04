import ExactScript.Proofs.Containment
import ExactScript.Proofs.ElementAssignments
import ExactScript.Proofs.Standing

/-!
# Updates along a path

When the keys and the value of `x[k₁]…[kₙ] = v` are constants or variables, or lists and maps of these, the
passes over the keys all see the same values, and the code amounts to an update along the path `k₁ … kₙ`: the
element at the path is replaced, or added to a map, and whatever is off the path stays as it was.

Elements of strings can be read, but not set. Yet a put into an outer collection never fails when the inner
ones succeed: below a string there are only strings, so the innermost put has failed before.

## Contents
* `Value.Exchanged`, `Value.Replaced`: two collections that differ in one element, at a path;
* `Value.findAll`, `Value.setAll`, with `Value.setAll_of_ok` and `Value.setAll_of_error`;
* `Machine.ComesTo` and `Piece.Leaves`, code that stores nothing, and its composition;
* `Expr.Stands`, the expressions whose value is known, and `steps_of_put`, the code of an update;
* `Program.path_updated`, the theorem.
-/

namespace ExactScript

/-! ## Elements of collections -/

namespace Entries

variable {es : Entries Value} {k : Key} {v w : Value}

/-- A key that is present names an entry, before which no entry has an equal key. -/
theorem insert_of_get? (h : Entries.get? es k = some v) : ∃ before j after,
    es = before ++ (j, v) :: after ∧ j.same k ∧ (∀ e ∈ before, ¬e.1.same k) ∧
      Entries.insert es k w = before ++ (j, w) :: after := by
  induction es with
  | nil => cases h
  | cons e es ih =>
    obtain ⟨j, u⟩ := e
    simp only [get?] at h
    simp only [insert]
    split at h
    · next hj =>
      cases h
      rw [if_pos hj]
      exact ⟨[], j, es, rfl, hj, List.forall_mem_nil _, rfl⟩
    · next hj =>
      obtain ⟨before, i, after, rfl, hi, hbefore, hinsert⟩ := ih h
      rw [if_neg hj, hinsert]
      exact ⟨(j, u) :: before, i, after, rfl, hi, List.forall_mem_cons.mpr ⟨hj, hbefore⟩, rfl⟩

theorem insert_of_get?_eq_none (h : Entries.get? es k = none) :
    (∀ e ∈ es, ¬e.1.same k) ∧ Entries.insert es k w = es ++ [(k, w)] := by
  induction es with
  | nil => exact ⟨List.forall_mem_nil _, rfl⟩
  | cons e es ih =>
    obtain ⟨j, u⟩ := e
    simp only [get?] at h
    simp only [insert]
    split at h
    · cases h
    · next hj =>
      obtain ⟨hes, hinsert⟩ := ih h
      rw [if_neg hj, hinsert]
      exact ⟨List.forall_mem_cons.mpr ⟨hj, hes⟩, rfl⟩

end Entries

namespace Value

/-- Two collections with the elements `a` and `b` at the key, and the same elements everywhere else. -/
inductive Exchanged : (key coll a b coll' : Value) → Prop
  | list {n : Fraction} {before after : List Value} {a b : Value} (h : Stack.count? n = some before.length) :
    Exchanged (.num n) (.list (before ++ a :: after)) a b (.list (before ++ b :: after))
  | map {key a b : Value} {j k : Key} {before after : Entries Value} (hk : key.toKey? = some k)
    (hj : j.same k) (hbefore : ∀ e ∈ before, ¬e.1.same k) :
    Exchanged key (.map (before ++ (j, a) :: after)) a b (.map (before ++ (j, b) :: after))

/-- **One path, one element.** The second value is the first with `v` at the path: in the place of another
value, or, at the last key, as a new entry of a map that has no such key. -/
inductive Replaced (v : Value) : List Value → Value → Value → Prop
  | last {key coll a coll' : Value} (h : Exchanged key coll a v coll') : Replaced v [key] coll coll'
  | added {key : Value} {k : Key} {entries : Entries Value} (hk : key.toKey? = some k)
    (hnew : ∀ e ∈ entries, ¬e.1.same k) : Replaced v [key] (.map entries) (.map (entries ++ [(k, v)]))
  | inner {key coll a b coll' : Value} {keys : List Value} (h : Exchanged key coll a b coll')
    (hrest : Replaced v keys a b) : Replaced v (key :: keys) coll coll'

section Positions

variable {v : Value} {op : String} {n i : Nat}

/-- A position names an element by its number. -/
theorem of_position (h : v.position op n = .ok i) :
    ∃ x, v = .num x ∧ Stack.count? x = some i ∧ i < n ∧ ∀ op', v.position op' n = .ok i := by
  unfold position at h
  split at h
  · next x =>
    split at h
    · next hx =>
      split at h
      · next j hj =>
        split at h
        · next hlt =>
          cases h
          refine ⟨x, rfl, ?_, hlt, fun op' => ?_⟩
          · rw [Stack.count?, if_pos hx, hj]
          · rw [position, if_pos hx, hj]
            exact if_pos hlt
        · cases h
      · cases h
    · cases h
  · cases h

theorem of_key {k : Key} (h : v.key op = .ok k) : v.toKey? = some k ∧ ∀ op', v.key op' = .ok k := by
  unfold key at h
  split at h
  · next hk =>
    cases h
    exact ⟨hk, fun op' => by rw [key, hk]⟩
  · cases h

theorem set_eq_append {elems : List Value} {i : Nat} (hi : i < elems.length) (b : Value) :
    ∃ before a after, elems = before ++ a :: after ∧ before.length = i ∧
      elems.getD i .unit = a ∧ elems.set i b = before ++ b :: after := by
  refine ⟨elems.take i, elems[i], elems.drop (i + 1), ?_, List.length_take_of_le (Nat.le_of_lt hi), ?_, ?_⟩
  · rw [← List.drop_eq_getElem_cons hi, List.take_append_drop]
  · rw [List.getD_eq_getElem?_getD, List.getElem?_eq_getElem hi, Option.getD_some]
  · rw [List.set_eq_take_append_cons_drop, if_pos hi]

end Positions

variable {coll key a b v : Value}

/-- **What can be read can be set**, unless it is a character of a string. -/
theorem put_of_find (h : coll.find key = .ok a) (hstr : ∀ s, coll ≠ .str s) (b : Value) :
    ∃ coll', coll.put key b = .ok coll' ∧ Exchanged key coll a b coll' := by
  cases coll with
  | map entries =>
    simp only [find] at h
    cases hk : key.key "FIND" with
    | error e => rw [hk] at h; cases h
    | ok k =>
      rw [hk] at h
      cases hget : Entries.get? entries k with
      | none => simp only [bind, Except.bind, hget] at h; cases h
      | some w =>
        simp only [bind, Except.bind, hget] at h
        cases h
        obtain ⟨hkey, hput⟩ := of_key hk
        obtain ⟨before, j, after, rfl, hj, hbefore, hinsert⟩ := Entries.insert_of_get? (w := b) hget
        refine ⟨.map (before ++ (j, b) :: after), ?_, .map hkey hj hbefore⟩
        simp only [put, hput, bind, Except.bind, hinsert]
        rfl
  | list elems =>
    simp only [find] at h
    cases hi : key.position "FIND" elems.length with
    | error e => rw [hi] at h; cases h
    | ok i =>
      rw [hi] at h
      obtain ⟨x, rfl, hx, hlt, hput⟩ := of_position hi
      obtain ⟨before, c, after, rfl, rfl, hc, hset⟩ := set_eq_append hlt b
      obtain rfl : c = a := hc.symm.trans (Except.ok.inj h)
      refine ⟨.list (before ++ b :: after), ?_, .list hx⟩
      simp only [put, hput, bind, Except.bind, hset]
      rfl
  | str s => exact absurd rfl (hstr s)
  | _ => cases h

/-- A put replaces an element, or adds an entry. -/
theorem replaced_of_put {coll' : Value} (h : coll.put key v = .ok coll') : Replaced v [key] coll coll' := by
  cases coll with
  | map entries =>
    simp only [put] at h
    cases hk : key.key "PUT" with
    | error e => rw [hk] at h; cases h
    | ok k =>
      rw [hk] at h
      obtain ⟨hkey, -⟩ := of_key hk
      cases hget : Entries.get? entries k with
      | none =>
        obtain ⟨hnew, hinsert⟩ := Entries.insert_of_get?_eq_none (w := v) hget
        simp only [bind, Except.bind, hinsert] at h
        cases h
        exact .added hkey hnew
      | some w =>
        obtain ⟨before, j, after, rfl, hj, hbefore, hinsert⟩ := Entries.insert_of_get? (w := v) hget
        simp only [bind, Except.bind, hinsert] at h
        cases h
        exact .last (.map hkey hj hbefore)
  | list elems =>
    simp only [put] at h
    cases hi : key.position "PUT" elems.length with
    | error e => rw [hi] at h; cases h
    | ok i =>
      rw [hi] at h
      obtain ⟨x, rfl, hx, hlt, -⟩ := of_position hi
      obtain ⟨before, c, after, rfl, rfl, -, hset⟩ := set_eq_append hlt v
      simp only [bind, Except.bind, hset] at h
      cases h
      exact .last (.list hx)
  | _ => cases h

/-! ## Paths -/

/-- The element at a path, found key by key. -/
def findAll (coll : Value) (keys : List Value) : Except RunError Value := keys.foldlM find coll

/-- The collection with `v` at a path: each inner collection is found, changed, and put back. -/
def setAll (v : Value) : List Value → Value → Except RunError Value
  | [], _ => .ok v
  | [key], coll => coll.put key v
  | key :: next :: keys, coll => do
    let elem ← coll.find key
    let changed ← setAll v (next :: keys) elem
    coll.put key changed

@[simp] theorem findAll_nil (coll : Value) : findAll coll [] = .ok coll := rfl

theorem findAll_cons (coll key : Value) (keys : List Value) :
    findAll coll (key :: keys) = coll.find key >>= fun elem => findAll elem keys := List.foldlM_cons

theorem findAll_concat (coll key : Value) (keys : List Value) :
    findAll coll (keys ++ [key]) = findAll coll keys >>= fun elem => elem.find key := by
  rw [findAll, List.foldlM_append]
  simp only [List.foldlM_cons, List.foldlM_nil, bind_pure]
  rfl

theorem setAll_cons (v key : Value) (keys : List Value) (hkeys : keys ≠ []) (coll : Value) :
    setAll v (key :: keys) coll =
      coll.find key >>= fun elem => setAll v keys elem >>= fun changed => coll.put key changed := by
  obtain ⟨next, keys, rfl⟩ := List.exists_cons_of_ne_nil hkeys
  rfl

/-- What is found in a string is a string. -/
theorem exists_str_of_find {s : String} (h : (Value.str s).find key = .ok a) : ∃ t, a = .str t := by
  simp only [find] at h
  cases hi : key.position "FIND" s.length with
  | error e => rw [hi] at h; cases h
  | ok i =>
    rw [hi] at h
    exact ⟨_, (Except.ok.inj h).symm⟩

theorem exists_str_of_findAll {s : String} {keys : List Value} (h : findAll (.str s) keys = .ok a) :
    ∃ t, a = .str t := by
  induction keys generalizing s with
  | nil => exact ⟨s, (Except.ok.inj h).symm⟩
  | cons key keys ih =>
    rw [findAll_cons] at h
    cases hfind : (Value.str s).find key with
    | error e => rw [hfind] at h; cases h
    | ok elem =>
      rw [hfind] at h
      obtain ⟨t, rfl⟩ := exists_str_of_find hfind
      exact ih h

/-- **Where the inner operations succeed, all do**, and the outcome differs at the path only. -/
theorem setAll_of_ok {keys : List Value} {coll elem r : Value} (h : findAll coll keys = .ok elem)
    (hput : elem.put key v = .ok r) :
    ∃ new, setAll v (keys ++ [key]) coll = .ok new ∧ Replaced v (keys ++ [key]) coll new := by
  induction keys generalizing coll with
  | nil =>
    obtain rfl : coll = elem := Except.ok.inj h
    exact ⟨r, hput, replaced_of_put hput⟩
  | cons first keys ih =>
    rw [findAll_cons] at h
    cases hfind : coll.find first with
    | error e => rw [hfind] at h; cases h
    | ok inner =>
      rw [hfind] at h
      -- below a string the innermost put would have failed
      have hstr : ∀ s, coll ≠ .str s := by
        rintro s rfl
        obtain ⟨t, rfl⟩ := exists_str_of_find hfind
        obtain ⟨t, rfl⟩ := exists_str_of_findAll h
        cases hput
      obtain ⟨changed, hchanged, hreplaced⟩ := ih h
      obtain ⟨new, hnew, hexchanged⟩ := put_of_find hfind hstr changed
      refine ⟨new, ?_, .inner hexchanged hreplaced⟩
      rw [List.cons_append, setAll_cons v first _ (by simp), hfind]
      simp only [bind, Except.bind, hchanged, hnew]

/-- **The first failure** on the way down decides. -/
theorem setAll_of_error {keys : List Value} {coll : Value} {e : RunError}
    (h : (findAll coll keys >>= fun elem => elem.put key v) = .error e) :
    setAll v (keys ++ [key]) coll = .error e := by
  induction keys generalizing coll with
  | nil => exact h
  | cons first keys ih =>
    rw [findAll_cons] at h
    rw [List.cons_append, setAll_cons v first _ (by simp)]
    cases hfind : coll.find first with
    | error e' =>
      rw [hfind] at h
      cases h
      rfl
    | ok inner =>
      rw [hfind] at h
      simp only [bind, Except.bind] at h ⊢
      rw [ih h]

end Value

/-! ## Code that stores nothing -/

open Machine Piece

/-- The machine comes past the next `width` instructions with these values above `rest`, or it fails with
this error. Either way its memory stays as it is. -/
def Machine.ComesTo (m : Machine) (rest : Stack) (width : Nat) : Except RunError Stack → Prop
  | .ok results => ∃ n, Steps n m { m with stack := results ++ rest, ip := m.ip + width }
  | .error e => ∃ n m₁ m₂, Steps n m m₁ ∧ m₁.step = (.error e, m₂) ∧ m₂.memory = m.memory

/-- **Code that turns the topmost values `ops` into others** and stores nothing, wherever it stands in the
program, as long as the memory is `μ`; or it fails. -/
def Piece.Leaves (p : Program) (μ : Memory) (q : Piece) (ops : Stack) (r : Except RunError Stack) : Prop :=
  ∀ (m : Machine) (rest : Stack), m.program = p → m.status = .running → m.memory = μ →
    m.stack = ops ++ rest → CodeAt p.code m.ip (q.code m.ip) → m.ComesTo rest q.width r

namespace Piece.Leaves

variable {p : Program} {μ : Memory} {q q' : Piece} {ops mid : Stack} {r : Except RunError Stack}

theorem append {k : Stack → Except RunError Stack} (h : q.Leaves p μ ops r)
    (h' : ∀ mid, r = .ok mid → q'.Leaves p μ mid (k mid)) : (q ++ q').Leaves p μ ops (r >>= k) := by
  intro m rest hp hrun hμ hs hcode
  rw [Piece.code_append, codeAt_append, Piece.length_code] at hcode
  have hfirst := h m rest hp hrun hμ hs hcode.1
  cases r with
  | error e => exact hfirst
  | ok mid =>
    obtain ⟨n, hn⟩ := hfirst
    have hsecond := h' mid rfl { m with stack := mid ++ rest, ip := m.ip + q.width } rest hp hrun hμ rfl hcode.2
    show m.ComesTo rest (q ++ q').width (k mid)
    cases hk : k mid with
    | ok results =>
      rw [hk] at hsecond
      obtain ⟨n', hn'⟩ := hsecond
      refine ⟨n + n', ?_⟩
      rw [Piece.width_append, ← Nat.add_assoc]
      exact hn.trans hn'
    | error e =>
      rw [hk] at hsecond
      obtain ⟨n', m₁, m₂, hn', hrest⟩ := hsecond
      exact ⟨n + n', m₁, m₂, hn.trans hn', hrest⟩

theorem after (h : q.Leaves p μ ops (.ok mid)) (h' : q'.Leaves p μ mid r) : (q ++ q').Leaves p μ ops r :=
  h.append (k := fun _ => r) fun _ heq => Except.ok.inj heq ▸ h'

theorem fail {e : RunError} (h : q.Leaves p μ ops (.error e)) : (q ++ q').Leaves p μ ops (.error e) :=
  h.append (k := fun _ => .error e) fun _ heq => by cases heq

/-- More values below make no difference. -/
theorem above (below : Stack) (h : q.Leaves p μ ops r) : q.Leaves p μ (ops ++ below) (r.map (· ++ below)) := by
  intro m rest hp hrun hμ hs hcode
  rw [List.append_assoc] at hs
  have hall := h m (below ++ rest) hp hrun hμ hs hcode
  cases r with
  | ok results =>
    show m.ComesTo rest q.width (.ok (results ++ below))
    rw [ComesTo, List.append_assoc]
    exact hall
  | error e => exact hall

/-- No code, and nothing left. -/
theorem nothing : (Piece.ofList []).Leaves p μ [] (.ok []) := by
  rintro m rest - - - hs -
  refine ⟨0, ?_⟩
  rw [← hs]
  exact .refl m

theorem load {id : Nat} {v : Value} (hv : μ.load id = some v) :
    (Piece.ofList [.load id]).Leaves p μ [] (.ok [v]) := by
  rintro m rest rfl hrun rfl hs hcode
  have hi : m.current? = some (.load id) := (codeAt_cons.mp hcode).1
  have hstep := step_of_effect hrun hi (.load hv)
  rw [hs] at hstep
  exact ⟨1, .one hstep⟩

/-- An instruction that combines its operands. -/
theorem combine {i : Instr Nat} {result : Except RunError Value} (hc : i.combine ops = some result) :
    (Piece.ofList [i]).Leaves p μ ops (result.map fun v => [v]) := by
  rintro m rest rfl hrun rfl hs hcode
  have hi : m.current? = some i := (codeAt_cons.mp hcode).1
  rcases exec_of_combine hs hc with ⟨v, rfl, -⟩ | ⟨e, s, rfl, hfails⟩
  · exact ⟨1, .one (step_of_effect hrun hi (.compute ops hs hc))⟩
  · exact ⟨0, m, _, .refl m, step_of_error hrun hi hfails, rfl⟩

/-- An instruction whose topmost operand is a number that stands in the code. -/
theorem counted {i : Instr Nat} {n : Nat} {result : Except RunError Value}
    (hc : i.combine (.ofNat n :: ops) = some result) :
    (Piece.ofList [countCode n, i]).Leaves p μ ops (result.map fun v => [v]) := by
  have hpush : (Piece.ofList [countCode n]).Leaves p μ [] (.ok [.ofNat n]) :=
    combine (show (countCode n).combine [] = some (.ok (.ofNat n)) from rfl)
  rw [show [countCode n, i] = [countCode n] ++ [i] from rfl, ← Piece.ofList_append]
  exact (hpush.above ops).after (combine hc)

end Piece.Leaves

/-- The code leaves one value. -/
def Piece.Finds (p : Program) (μ : Memory) (q : Piece) (r : Except RunError Value) : Prop :=
  q.Leaves p μ [] (r.map fun v => [v])

namespace Piece.Finds

variable {p : Program} {μ : Memory} {q k v : Piece} {c r : Except RunError Value} {a : Value}

/-- The element at a key. -/
theorem find (hq : q.Finds p μ c) (hk : k.Finds p μ (.ok a)) :
    (q ++ (k ++ .ofList [.find])).Finds p μ (c >>= fun coll => coll.find a) := by
  cases c with
  | error e => exact Leaves.fail hq
  | ok coll =>
    have hkey : k.Leaves p μ [coll] (.ok [a, coll]) := Leaves.above [coll] hk
    exact Leaves.after hq (hkey.after (.combine rfl))

/-- The collection with an element set. -/
theorem put (hq : q.Finds p μ c) (hk : k.Finds p μ (.ok a)) (hv : v.Finds p μ r) :
    (q ++ (k ++ (v ++ .ofList [.put]))).Finds p μ (c >>= fun coll => r >>= fun w => coll.put a w) := by
  cases c with
  | error e => exact Leaves.fail hq
  | ok coll =>
    have hkey : k.Leaves p μ [coll] (.ok [a, coll]) := Leaves.above [coll] hk
    refine Leaves.after hq (hkey.after ?_)
    cases r with
    | error e => exact Leaves.fail (Leaves.above [a, coll] hv)
    | ok w =>
      have hvalue : v.Leaves p μ [a, coll] (.ok [w, a, coll]) := Leaves.above [a, coll] hv
      exact hvalue.after (.combine rfl)

end Piece.Finds

/-! ## The code of an update -/

/-- The expression stands for this value: it is a constant, a variable that is bound, or a list or a map
written out of such expressions. -/
inductive Expr.Stands (μ : Memory) : Expr Symbol → Value → Prop
  | literal (l : Literal) : Stands μ (.literal l) (.ofLiteral l)
  | var {x : Symbol} {v : Value} (h : μ.load x.id = some v) : Stands μ (.var x) v
  | list {elems : List (Expr Symbol)} {vs : List Value} (h : List.Forall₂ (Stands μ) elems vs)
    (hn : elems.length < wordSize) : Stands μ (.list elems) (.list vs)
  | map {entries : List (Expr Symbol × Expr Symbol)} {flat : List Value} {v : Value}
    (h : List.Forall₂ (Stands μ) (entries.flatMap fun kv => [kv.1, kv.2]) flat)
    (hn : 2 * entries.length < wordSize) (hv : Value.ofFlat flat = .ok v) : Stands μ (.map entries) v

section Updates

variable {p : Program} {μ : Memory} {x : Symbol} {old a v : Value} {keys : List (Expr Symbol)}
  {ks : List Value}

/-- The values of a list of operands end with the value of the last one. -/
theorem Expr.Stands.of_concat {key : Expr Symbol} (h : List.Forall₂ (Expr.Stands μ) (keys ++ [key]) ks) :
    ∃ init k, ks = init ++ [k] ∧ List.Forall₂ (Expr.Stands μ) keys init ∧ key.Stands μ k := by
  refine ⟨ks.take keys.length, ?_⟩
  have hinit := List.forall₂_take keys.length h
  have hlast := List.forall₂_drop keys.length h
  rw [List.take_left] at hinit
  rw [List.drop_left] at hlast
  cases hrest : ks.drop keys.length with
  | nil => rw [hrest] at hlast; cases hlast
  | cons k rest =>
    rw [hrest] at hlast
    cases hlast with
    | cons hk hnil =>
    cases hnil
    exact ⟨k, by rw [← hrest, List.take_append_drop], hinit, hk⟩

/-- Several values, the last of them topmost. -/
theorem leaves_all {es : List (Expr Symbol)} {vs : List Value}
    (he : ∀ e ∈ es, ∀ v, e.Stands μ v → e.piece.Finds p μ (.ok v)) (h : List.Forall₂ (Expr.Stands μ) es vs) :
    (Expr.pieceOfAll es).Leaves p μ [] (.ok vs.reverse) := by
  induction h with
  | nil => exact .nothing
  | @cons e v es vs hv hvs ih =>
    obtain ⟨hfirst, hothers⟩ := List.forall_mem_cons.mp he
    have hrest := Leaves.above [v] (ih hothers)
    rw [List.reverse_cons]
    exact Leaves.after (hfirst v hv) hrest

/-- The code of entries is that of their keys and values. -/
theorem Expr.pieceOfEntries_eq_pieceOfAll (entries : List (Expr Symbol × Expr Symbol)) :
    pieceOfEntries entries = pieceOfAll (entries.flatMap fun kv => [kv.1, kv.2]) := by
  induction entries with
  | nil => rfl
  | cons kv entries ih =>
    simp only [pieceOfEntries, ih, List.flatMap_cons, List.cons_append, List.nil_append, pieceOfAll]

theorem Expr.Stands.finds {e : Expr Symbol} (h : e.Stands μ v) : e.piece.Finds p μ (.ok v) := by
  induction e using induct_children generalizing v with
  | h e ih =>
  cases h with
  | literal l => exact .combine rfl
  | var h => exact .load h
  | @list elems vs h hn =>
    -- the elements come in order, and then their number
    have hbuild := Instr.combine_buildList h.length_eq.symm hn
    exact (leaves_all (fun c hc _ => ih c hc) h).after (.counted hbuild)
  | @map entries flat v h hn hv =>
    have hlength : flat.length = 2 * entries.length := by
      rw [← h.length_eq, List.length_flatMap]
      simp [Nat.mul_comm]
    have hbuild := Instr.combine_buildMap hlength hn
    rw [hv] at hbuild
    rw [piece, Expr.pieceOfEntries_eq_pieceOfAll]
    exact (leaves_all (fun c hc _ => ih c hc) h).after (.counted hbuild)

theorem finds_element (hx : μ.load x.id = some old) (hkeys : List.Forall₂ (Expr.Stands μ) keys ks) :
    (Expr.element x keys).piece.Finds p μ (old.findAll ks) := by
  induction keys using List.reverseRecOn generalizing ks with
  | nil =>
    cases hkeys
    exact .load hx
  | append_singleton keys key ih =>
    obtain ⟨init, k, rfl, hinit, hk⟩ := Expr.Stands.of_concat hkeys
    rw [Expr.piece_element_concat, Value.findAll_concat]
    exact (ih hinit).find hk.finds

/-- **The code up to the last put.** What is put is given by code of its own, which finds `r`; when this is
an update along the rest of a path, the whole is the update along the whole path. -/
theorem exists_finds_setAll (hx : μ.load x.id = some old) (hkeys : List.Forall₂ (Expr.Stands μ) keys ks)
    {k w : Piece} {r : Except RunError Value} {path : List Value} (hk : k.Finds p μ (.ok a))
    (hw : w.Finds p μ r)
    (hr : (old.findAll ks >>= fun coll => r >>= fun w => coll.put a w) =
      old.findAll ks >>= Value.setAll v (a :: path)) :
    ∃ q, (Expr.element x keys).pieceOfPut k w = q ++ .ofList [.dup, .store x.id] ∧
      q.Finds p μ (Value.setAll v (ks ++ a :: path) old) := by
  induction keys using List.reverseRecOn generalizing ks k w r a path with
  | nil =>
    cases hkeys
    refine ⟨(Expr.element x []).piece ++ (k ++ (w ++ .ofList [.put])), Expr.pieceOfPut_element_nil k w, ?_⟩
    have hall := (finds_element (p := p) hx .nil).put hk hw
    rw [hr] at hall
    exact hall
  | append_singleton keys key ih =>
    -- the last key joins the path, and the put at it becomes the value
    obtain ⟨init, b, rfl, hinit, hb⟩ := Expr.Stands.of_concat hkeys
    rw [Expr.pieceOfPut_element_concat]
    have hinner := (finds_element (p := p) hx hkeys).put hk hw
    rw [hr] at hinner
    have hsplit : init ++ [b] ++ a :: path = init ++ b :: a :: path := by simp
    rw [hsplit]
    refine ih hinit hb.finds hinner ?_
    -- the collection is found twice, and is the same each time
    rw [Value.findAll_concat]
    cases old.findAll init with
    | error e => rfl
    | ok coll =>
      show ((coll.find b >>= Value.setAll v (a :: path)) >>= fun w => coll.put b w) =
        Value.setAll v (b :: a :: path) coll
      rw [Value.setAll_cons v b _ (List.cons_ne_nil a path), bind_assoc]

variable {key value : Expr Symbol} {k : Value} {m : Machine}

/-- **The whole code**, which ends with the store. -/
theorem steps_of_put (hm : Reachable p m)
    (hcode : CodeAt p.code m.ip ((Expr.put (.element x keys) key value).piece.code m.ip))
    (hx : m.memory.load x.id = some old) (hkeys : List.Forall₂ (Expr.Stands m.memory) keys ks)
    (hkey : key.Stands m.memory k) (hvalue : value.Stands m.memory v) :
    (∀ new, Value.setAll v (ks ++ [k]) old = .ok new → ∃ n, Steps n m
      { m with
        stack := new :: m.stack
        memory := m.memory.store x.id new
        ip := m.ip + (Expr.put (.element x keys) key value).piece.width }) ∧
    (∀ e, Value.setAll v (ks ++ [k]) old = .error e →
      ∃ n m₁ m₂, Steps n m m₁ ∧ m₁.step = (.error e, m₂) ∧ m₂.status = .failed ∧ m₂.memory = m.memory) := by
  have hlast : (old.findAll ks >>= fun coll => Except.ok v >>= fun w => coll.put k w) =
      old.findAll ks >>= Value.setAll v [k] := rfl
  obtain ⟨q, hq, hfinds⟩ := exists_finds_setAll (p := p) hx hkeys hkey.finds hvalue.finds hlast
  have hpiece : (Expr.put (.element x keys) key value).piece = q ++ .ofList [.dup, .store x.id] := by
    rw [Expr.piece, hq]
  rw [hpiece, Piece.code_append, codeAt_append, Piece.length_code] at hcode
  have hrunning := running_of_reachable hm
  have hrun := hfinds m m.stack hm.program_eq hrunning rfl rfl hcode.1
  refine ⟨fun new hnew => ?_, fun e he => ?_⟩
  · rw [hnew] at hrun
    obtain ⟨n, hn⟩ := hrun
    -- the new collection is kept, and stored
    obtain ⟨hdup, hstore⟩ := codeAt_cons.mp hcode.2
    let m₁ : Machine := { m with stack := new :: m.stack, ip := m.ip + q.width }
    let m₂ : Machine := { m with stack := new :: new :: m.stack, ip := m.ip + q.width + 1 }
    have hstep₁ : m₁.step = (.ok .more, m₂) :=
      step_of_effect hrunning (show m.program.code[_]? = _ from hm.program_eq ▸ hdup) (.dup rfl)
    have hstep₂ := step_of_effect (m := m₂) hrunning
      (show m.program.code[_]? = _ from hm.program_eq ▸ (codeAt_cons.mp hstore).1) (.store rfl)
    refine ⟨n + 1 + 1, ?_⟩
    rw [hpiece]
    exact (hn.trans (.one hstep₁)).trans (.one hstep₂)
  · rw [he] at hrun
    obtain ⟨n, m₁, m₂, hn, hstep, hmemory⟩ := hrun
    exact ⟨n, m₁, m₂, hn, hstep, (leftBy_of_step (hn.running hrunning) hstep).status, hmemory⟩

end Updates

namespace Program

variable {tree : List (Expr Symbol)} {x : Symbol} {keys : List (Expr Symbol)} {key value : Expr Symbol}

/-- **An assignment to an element is an update along a path.** The tree of `x[k₁]…[kₙ] = v` is compiled, and
wherever its code is run, with keys and a value that are known: if there is an element to be found at all but
the last key, and the last key can be set in it, then the variable gets the old value with `v` at the path, no
other variable changes, and what is stored is also the value of the expression. Otherwise the run fails with
the first error on the way, and nothing is stored. -/
theorem path_updated (h : ofTree tree = .ok p)
    (hmem : .put (.element x keys) key value ∈ tree.flatMap Expr.subtrees) :
    (∃ i, CodeAt p.code i ((Expr.put (.element x keys) key value).piece.code i)) ∧
    ∀ (m : Machine) (old : Value) (ks : List Value) (k v : Value), Machine.Reachable p m →
      CodeAt p.code m.ip ((Expr.put (.element x keys) key value).piece.code m.ip) →
      m.memory.load x.id = some old → List.Forall₂ (Expr.Stands m.memory) keys ks →
      key.Stands m.memory k → value.Stands m.memory v →
      (∀ coll r, old.findAll ks = .ok coll → coll.put k v = .ok r →
        ∃ new n m', Value.Replaced v (ks ++ [k]) old new ∧ Machine.Steps n m m' ∧
          m' = { m with
            stack := new :: m.stack
            memory := m.memory.store x.id new
            ip := m.ip + (Expr.put (.element x keys) key value).piece.width } ∧
          m'.memory.load x.id = some new ∧ ∀ j, j ≠ x.id → m'.memory.load j = m.memory.load j) ∧
      (∀ e, (old.findAll ks >>= fun coll => coll.put k v) = .error e →
        ∃ n m₁ m₂, Machine.Steps n m m₁ ∧ m₁.step = (.error e, m₂) ∧ m₂.status = .failed ∧
          m₂.memory = m.memory) := by
  refine ⟨exists_codeAt h hmem, fun m old ks k v hm hcode hx hkeys hkey hvalue => ?_⟩
  obtain ⟨hstored, hfails⟩ := steps_of_put hm hcode hx hkeys hkey hvalue
  refine ⟨fun coll r hfind hput => ?_, fun e he => hfails e (Value.setAll_of_error he)⟩
  obtain ⟨new, hnew, hreplaced⟩ := Value.setAll_of_ok hfind hput
  obtain ⟨n, hn⟩ := hstored new hnew
  exact ⟨new, n, _, hreplaced, hn, rfl, (Machine.separate_of_reachable hm).load_store_self,
    fun j hj => Memory.load_store_of_ne hj⟩

/-- A program that sets an element of a list at a key that is present, and then at a key that is not. -/
def sampleUpdates : Program where
  code := #[.push (.bool true), .push (.num (.ofNat 1)), .push (.num (.ofNat 2)), .push (.num (.ofNat 2)),
    .buildList, .push (.num (.ofNat 1)), .buildMap, .dup, .store 0, .pop, .push (.num (.ofNat 1)), .dup,
    .store 1, .pop, .load 0, .push (.bool true), .load 0, .push (.bool true), .find, .load 1,
    .push (.num (.ofNat 5)), .put, .put, .dup, .store 0, .pop, .load 0, .push (.bool false), .load 0,
    .push (.bool false), .find, .load 1, .push (.num (.ofNat 5)), .put, .put, .dup, .store 0, .halt]
  names := (IdMap.empty.insert 0 "x").insert 1 "k"

/-- `x[b][k] = 5`, with a constant for `b`. -/
def sampleUpdate (b : Bool) : Expr Symbol :=
  .put (.element ⟨"x", 0⟩ [.literal (.bool b)]) (.var ⟨"k", 1⟩) (.literal (.num (.ofNat 5)))

/-- The tree of this program. -/
def sampleUpdatesTree : List (Expr Symbol) :=
  [.declare ⟨"x", 0⟩ (.map
      [(.literal (.bool true), .list [.literal (.num (.ofNat 1)), .literal (.num (.ofNat 2))])]),
    .declare ⟨"k", 1⟩ (.literal (.num (.ofNat 1))), sampleUpdate true, sampleUpdate false]

theorem mem_sampleUpdatesTree (b : Bool) : sampleUpdate b ∈ sampleUpdatesTree.flatMap Expr.subtrees := by
  cases b with
  | true => exact List.mem_flatMap.mpr ⟨_, .tail _ (.tail _ (.head _)), List.mem_cons_self⟩
  | false => exact List.mem_flatMap.mpr ⟨_, .tail _ (.tail _ (.tail _ (.head _))), List.mem_cons_self⟩

/-- The second element of the list is set, and the next assignment finds no list. -/
theorem path_updated_twice :
    (∃ m n m' new, Machine.Reachable sampleUpdates m ∧
      m.memory.load 0 = some (.map [(.bool true, .list [.ofNat 1, .ofNat 2])]) ∧
      Value.Replaced (.ofNat 5) [.bool true, .ofNat 1] (.map [(.bool true, .list [.ofNat 1, .ofNat 2])]) new ∧
      Machine.Steps n m m' ∧ m'.memory.load 0 = some new ∧ m'.memory.load 1 = some (.ofNat 1)) ∧
    ∃ m n m₁ m₂, Machine.Reachable sampleUpdates m ∧
      m.memory.load 0 = some (.map [(.bool true, .list [.ofNat 1, .ofNat 5])]) ∧ Machine.Steps n m m₁ ∧
      m₁.step = (.error (.keyNotFound (.bool false)), m₂) ∧ m₂.memory = m.memory := by
  have hcompile : ofTree sampleUpdatesTree = .ok sampleUpdates := rfl
  constructor
  · obtain ⟨m, hm, hcode, hx, hk⟩ : ∃ m, Machine.Reachable sampleUpdates m ∧
        CodeAt sampleUpdates.code m.ip ((sampleUpdate true).piece.code m.ip) ∧
        m.memory.load 0 = some (.map [(.bool true, .list [.ofNat 1, .ofNat 2])]) ∧
        m.memory.load 1 = some (.ofNat 1) :=
      ⟨_, ⟨{}, 14, .of_after rfl⟩, ⟨_, rfl⟩, rfl, rfl⟩
    obtain ⟨-, hall⟩ := path_updated hcompile (mem_sampleUpdatesTree true)
    obtain ⟨hset, -⟩ := hall m _ [.bool true] (.ofNat 1) (.ofNat 5) hm hcode hx
      (.cons (.literal (.bool true)) .nil) (.var hk) (.literal (.num (.ofNat 5)))
    obtain ⟨new, n, m', hreplaced, hn, -, hload, hothers⟩ := hset _ _ rfl rfl
    exact ⟨m, n, m', new, hm, hx, hreplaced, hn, hload, (hothers 1 (by decide)).trans hk⟩
  · obtain ⟨m, hm, hcode, hx, hk⟩ : ∃ m, Machine.Reachable sampleUpdates m ∧
        CodeAt sampleUpdates.code m.ip ((sampleUpdate false).piece.code m.ip) ∧
        m.memory.load 0 = some (.map [(.bool true, .list [.ofNat 1, .ofNat 5])]) ∧
        m.memory.load 1 = some (.ofNat 1) :=
      ⟨_, ⟨{}, 26, .of_after rfl⟩, ⟨_, rfl⟩, rfl, rfl⟩
    obtain ⟨-, hall⟩ := path_updated hcompile (mem_sampleUpdatesTree false)
    obtain ⟨-, hfails⟩ := hall m _ [.bool false] (.ofNat 1) (.ofNat 5) hm hcode hx
      (.cons (.literal (.bool false)) .nil) (.var hk) (.literal (.num (.ofNat 5)))
    obtain ⟨n, m₁, m₂, hn, hstep, -, hmemory⟩ := hfails (.keyNotFound (.bool false)) rfl
    exact ⟨m, n, m₁, m₂, hm, hx, hn, hstep, hmemory⟩

end Program

end ExactScript
