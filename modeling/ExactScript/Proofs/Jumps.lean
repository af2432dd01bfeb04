import ExactScript.Proofs.CodeAddresses
import ExactScript.Proofs.Parts

/-!
# Jumps

The code of an expression keeps to itself: it jumps to its own positions and to the one right behind it, and
wherever it is put, nothing around it is touched. Jumps go forward, except for one at the end of every loop, which
goes back to where the test of the loop begins. For the induction over trees, the jump at the end of a loop has to
be found in the code as it finally stands, because its target lies outside of the instruction that jumps.

Without loops control only goes forward, and without calls there is nothing to return to. Such a program cannot
take more steps than it has instructions.

## Contents
* `Instr.jump?`, where an instruction may jump to;
* `LoopsBack` and `JumpsWithin`, the jumps of a part of finished code;
* `Piece.KeepsJumps` and `Expr.keepsJumps`, the jumps in the code of a tree;
* `Expr.EndsLoop` and `Expr.jumps_of_emit`, the same of code with labels;
* `Machine.Advancing`, machines that go forward only;
* `Program.jumps_stay`, the theorem.
-/

namespace ExactScript

/-! ## Instructions that jump -/

namespace Instr

/-- Where the instruction may jump to. A function that is made is entered by calls only. -/
def jump? {τ : Type} : Instr τ → Option τ
  | jump t => some t
  | jumpIf _ t => some t
  | _ => none

variable {τ υ ε : Type} {f : τ → Except ε υ}

theorem jump?_of_accounted {K : Expr Symbol → Prop} {i : Instr Nat} (h : i.Accounted K) : i.jump? = none := by
  cases i <;> first | rfl | exact h.elim

/-- Jumps are still jumps when labels are replaced. -/
theorem jump?_of_mapTarget {i : Instr τ} {j : Instr υ} {l : τ} (h : i.mapTarget f = .ok j)
    (hl : i.jump? = some l) : ∃ t, f l = .ok t ∧ j.jump? = some t := by
  have hsingle : ∀ k : υ → Instr υ, (∀ t, (k t).jump? = some t) → (do return k (← f l) : Except ε _) = .ok j →
      ∃ t, f l = .ok t ∧ j.jump? = some t := by
    intro k hk hj
    cases hf : f l with
    | error => rw [hf] at hj; cases hj
    | ok t =>
      rw [hf] at hj
      cases hj
      exact ⟨t, rfl, hk t⟩
  cases i with
  | jump =>
    cases hl
    exact hsingle .jump (fun _ => rfl) h
  | jumpIf sense =>
    cases hl
    exact hsingle (.jumpIf sense) (fun _ => rfl) h
  | _ => cases hl

end Instr

/-! ## Jumps in finished code -/

section Code

variable {K : Expr Symbol → Prop} {code : Array (Instr Nat)} {lo hi i : Nat}

/-- Position `j` is the end of the repetition in the code of a loop, one of the trees with the property `K`, and
this code starts at `t`. -/
def LoopsBack (K : Expr Symbol → Prop) (code : Array (Instr Nat)) (j t : Nat) : Prop :=
  ∃ e test body, K e ∧ e.cycle? = some (test, body) ∧ j = t + test.width + 1 + body.width ∧
    CodeAt code t ((Piece.loop test body).code t)

/-- If the piece stands at `i`, its jumps go to positions from `lo` to `hi`, and only loops jump back. -/
def JumpsWithin (K : Expr Symbol → Prop) (code : Array (Instr Nat)) (lo hi i : Nat) (q : Piece) : Prop :=
  CodeAt code i (q.code i) → ∀ j x t, i ≤ j → j < i + q.width → code[j]? = some x → x.jump? = some t →
    lo ≤ t ∧ t ≤ hi ∧ (t ≤ j → LoopsBack K code j t)

namespace JumpsWithin

variable {p q : Piece}

theorem widen {lo' hi' : Nat} (h : JumpsWithin K code lo hi i q) (hlo : lo' ≤ lo) (hhi : hi ≤ hi') :
    JumpsWithin K code lo' hi' i q := fun hcode j x t hle hlt hx ht =>
  have ⟨hlower, hupper, hback⟩ := h hcode j x t hle hlt hx ht
  ⟨Nat.le_trans hlo hlower, Nat.le_trans hupper hhi, hback⟩

theorem append (hp : JumpsWithin K code lo hi i p) (hq : JumpsWithin K code lo hi (i + p.width) q) :
    JumpsWithin K code lo hi i (p ++ q) := by
  intro hcode j x t hle hlt hx ht
  obtain ⟨hcp, hcq⟩ := codeAt_append.mp hcode
  rw [Piece.length_code] at hcq
  rw [Piece.width_append] at hlt
  by_cases hj : j < i + p.width
  · exact hp hcp j x t hle hj hx ht
  · exact hq hcq j x t (Nat.le_of_not_lt hj) (by omega) hx ht

theorem jumping {f : Nat → Instr Nat}
    (h : ∀ t, (f i).jump? = some t → lo ≤ t ∧ t ≤ hi ∧ (t ≤ i → LoopsBack K code i t)) :
    JumpsWithin K code lo hi i (.jumping f) := by
  intro hcode j x t hle hlt hx ht
  obtain rfl : j = i := by
    rw [Piece.width_jumping] at hlt
    omega
  obtain ⟨hi, -⟩ := codeAt_cons.mp hcode
  obtain rfl : f j = x := Option.some.inj (hi.symm.trans hx)
  exact h t ht

/-- Instructions that do not jump. -/
theorem ofList {is : List (Instr Nat)} (h : ∀ x ∈ is, x.jump? = none) :
    JumpsWithin K code lo hi i (.ofList is) := by
  intro hcode j x t hle hlt hx ht
  have hmem : x ∈ is := by
    obtain ⟨rest, hrest⟩ := hcode
    have hget : (code.toList.drop i)[j - i]? = some x := by
      rw [List.getElem?_drop, Nat.add_sub_cancel' hle]
      simpa using hx
    rw [Piece.width_ofList] at hlt
    rw [← hrest, List.getElem?_append_left (by rw [Piece.code_ofList]; omega)] at hget
    exact List.mem_of_getElem? hget
  rw [h x hmem] at ht
  cases ht

end JumpsWithin

end Code

/-! ## Jumps in the code of trees -/

/-- Wherever the piece stands, its jumps stay in it or go right behind it, and only loops jump back. -/
def Piece.KeepsJumps (K : Expr Symbol → Prop) (q : Piece) : Prop :=
  ∀ code i, JumpsWithin K code i (i + q.width) i q

namespace Piece.KeepsJumps

variable {K : Expr Symbol → Prop} {p q r : Piece}

theorem append (hp : p.KeepsJumps K) (hq : q.KeepsJumps K) : (p ++ q).KeepsJumps K := by
  intro code i
  rw [width_append]
  exact .append ((hp code i).widen (Nat.le_refl _) (by omega)) ((hq code _).widen (by omega) (by omega))

theorem logical {decisive : Bool} (hp : p.KeepsJumps K) (hq : q.KeepsJumps K) :
    (Piece.logical decisive p q).KeepsJumps K := by
  intro code i
  rw [width_logical]
  refine .append ((hp code i).widen (Nat.le_refl _) (by omega)) (.append (.ofList (by simp [Instr.jump?])) ?_)
  refine .append (.jumping ?_) (.append (.ofList (by simp [Instr.jump?])) ((hq code _).widen ?_ ?_))
  · rintro t ⟨⟩
    simp only [width_ofList, List.length_singleton]
    exact ⟨by omega, by omega, fun h => by omega⟩
  all_goals
    simp only [width_ofList, width_jumping, List.length_singleton]
    omega

theorem cond (hp : p.KeepsJumps K) (hq : q.KeepsJumps K) (hr : r.KeepsJumps K) :
    (Piece.cond p q r).KeepsJumps K := by
  intro code i
  rw [width_cond]
  refine .append ((hp code i).widen (Nat.le_refl _) (by omega)) (.append (.jumping ?_) ?_)
  · rintro t ⟨⟩
    exact ⟨by omega, by omega, fun h => by omega⟩
  rw [width_jumping]
  refine .append ((hq code _).widen (by omega) (by omega)) (.append (.jumping ?_) ?_)
  · rintro t ⟨⟩
    exact ⟨by omega, by omega, fun h => by omega⟩
  · exact (hr code _).widen (by simp only [width_jumping]; omega) (by simp only [width_jumping]; omega)

/-- The jump back is the end of the loop itself, which stands in the code as a whole. -/
theorem loop {e : Expr Symbol} (he : K e) (hcycle : e.cycle? = some (p, q)) (hp : p.KeepsJumps K)
    (hq : q.KeepsJumps K) : (Piece.loop p q).KeepsJumps K := by
  intro code i hcode
  have hback : LoopsBack K code (i + p.width + 1 + q.width) i := ⟨e, p, q, he, hcycle, rfl, hcode⟩
  suffices hjumps : JumpsWithin K code i (i + (Piece.loop p q).width) i (Piece.loop p q) from hjumps hcode
  rw [width_loop]
  refine .append ((hp code i).widen (Nat.le_refl _) (by omega)) (.append (.jumping ?_) ?_)
  · rintro t ⟨⟩
    exact ⟨by omega, by omega, fun h => by omega⟩
  rw [width_jumping]
  refine .append ((hq code _).widen (by omega) (by omega)) (.append (.jumping ?_) ?_)
  · rintro t ⟨⟩
    have hstart : i + p.width + 1 + q.width - (p.width + 1 + q.width) = i := by omega
    rw [hstart]
    exact ⟨by omega, by omega, fun _ => hback⟩
  · exact .ofList (by simp [Instr.jump?])

theorem function {name : Symbol} {params : List Symbol} {source : List (Expr Symbol)} (hp : p.KeepsJumps K) :
    (Piece.function name params source p).KeepsJumps K := by
  intro code i
  have hstores : ∀ x ∈ params.reverse.map fun x => (.store x.id : Instr Nat), x.jump? = none := by
    simp [Instr.jump?]
  rw [width_function]
  suffices hjumps : JumpsWithin K code i (i + (1 + (routine name params p).width + 3)) i (definition name params p)
    from hjumps
  refine .append (.jumping ?_) (.append ?_ (.append (.jumping ?_) (.ofList (by simp [Instr.jump?]))))
  · rintro t ⟨⟩
    exact ⟨by omega, by omega, fun h => by omega⟩
  · rw [width_routine]
    refine .append (.ofList hstores) (.append (.jumping ?_) (.append (.ofList (by simp [Instr.jump?]))
      (.append ((hp code _).widen ?_ ?_) (.ofList (by simp [Instr.jump?])))))
    · rintro t ⟨⟩
    all_goals
      simp only [width_ofList, width_jumping, List.length_map, List.length_reverse, List.length_singleton]
      omega
  · rintro t ⟨⟩

end Piece.KeepsJumps

theorem Piece.structural_keepsJumps {K : Expr Symbol → Prop}
    (hK : ∀ {e c : Expr Symbol}, K e → c ∈ e.children → K c) : Structural (KeepsJumps K) K where
  child := hK
  list his _ _ := .ofList fun x hx => Instr.jump?_of_accounted (his x hx)
  append := .append
  logical := .logical
  cond := .cond
  loop := .loop
  function _ := .function

/-! ## Jumps between labels -/

/-- Of the instructions `is`, which start at position `start`, number `k` is the end of the repetition in the code of
a loop of the tree, and this code starts at position `t`. -/
def Expr.EndsLoop (e : Expr Symbol) (table : Table) (is : List (Instr Label)) (start k t : Nat) : Prop :=
  ∃ d ∈ e.subtrees, ∃ test body, d.cycle? = some (test, body) ∧ start + k = t + test.width + 1 + body.width ∧
    Linked table ((is.drop (t - start)).take (Piece.loop test body).width) ((Piece.loop test body).code t)

namespace Linked

variable {table : Table} {is : List (Instr Label)} {js : List (Instr Nat)} {start : Nat}

theorem getElem? (h : Linked table is js) {k : Nat} {x : Instr Label} (hx : is[k]? = some x) :
    ∃ y, js[k]? = some y ∧ x.mapTarget table.locate = .ok y := by
  induction h generalizing k with
  | nil => cases hx
  | @cons i j _ _ hij _ ih =>
    cases k with
    | zero =>
      cases hx
      exact ⟨j, rfl, hij⟩
    | succ k => exact ih hx

/-- A row of the positions belongs to the labels at the same places. -/
theorem of_prefix_drop (h : Linked table is js) {k : Nat} {c : List (Instr Nat)} (hc : c <+: js.drop k) :
    Linked table ((is.drop k).take c.length) c := by
  have hpart := List.forall₂_take c.length (List.forall₂_drop k h)
  rwa [← List.prefix_iff_eq_take.mp hc] at hpart

end Linked

/-- **Jumps of emitted code.** They are placed, and placed in the code that was added or right behind it. -/
theorem Expr.jumps_of_emit {e : Expr Symbol} {a b : Assembly} (h : e.emit a = .ok b) :
    ∃ is, Assembly.Grown a b [] is ∧ ∀ k x l, is[k]? = some x → x.jump? = some l →
      ∃ t, b.table l.index = some t ∧ a.position ≤ t ∧ t ≤ b.position ∧
        (t ≤ a.position + k → e.EndsLoop b.table is a.position k t) := by
  obtain ⟨-, hposition, is, hgrown, hlinked⟩ := (e.compiles.value a).of_ok h
  have hlinked := hlinked b.table (fun _ _ h => h) trivial
  refine ⟨is, hgrown, fun k x l hx hl => ?_⟩
  -- the code with positions in an array where it stands at its own position
  let code := (List.replicate a.position Instr.halt ++ e.piece.code a.position).toArray
  have hdrop : code.toList.drop a.position = e.piece.code a.position := by simp [code]
  have hcode : CodeAt code a.position (e.piece.code a.position) := codeAt_of_drop hdrop
  obtain ⟨y, hy, hxy⟩ := hlinked.getElem? hx
  obtain ⟨t, ht, hyt⟩ := Instr.jump?_of_mapTarget hxy hl
  have hk : k < e.piece.width := by
    have hlt := (List.getElem?_eq_some_iff.mp hy).1
    rwa [Piece.length_code] at hlt
  have hat : code[a.position + k]? = some y := by
    rw [← Array.getElem?_toList, ← List.getElem?_drop, hdrop]
    exact hy
  have hkeeps : e.piece.KeepsJumps (Everywhere (· ∈ e.subtrees)) :=
    (Piece.structural_keepsJumps fun hd hc => (everywhere_iff.mp hd).2 _ hc).piece fun _ h => h
  obtain ⟨hlower, hupper, hback⟩ :=
    hkeeps code a.position hcode (a.position + k) y t (Nat.le_add_right ..) (by omega) hat hyt
  refine ⟨t, Table.locate_eq_iff.mp ht, hlower, hposition ▸ hupper, fun hle => ?_⟩
  obtain ⟨d, test, body, hd, hcycle, hend, hloop⟩ := hback hle
  refine ⟨d, hd.self, test, body, hcycle, hend, ?_⟩
  have hstands : (Piece.loop test body).code t <+: (e.piece.code a.position).drop (t - a.position) := by
    rw [← hdrop, List.drop_drop, Nat.add_sub_cancel' hlower]
    exact hloop
  simpa using hlinked.of_prefix_drop hstands

/-! ## Programs that only go forward -/

/-- The node is no loop and no call. -/
def Expr.Straight {β : Type} : Expr β → Prop
  | loop _ _ | count _ _ _ _ _ | call _ _ => False
  | _ => True

theorem Expr.Straight.cycle?_eq {e : Expr Symbol} (h : e.Straight) : e.cycle? = none := by
  cases e <;> first | rfl | exact h.elim

/-- Code that calls nothing. -/
def Piece.CallFree (q : Piece) : Prop := ∀ i n, .call n ∉ q.code i

theorem Piece.structural_callFree : Structural CallFree (Expr.Everywhere Expr.Straight) where
  child he hc := (Expr.everywhere_iff.mp he).2 _ hc
  list his _ _ hn :=
    have ⟨_, _, hcall⟩ := his _ hn
    hcall.self
  append hp hq i n hn := (List.mem_append.mp hn).elim (hp i n) (hq _ n)
  -- the instructions between the parts call nothing
  logical hp hq i n hn := by
    simp only [Piece.logical, code_append, code_ofList, code_jumping, List.mem_append, List.mem_singleton,
      reduceCtorEq, false_or] at hn
    exact hn.elim (hp i n) (hq _ n)
  cond hp hq hr i n hn := by
    simp only [Piece.cond, code_append, code_jumping, List.mem_append, List.mem_singleton, reduceCtorEq,
      false_or] at hn
    exact hn.elim (hp i n) (·.elim (hq _ n) (hr _ n))
  loop _ _ hp hq i n hn := by
    simp only [Piece.loop, code_append, code_ofList, code_jumping, List.mem_append, List.mem_singleton,
      reduceCtorEq, false_or, or_false] at hn
    exact hn.elim (hp i n) (hq _ n)
  function _ hq i n hn := hq _ n (by simpa [Piece.function, Piece.definition, Piece.routine] using hn)

/-- Every jump goes forward, and nothing is called. -/
structure Program.Forward (p : Program) : Prop where
  closed : Closed p.code
  lt_target : ∀ (k : Nat) (x : Instr Nat) (t : Nat), p.code[k]? = some x → x.jump? = some t → k < t
  no_call : ∀ n, .call n ∉ p.code

namespace Program.Forward

variable {tree : List (Expr Symbol)} {p : Program} {m m' : Machine} {i : Instr Nat}

theorem of_straight (h : Program.ofTree tree = .ok p) (ht : ∀ e ∈ tree, e.Everywhere Expr.Straight) : p.Forward := by
  have hcode : (Expr.pieceOfProgram tree).code 0 = p.code.toList := (Program.code_of_ofTree h).symm
  refine ⟨?_, fun k x t hx hjump => ?_, fun n hn => ?_⟩
  · cases hb : Expr.emitBlock tree .empty with
    | error => rw [Program.ofTree, hb] at h; cases h
    | ok b =>
      rw [Program.ofTree, hb] at h
      exact Assembly.closed_of_finish h
  · have hkeeps : (Expr.pieceOfProgram tree).KeepsJumps (Expr.Everywhere Expr.Straight) :=
      (Piece.structural_keepsJumps fun hd hc => (Expr.everywhere_iff.mp hd).2 _ hc).program ht
    have hlt : k < 0 + (Expr.pieceOfProgram tree).width := by
      rw [Nat.zero_add, ← Piece.length_code _ 0, hcode, Array.length_toList]
      exact (Array.getElem?_eq_some_iff.mp hx).1
    obtain ⟨-, -, hback⟩ := hkeeps p.code 0 (Program.codeAt_of_ofTree h) k x t (Nat.zero_le k) hlt hx hjump
    by_contra hnot
    obtain ⟨d, test, body, hd, hcycle, -⟩ := hback (Nat.le_of_not_lt hnot)
    rw [hd.self.cycle?_eq] at hcycle
    cases hcycle
  · refine Piece.structural_callFree.program ht 0 n ?_
    rw [hcode]
    exact Array.mem_toList_iff.mpr hn

/-- **One instruction.** Where no call is in progress, none is afterwards, and control has gone forward. -/
theorem advance (hp : p.Forward) (hprogram : m.program = p) (hframes : m.memory.Framed fun _ _ => False)
    (hi : m.current? = some i) (he : Machine.Effect m i m') :
    m.ip < m'.ip ∧ m'.memory.Framed fun _ _ => False := by
  have hcode : p.code[m.ip]? = some i := hprogram ▸ hi
  refine ⟨?_, he.framed hframes fun f _ hcall _ => hp.no_call f.arity (hcall ▸ Array.mem_of_getElem? hcode)⟩
  cases he with
  | jump => exact hp.lt_target m.ip _ _ hcode rfl
  | taken => exact hp.lt_target m.ip _ _ hcode rfl
  | @call f s hs => exact absurd (Array.mem_of_getElem? hcode) (hp.no_call f.arity)
  | ret hpop => exact (hframes.popFrame hpop).1.elim
  | _ => exact Nat.lt_succ_self m.ip

/-- **A run** ends when there are as many steps as instructions ahead. -/
theorem execute_isSome (hp : p.Forward) {fuel : Nat} (hm : Confined p m)
    (hframes : m.memory.Framed fun _ _ => False) (hfuel : p.code.size ≤ m.ip + fuel) :
    (m.execute fuel).1.isSome := by
  induction fuel generalizing m with
  | zero => exact absurd hm.ip_lt (Nat.not_lt.mpr hfuel)
  | succ fuel ih =>
    rw [Machine.execute]
    split
    · next m' hstep =>
      obtain ⟨-, i, hi, he⟩ := Machine.effect_of_step hstep
      obtain ⟨hlt, hframes'⟩ := hp.advance hm.program hframes hi he
      exact ih (hm.of_effect hp.closed hi he) hframes' (by omega)
    · rfl
    · rfl

end Program.Forward

/-! ## The theorem -/

/-- **Jumps stay in their own code.** Emission of an expression, from whatever assembly, adds instructions, leaves
the labels that were there as they were, and places every label that it makes. The jumps of the added instructions
go to positions from their start to their end, and only forward, except for the one at the end of a loop. So a
program without loops and calls, on any machine, ends or fails within as many steps as it has instructions. -/
theorem Program.jumps_stay :
    (∀ (e : Expr Symbol) (a b : Assembly), e.emit a = .ok b → ∃ is, Assembly.Grown a b [] is ∧
      ∀ k x l, is[k]? = some x → x.jump? = some l →
        ∃ t, b.table l.index = some t ∧ a.position ≤ t ∧ t ≤ b.position ∧
          (t ≤ a.position + k → e.EndsLoop b.table is a.position k t)) ∧
    ∀ (tree : List (Expr Symbol)) (p : Program), Program.ofTree tree = .ok p →
      (∀ e ∈ tree, e.Everywhere Expr.Straight) →
        ∀ m : Machine, ((m.load p).execute p.code.size).1.isSome := by
  refine ⟨fun e a b h => Expr.jumps_of_emit h, fun tree p h ht m => ?_⟩
  have hp := Program.Forward.of_straight h ht
  exact hp.execute_isSome (.load hp.closed m) .empty (Nat.le_add_left ..)

/-- An assembly in the middle of something, with a label that is not placed yet. -/
def sampleOpen : Assembly where
  code := #[.jump ⟨0⟩]
  labels := #[none]

/-- The same with an endless loop behind. -/
def sampleOpenLoop : Assembly where
  code := #[.jump ⟨0⟩, .push (.bool true), .jumpIf false ⟨2⟩, .pushUnit, .pop, .jump ⟨1⟩, .pushUnit]
  labels := #[none, some 1, some 6]

theorem Program.jumps_stay_loop :
    (∃ is, Assembly.Grown sampleOpen sampleOpenLoop [] is ∧ is[4]? = some (.jump ⟨1⟩) ∧
      (Expr.loop (.literal (.bool true)) []).EndsLoop sampleOpenLoop.table is 1 4 1) ∧
    ∃ p, Program.ofTree [.cond (.literal (.bool true)) [] none] = .ok p ∧
      ∀ m : Machine, ((m.load p).execute p.code.size).1.isSome := by
  have hemit : (Expr.loop (.literal (.bool true)) []).emit sampleOpen = .ok sampleOpenLoop := rfl
  obtain ⟨p, hp⟩ : ∃ p, Program.ofTree [.cond (.literal (.bool true)) [] none] = .ok p := ⟨_, rfl⟩
  obtain ⟨hemitted, hforward⟩ := Program.jumps_stay
  refine ⟨?_, p, hp, hforward _ p hp (by simp [Expr.Everywhere, Expr.Straight, Expr.subtrees,
    Expr.subtreesOfAll, Expr.subtreesOfAlternative])⟩
  obtain ⟨is, hgrown, hjumps⟩ := hemitted _ _ _ hemit
  obtain rfl : is = [.push (.bool true), .jumpIf false ⟨2⟩, .pushUnit, .pop, .jump ⟨1⟩, .pushUnit] :=
    (List.cons.inj hgrown.code.symm).2
  obtain ⟨t, ht, -, -, hback⟩ := hjumps 4 (.jump ⟨1⟩) ⟨1⟩ rfl rfl
  obtain rfl : 1 = t := Option.some.inj ht
  exact ⟨_, hgrown, rfl, hback (by decide)⟩

end ExactScript
