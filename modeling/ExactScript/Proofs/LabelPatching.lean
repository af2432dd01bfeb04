import Mathlib.Tactic.DeriveTraversable
import ExactScript.Proofs.CodeAddresses

/-!
# What becomes of labels

Code is put together by creating labels, placing them, and adding instructions, in any order: a label may be used
before it is placed and after that, several labels may be placed at one position, and one may be placed behind
the last instruction. What the finished code has to be is read off the operations alone: the instructions in
their order, each label replaced by the number of instructions before its place, and a `HALT` at the end. It is
the `HALT` that gives a label at the very end a position in the code, so no label is ever out of range.

## Contents
* `Assembly.Operation`, what is done to an assembly, and `Assembly.assemble`, a history of operations;
* `emitted`, `placements`, `placedAt` and `used`, what a history says about instructions and labels;
* `Assembly.Reflects`, the assembly of a history, with `Reflects.perform` and `reflects_of_assemble`;
* `Assembly.resolveAll_cases` and `Assembly.finish_cases`, how labels are replaced;
* `Assembly.Patched` and `Assembly.labels_patched`, the theorem.
-/

namespace ExactScript

-- `f <$> i` is the instruction with other targets, and with the same operands otherwise.
deriving instance Functor for Instr

namespace Instr

variable {τ υ ε : Type} {f : τ → Except ε υ} {g : τ → Option υ} {i : Instr τ}

/-- An instruction whose targets are all found. -/
theorem mapTarget_of_found (h : ∀ t ∈ i.targets, ∃ u, g t = some u ∧ f t = .ok u) :
    ∃ j, i.mapTarget f = .ok j ∧ some <$> j = g <$> i := by
  have htarget : ∀ (t : τ) (k : υ → Instr υ), (∃ u, g t = some u ∧ f t = .ok u) →
      ∃ u, (do return k (← f t) : Except ε _) = .ok (k u) ∧ g t = some u := by
    rintro t k ⟨u, hg, hf⟩
    exact ⟨u, by rw [hf]; rfl, hg⟩
  cases i with
  | jump t =>
    obtain ⟨u, hu, hg⟩ := htarget t .jump (h t List.mem_cons_self)
    exact ⟨_, hu, congrArg jump hg.symm⟩
  | jumpIf sense t =>
    obtain ⟨u, hu, hg⟩ := htarget t (.jumpIf sense) (h t List.mem_cons_self)
    exact ⟨_, hu, congrArg (jumpIf sense) hg.symm⟩
  | makeFunction t n =>
    obtain ⟨u, hu, hg⟩ := htarget t (.makeFunction · n) (h t List.mem_cons_self)
    exact ⟨_, hu, congrArg (makeFunction · n) hg.symm⟩
  | _ => exact ⟨_, rfl, rfl⟩

/-- An instruction with a target that is not found. It has no other one. -/
theorem mapTarget_of_missing {t : τ} {e : ε} (ht : t ∈ i.targets) (h : f t = .error e) :
    i.mapTarget f = .error e := by
  have htarget : ∀ (l : τ) (k : υ → Instr υ), t ∈ [l] → (do return k (← f l) : Except ε _) = .error e := by
    intro l k hl
    obtain rfl := List.mem_singleton.mp hl
    rw [h]
    rfl
  cases i with
  | jump l => exact htarget l .jump ht
  | jumpIf sense l => exact htarget l (.jumpIf sense) ht
  | makeFunction l n => exact htarget l (.makeFunction · n) ht
  | _ => cases ht

end Instr

namespace Assembly

/-! ## Histories -/

/-- What can be done to an assembly. -/
inductive Operation where
  | newLabel
  | place (l : Label)
  | emit (i : Instr Label)
  | load (x : Symbol)
  | store (x : Symbol)

/-- The labels that the operation refers to. -/
def Operation.labels : Operation → List Label
  | .place l => [l]
  | .emit i => i.targets
  | _ => []

/-- The instructions that the operation adds. -/
def Operation.code : Operation → List (Instr Label)
  | .emit i => [i]
  | .load x => [.load x.id]
  | .store x => [.store x.id]
  | _ => []

def perform (a : Assembly) : Operation → Except CompileError Assembly
  | .newLabel => .ok a.newLabel.2
  | .place l => a.place l
  | .emit i => .ok (a.emit i)
  | .load x => .ok (a.load x)
  | .store x => .ok (a.store x)

/-- All operations of a history, in which the last one comes first, on an empty assembly. -/
def assemble : List Operation → Except CompileError Assembly
  | [] => .ok .empty
  | op :: earlier => do (← assemble earlier).perform op

/-- The instructions in their order. -/
def emitted : List Operation → List (Instr Label)
  | [] => []
  | op :: earlier => emitted earlier ++ op.code

/-- The number of labels that were created. -/
def created : List Operation → Nat
  | [] => 0
  | .newLabel :: earlier => created earlier + 1
  | _ :: earlier => created earlier

/-- The labels that were placed. -/
def placements : List Operation → List Label
  | [] => []
  | .place l :: earlier => l :: placements earlier
  | _ :: earlier => placements earlier

/-- The number of instructions before the place of a label, if it was placed. -/
def placedAt (l : Label) : List Operation → Option Nat
  | [] => none
  | .place k :: earlier => if k = l then some (emitted earlier).length else placedAt l earlier
  | _ :: earlier => placedAt l earlier

/-- The labels of the instructions, in their order. -/
def used (history : List Operation) : List Label := (emitted history).flatMap Instr.targets

/-- Operations refer to labels that were created before. -/
def Own : List Operation → Prop
  | [] => True
  | op :: earlier => (∀ l ∈ op.labels, l.index < created earlier) ∧ Own earlier

variable {history : List Operation} {op : Operation} {a b : Assembly} {l : Label} {n : Nat}

theorem placedAt_isSome_iff : (placedAt l history).isSome ↔ l ∈ placements history := by
  induction history with
  | nil => exact iff_of_false nofun nofun
  | cons op earlier ih =>
    cases op with
    | place k =>
      by_cases hk : k = l
      · simp only [placedAt, placements, hk, if_true]
        exact iff_of_true rfl List.mem_cons_self
      · simp only [placedAt, placements, hk, if_false, ih]
        exact ⟨List.mem_cons_of_mem k, fun hl => (List.mem_cons.mp hl).resolve_left (Ne.symm hk)⟩
    | _ => exact ih

/-- A place is not behind the end. -/
theorem placedAt_le (h : placedAt l history = some n) : n ≤ (emitted history).length := by
  induction history with
  | nil => cases h
  | cons op earlier ih =>
    have hle : placedAt l earlier = some n → n ≤ (emitted (op :: earlier)).length := fun hearlier => by
      rw [emitted, List.length_append]
      exact Nat.le_add_right_of_le (ih hearlier)
    cases op with
    | place k =>
      simp only [placedAt] at h
      split at h
      · obtain rfl := Option.some.inj h
        rw [emitted, List.length_append]
        exact Nat.le_add_right _ _
      · exact hle h
    | _ => exact hle h

/-- What is placed was created. -/
theorem created_of_placed (h : Own history) (hl : l ∈ placements history) : l.index < created history := by
  induction history with
  | nil => cases hl
  | cons op earlier ih =>
    obtain ⟨hop, hearlier⟩ := h
    cases op with
    | newLabel => exact Nat.lt_succ_of_lt (ih hearlier hl)
    | place k =>
      rcases List.mem_cons.mp hl with rfl | hl
      · exact hop l List.mem_cons_self
      · exact ih hearlier hl
    | _ => exact ih hearlier hl

theorem created_le (op : Operation) (history : List Operation) : created history ≤ created (op :: history) := by
  cases op with
  | newLabel => exact Nat.le_succ _
  | _ => exact Nat.le_refl _

/-- What is used was created. -/
theorem created_of_used (h : Own history) (hl : l ∈ used history) : l.index < created history := by
  induction history with
  | nil => cases hl
  | cons op earlier ih =>
    obtain ⟨hop, hearlier⟩ := h
    rw [used, emitted, List.flatMap_append, List.mem_append] at hl
    refine Nat.lt_of_lt_of_le ?_ (created_le op earlier)
    rcases hl with hl | hl
    · exact ih hearlier hl
    · cases op with
      | emit i => exact hop l (by simpa [Operation.code, Operation.labels] using hl)
      | load x => simp [Operation.code, Instr.targets] at hl
      | store x => simp [Operation.code, Instr.targets] at hl
      | _ => cases hl

/-! ## The assembly of a history -/

/-- **The assembly is what its history says.** -/
structure Reflects (history : List Operation) (a : Assembly) : Prop where
  code : a.code.toList = emitted history
  size : a.labels.size = created history
  label : ∀ l : Label, l.index < created history → a.labels[l.index]? = some (placedAt l history)

namespace Reflects

theorem position (h : Reflects history a) : a.position = (emitted history).length := by
  rw [← h.code]
  rfl

/-- **Placing a label** fails just when it was placed before. -/
theorem place_eq (h : Reflects history a) (hl : l.index < created history) :
    a.place l = match placedAt l history with
      | some first => .error (.labelPlacedTwice l.index first (emitted history).length)
      | none => .ok { a with labels := a.labels.setIfInBounds l.index (some (emitted history).length) } := by
  rw [place, h.label l hl, h.position]
  cases placedAt l history <;> rfl

theorem place_error_iff (h : Reflects history a) (hl : l.index < created history) :
    (∃ e, a.place l = .error e) ↔ l ∈ placements history := by
  rw [h.place_eq hl, ← placedAt_isSome_iff]
  cases placedAt l history with
  | none => exact iff_of_false nofun nofun
  | some first => exact iff_of_true ⟨_, rfl⟩ rfl

/-- Adding instructions changes no label. -/
theorem append (h : Reflects history a) (hlabels : b.labels = a.labels)
    (hcode : b.code.toList = a.code.toList ++ op.code) (hcreated : created (op :: history) = created history)
    (hplaced : ∀ l, placedAt l (op :: history) = placedAt l history) : Reflects (op :: history) b where
  code := by rw [hcode, h.code, emitted]
  size := by rw [hlabels, h.size, hcreated]
  label l hl := by rw [hlabels, hplaced, h.label l (hcreated ▸ hl)]

/-- **One operation.** -/
theorem perform (h : Reflects history a) (hown : Own (op :: history)) (hb : a.perform op = .ok b) :
    Reflects (op :: history) b := by
  obtain ⟨hop, hearlier⟩ := hown
  cases op with
  | newLabel =>
    obtain rfl := Except.ok.inj hb
    refine ⟨by simp [Assembly.newLabel, h.code, emitted, Operation.code], ?_, fun l hl => ?_⟩
    · rw [Assembly.newLabel, Array.size_push, h.size, created]
    · show (a.labels.push none)[l.index]? = _
      rw [Array.getElem?_push, h.size]
      split
      · -- the new label is not placed, since only created labels are
        next heq =>
        have hnew : placedAt l history = none := by
          rw [← Option.not_isSome_iff_eq_none, placedAt_isSome_iff]
          intro hplaced
          have hlt := created_of_placed hearlier hplaced
          omega
        exact congrArg some hnew.symm
      · next hne =>
        have hlt : l.index < created history := by
          have hle : l.index < created history + 1 := hl
          omega
        exact h.label l hlt
  | place k =>
    have hk := hop k List.mem_cons_self
    rw [Assembly.perform, h.place_eq hk] at hb
    split at hb
    · cases hb
    · obtain rfl := Except.ok.inj hb
      refine ⟨by simp [h.code, emitted, Operation.code], by simp [h.size, created], fun l hl => ?_⟩
      simp only [placedAt]
      split
      · next heq =>
        subst heq
        rw [Array.getElem?_setIfInBounds_self_of_lt (h.size ▸ hk)]
      · next hne =>
        have hindex : k.index ≠ l.index := fun heq => hne (by cases k; cases l; exact congrArg Label.mk heq)
        rw [Array.getElem?_setIfInBounds_ne hindex]
        exact h.label l hl
  | emit i =>
    obtain rfl := Except.ok.inj hb
    exact h.append rfl (by simp [Assembly.emit, Operation.code]) rfl fun _ => rfl
  | load x =>
    obtain rfl := Except.ok.inj hb
    exact h.append (a.labels_note x) (by simp [Assembly.load, Assembly.emit, code_note, Operation.code]) rfl fun _ => rfl
  | store x =>
    obtain rfl := Except.ok.inj hb
    exact h.append (a.labels_note x) (by simp [Assembly.store, Assembly.emit, code_note, Operation.code]) rfl fun _ => rfl

/-- A label that was created stands for its place. The length of the code counts the last `HALT`. -/
theorem resolve_eq (h : Reflects history a) (hl : l.index < created history) :
    a.resolve ((emitted history).length + 1) l = match placedAt l history with
      | some n => .ok n
      | none => .error (.unresolvedLabel l.index) := by
  rw [resolve, h.label l hl]
  cases hplaced : placedAt l history with
  | none => rfl
  | some n => exact if_pos (Nat.lt_succ_of_le (placedAt_le hplaced))

end Reflects

theorem reflects_of_assemble (hown : Own history) (h : assemble history = .ok a) : Reflects history a := by
  induction history generalizing a with
  | nil =>
    obtain rfl := Except.ok.inj h
    exact ⟨rfl, rfl, fun l hl => absurd hl (Nat.not_lt_zero _)⟩
  | cons op earlier ih =>
    rw [assemble] at h
    cases hearlier : assemble earlier with
    | error e => rw [hearlier] at h; cases h
    | ok b =>
      rw [hearlier] at h
      exact (ih hown.2 hearlier).perform hown h

theorem assemble_cons_ok_iff : (∃ b, assemble (op :: history) = .ok b) ↔
    ∃ a, assemble history = .ok a ∧ ∃ b, a.perform op = .ok b := by
  rw [assemble]
  cases assemble history with
  | error e => exact iff_of_false nofun nofun
  | ok a => exact ⟨fun hb => ⟨a, rfl, hb⟩, fun ⟨_, ha, hb⟩ => Except.ok.inj ha ▸ hb⟩

/-- **A history that can be performed** places no label twice. -/
theorem assemble_ok_iff (hown : Own history) : (∃ a, assemble history = .ok a) ↔ (placements history).Nodup := by
  induction history with
  | nil => exact iff_of_true ⟨_, rfl⟩ List.nodup_nil
  | cons op earlier ih =>
    rw [assemble_cons_ok_iff]
    have htotal (h : ∀ a : Assembly, ∃ b, a.perform op = .ok b) :
        (∃ a, assemble earlier = .ok a ∧ ∃ b, a.perform op = .ok b) ↔ (placements earlier).Nodup := by
      rw [← ih hown.2]
      exact exists_congr fun a => and_iff_left (h a)
    cases op with
    | place k =>
      rw [placements, List.nodup_cons, ← ih hown.2]
      have hplace : ∀ a, assemble earlier = .ok a → ((∃ b, a.place k = .ok b) ↔ k ∉ placements earlier) := by
        intro a ha
        rw [← (reflects_of_assemble hown.2 ha).place_error_iff (hown.1 k List.mem_cons_self)]
        cases a.place k with
        | error e => exact iff_of_false nofun fun hno => hno ⟨e, rfl⟩
        | ok b => exact iff_of_true ⟨b, rfl⟩ nofun
      constructor
      · rintro ⟨a, ha, hb⟩
        exact ⟨(hplace a ha).mp hb, a, ha⟩
      · rintro ⟨hnew, a, ha⟩
        exact ⟨a, ha, (hplace a ha).mpr hnew⟩
    | _ => exact htotal fun a => ⟨_, rfl⟩

/-! ## Replacing labels -/

/-- The labels of instructions are replaced by their places, or the first one without a place is reported. -/
theorem resolveAll_cases {place : Label → Option Nat} {is : List (Instr Label)}
    (h : ∀ l ∈ is.flatMap Instr.targets, a.resolve n l = match place l with
      | some p => .ok p
      | none => .error (.unresolvedLabel l.index)) :
    (∃ l, (is.flatMap Instr.targets).find? (fun l => (place l).isNone) = some l ∧
      a.resolveAll n is = .error (.unresolvedLabel l.index)) ∨
    (∀ l ∈ is.flatMap Instr.targets, (place l).isSome) ∧
      ∃ js, a.resolveAll n is = .ok js ∧ js.map (some <$> ·) = is.map (place <$> ·) := by
  induction is with
  | nil => exact .inr ⟨nofun, [], rfl, rfl⟩
  | cons i is ih =>
    simp only [List.flatMap_cons, List.forall_mem_append, List.find?_append] at h ⊢
    obtain ⟨hi, his⟩ := h
    cases hmissing : i.targets.find? fun l => (place l).isNone with
    | some l =>
      -- it is the first one, whatever follows
      have hresolve : a.resolve n l = .error (.unresolvedLabel l.index) := by
        have hnone := List.find?_some hmissing
        rw [hi l (List.mem_of_find?_eq_some hmissing), Option.isNone_iff_eq_none.mp hnone]
      refine .inl ⟨l, rfl, ?_⟩
      rw [resolveAll, Instr.mapTarget_of_missing (List.mem_of_find?_eq_some hmissing) hresolve]
      rfl
    | none =>
      have hfound : ∀ l ∈ i.targets, ∃ p, place l = some p ∧ a.resolve n l = .ok p := by
        intro l hl
        have hsome := List.find?_eq_none.mp hmissing l hl
        obtain ⟨p, hp⟩ := Option.ne_none_iff_exists'.mp (mt Option.isNone_iff_eq_none.mpr hsome)
        exact ⟨p, hp, by rw [hi l hl, hp]⟩
      obtain ⟨j, hj, hmap⟩ := Instr.mapTarget_of_found hfound
      rw [resolveAll, hj]
      rcases ih his with ⟨l, hl, herror⟩ | ⟨hall, js, hjs, hmaps⟩
      · exact .inl ⟨l, hl, by rw [herror]; rfl⟩
      · refine .inr ⟨⟨fun l hl => ?_, hall⟩, j :: js, by rw [hjs]; rfl, ?_⟩
        · obtain ⟨p, hp, -⟩ := hfound l hl
          rw [hp]
          rfl
        · rw [List.map_cons, List.map_cons, hmap, hmaps]

/-- **Finishing** fails for a label that is used and not placed, and for nothing else. -/
theorem finish_cases (h : Reflects history a) (hown : Own history) :
    (∃ l, (used history).find? (fun l => l ∉ placements history) = some l ∧
      a.finish = .error (.unresolvedLabel l.index)) ∨
    (∀ l ∈ used history, l ∈ placements history) ∧
      ∃ p, a.finish = .ok p ∧
        p.code.toList.map (some <$> ·) = (emitted history ++ [Instr.halt]).map ((placedAt · history) <$> ·) := by
  have hcode : (a.emit .halt).code.toList = emitted history ++ [Instr.halt] := by
    rw [← h.code]
    exact Array.toList_push
  have hsize : (a.emit .halt).code.size = (emitted history).length + 1 := by
    rw [← Array.length_toList, hcode, List.length_append]
    rfl
  have hused : (emitted history ++ [Instr.halt]).flatMap Instr.targets = used history := by
    rw [List.flatMap_append, used]
    exact List.append_nil _
  have hresolve : ∀ l ∈ (emitted history ++ [Instr.halt]).flatMap Instr.targets,
      (a.emit .halt).resolve ((emitted history).length + 1) l = match placedAt l history with
        | some p => .ok p
        | none => .error (.unresolvedLabel l.index) := by
    intro l hl
    rw [hused] at hl
    exact h.resolve_eq (created_of_used hown hl)
  have hmissing : (fun l => (placedAt l history).isNone) = fun l => decide (l ∉ placements history) := by
    funext l
    rw [Bool.eq_iff_iff, decide_eq_true_iff, ← placedAt_isSome_iff, Option.isNone_iff_eq_none,
      Option.not_isSome_iff_eq_none]
  have hcases := resolveAll_cases hresolve
  rw [hused, hmissing] at hcases
  simp only [finish, hcode, hsize]
  rcases hcases with ⟨l, hl, herror⟩ | ⟨hall, js, hjs, hmap⟩
  · exact .inl ⟨l, hl, by rw [herror]; rfl⟩
  · exact .inr ⟨fun l hl => placedAt_isSome_iff.mp (hall l hl), _, by rw [hjs]; rfl, hmap⟩

/-! ## The theorem -/

/-- What can be done next with the assembly of a history, and what comes out of it. -/
structure Patched (history : List Operation) (a : Assembly) : Prop where
  newLabel : a.newLabel.1 = ⟨created history⟩
  /-- Placing fails just for the labels that were placed before. -/
  place : ∀ l, l.index < created history → ((∃ e, a.place l = .error e) ↔ l ∈ placements history)
  placedTwice : ∀ l e, l.index < created history → a.place l = .error e →
    ∃ first, placedAt l history = some first ∧ e = .labelPlacedTwice l.index first (emitted history).length
  /-- Finishing succeeds just when the labels of all instructions were placed. -/
  finish : (∃ p, a.finish = .ok p) ↔ ∀ l ∈ used history, l ∈ placements history
  /-- Then the code has the instructions in their order, with places for labels, and a `HALT`. -/
  finished : ∀ p, a.finish = .ok p →
    p.code.toList.map (some <$> ·) = (emitted history ++ [Instr.halt]).map ((placedAt · history) <$> ·)
  /-- Otherwise the first label without a place is reported. -/
  refused : ∀ e, a.finish = .error e →
    ∃ l, (used history).find? (fun l => l ∉ placements history) = some l ∧ e = .unresolvedLabel l.index

theorem Reflects.patched (h : Reflects history a) (hown : Own history) : Patched history a where
  newLabel := congrArg Label.mk h.size
  place _ hl := h.place_error_iff hl
  placedTwice l e hl he := by
    rw [h.place_eq hl] at he
    split at he
    · next first hfirst => exact ⟨first, hfirst, (Except.error.inj he).symm⟩
    · cases he
  finish := by
    rcases finish_cases h hown with ⟨l, hl, herror⟩ | ⟨hall, p, hp, -⟩
    · rw [herror]
      refine iff_of_false nofun fun hall => ?_
      have hmissing := List.find?_some hl
      exact of_decide_eq_true hmissing (hall l (List.mem_of_find?_eq_some hl))
    · exact iff_of_true ⟨p, hp⟩ hall
  finished p hp := by
    rcases finish_cases h hown with ⟨l, hl, herror⟩ | ⟨-, q, hq, hcode⟩
    · cases herror.symm.trans hp
    · obtain rfl := Except.ok.inj (hq.symm.trans hp)
      exact hcode
  refused e he := by
    rcases finish_cases h hown with ⟨l, hl, herror⟩ | ⟨-, q, hq, -⟩
    · exact ⟨l, hl, Except.error.inj (he.symm.trans herror)⟩
    · cases hq.symm.trans he

/-- **Labels become positions.** Take any history of operations that refer to labels of the assembly. It can be
performed just when it places no label twice, and for the assembly that it ends in the following holds. A label
cannot be placed just if it was placed before. Finishing succeeds just if all labels of instructions were placed:
the code has these instructions in their order, in which a label is replaced by the number of instructions before
its place and nothing else is changed, and a `HALT` behind them. Otherwise the first label without a place is
reported; there is no other error, such as a label that is out of range. -/
theorem labels_patched (h : Own history) :
    ((∃ a, assemble history = .ok a) ↔ (placements history).Nodup) ∧
    ∀ a, assemble history = .ok a → Patched history a :=
  ⟨assemble_ok_iff h, fun _ ha => (reflects_of_assemble h ha).patched h⟩

/-- A loop, with a label at its begin and another one behind the last instruction. -/
def sampleLoop : List Operation :=
  [.place ⟨1⟩, .emit (.jump ⟨0⟩), .emit (.jumpIf false ⟨1⟩), .emit (.push (.bool true)), .place ⟨0⟩, .newLabel,
    .newLabel]

theorem labels_patched_loop : Own sampleLoop ∧ ∃ a p, assemble sampleLoop = .ok a ∧ a.finish = .ok p ∧
    p.code.toList.map (some <$> ·) = [.push (.bool true), .jumpIf false (some 3), .jump (some 0), Instr.halt] ∧
    (∃ e, a.place ⟨1⟩ = .error e) := by
  have hown : Own sampleLoop := by simp [Own, sampleLoop, Operation.labels, Instr.targets, created]
  obtain ⟨hperformed, hpatched⟩ := labels_patched hown
  obtain ⟨a, ha⟩ := hperformed.mpr (by decide)
  have ha' := hpatched a ha
  obtain ⟨p, hp⟩ := ha'.finish.mpr (by decide)
  exact ⟨hown, a, p, ha, hp, ha'.finished p hp, (ha'.place ⟨1⟩ (by decide)).mpr (by decide)⟩

end Assembly

end ExactScript
