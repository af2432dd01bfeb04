import ExactScript.Proofs.Piece
import ExactScript.Proofs.Effects

/-!
# Facts at positions

What is known when control is at a position of a program, and how every instruction changes it: a
*discipline*. A piece of code follows a discipline from what is known before it to what is known behind
it, when each of its positions can be given a fact that fits the instructions around it. Here it is shown
once, for every discipline, how the facts of joined pieces come from those of their parts; the two
disciplines that are used are those of stack heights and of stored symbols.

## Contents
* `Discipline`, `Discipline.Admits`, the demand that one instruction makes;
* `Discipline.Flows`, code with its exits, and `append`;
* `Discipline.Passes`, code that is left at its end only, and its joints;
* `Discipline.Annotates`, a fact for every position of a program.
-/

namespace ExactScript

/-- Facts of type `A` at positions of a program. -/
structure Discipline (A : Type) where
  /-- The first fact says no less than the second. -/
  Implies : A → A → Prop
  /-- What an instruction needs, and what is known after it. -/
  Step : Instr Nat → A → A → Prop
  /-- What a definition needs, what is known when the function is entered, and after the definition. -/
  Defines : FunctionRef → A → A → A → Prop
  refl : ∀ a, Implies a a
  trans : ∀ {a b c}, Implies a b → Implies b c → Implies a c

namespace Discipline

variable {A : Type} (D : Discipline A)

/-- The demand of the instruction at position `i`, where `a` is known. Control may arrive at a position
`t` with what is known of it when `arrive` allows that. -/
def Admits (arrive : Nat → A → Prop) (i : Nat) (a : A) : Instr Nat → Prop
  | .jump target => arrive target a
  | .jumpIf sense target => ∃ b, D.Step (.jumpIf sense target) a b ∧ arrive target b ∧ arrive (i + 1) b
  | .makeFunction entry arity =>
    ∃ x b, D.Defines ⟨entry, arity⟩ a x b ∧ arrive entry x ∧ arrive (i + 1) b
  | .ret => ∃ b, D.Step .ret a b
  | .halt => ∃ b, D.Step .halt a b
  | instr => ∃ b, D.Step instr a b ∧ arrive (i + 1) b

theorem Admits.mono {arrive arrive' : Nat → A → Prop} {i : Nat} {a : A} {instr : Instr Nat}
    (h : ∀ t x, arrive t x → arrive' t x) (hi : D.Admits arrive i a instr) :
    D.Admits arrive' i a instr := by
  cases instr with
  | jump target => exact h _ _ hi
  | jumpIf sense target =>
    obtain ⟨b, hb, ht, hn⟩ := hi
    exact ⟨b, hb, h _ _ ht, h _ _ hn⟩
  | makeFunction entry arity =>
    obtain ⟨x, b, hb, ht, hn⟩ := hi
    exact ⟨x, b, hb, h _ _ ht, h _ _ hn⟩
  | ret => exact hi
  | halt => exact hi
  | _ =>
    obtain ⟨b, hb, hn⟩ := hi
    exact ⟨b, hb, h _ _ hn⟩

/-- One of the exits is at `t`, and expects no more than `x`. -/
def Leaves (exits : List (Nat × A)) (t : Nat) (x : A) : Prop := ∃ y, (t, y) ∈ exits ∧ D.Implies x y

/-- `t` is inside of the code, where the facts are `ann`, or an exit. -/
def Arrives (ann : Nat → A) (start stop : Nat) (exits : List (Nat × A)) (t : Nat) (x : A) : Prop :=
  (start ≤ t ∧ t < stop ∧ D.Implies x (ann t)) ∨ D.Leaves exits t x

/-- **Code that follows the discipline.** The piece at position `i` is entered where `a` is known, and
left at its end where `b` is known, or through the exits. -/
def Flows (exits : List (Nat × A)) (i : Nat) (a : A) (p : Piece) (b : A) : Prop :=
  ∃ ann : Nat → A, (0 < p.width → D.Implies a (ann i)) ∧ (p.width = 0 → D.Implies a b) ∧
    ∀ k instr, (p.code i)[k]? = some instr →
      D.Admits (D.Arrives ann i (i + p.width) ((i + p.width, b) :: exits)) (i + k) (ann (i + k)) instr

variable {D} {exits exits' : List (Nat × A)} {i : Nat} {a a' b b' c d e x : A} {p q r : Piece}

theorem leaves_of_mem {t : Nat} {x y : A} (h : (t, y) ∈ exits) (hxy : D.Implies x y) :
    D.Leaves exits t x :=
  ⟨y, h, hxy⟩

theorem Leaves.weaken {t : Nat} {x y : A} (hxy : D.Implies x y) (h : D.Leaves exits t y) :
    D.Leaves exits t x := by
  obtain ⟨z, hz, hyz⟩ := h
  exact ⟨z, hz, D.trans hxy hyz⟩

/-- Exits can be added, and can expect less. -/
theorem Leaves.mono (hx : ∀ t x, (t, x) ∈ exits → D.Leaves exits' t x) {t : Nat} {x : A}
    (h : D.Leaves exits t x) : D.Leaves exits' t x := by
  obtain ⟨y, hy, hle⟩ := h
  exact (hx t y hy).weaken hle

theorem Leaves.tail {t k : Nat} {x y : A} (h : D.Leaves exits t x) : D.Leaves ((k, y) :: exits) t x := by
  obtain ⟨z, hz, hxz⟩ := h
  exact ⟨z, List.mem_cons_of_mem _ hz, hxz⟩

namespace Flows

theorem nil (h : D.Implies a b) : D.Flows exits i a (.ofList []) b :=
  ⟨fun _ => a, fun h => by simp at h, fun _ => h, fun k instr hk => by simp at hk⟩

theorem one {f : Nat → Instr Nat} (h : D.Admits (D.Leaves ((i + 1, b) :: exits)) i a (f i)) :
    D.Flows exits i a (.jumping f) b := by
  refine ⟨fun _ => a, fun _ => D.refl a, fun h => by simp at h, fun k instr hk => ?_⟩
  obtain ⟨rfl, rfl⟩ : k = 0 ∧ f i = instr := by
    cases k with
    | zero => simpa using hk
    | succ k => simp at hk
  exact h.mono D fun _ _ => .inr

/-- Knowing more before the code does no harm. -/
theorem weaken (haa : D.Implies a a') (h : D.Flows exits i a' p b) : D.Flows exits i a p b := by
  obtain ⟨ann, hin, hout, h⟩ := h
  exact ⟨ann, fun hw => D.trans haa (hin hw), fun hw => D.trans haa (hout hw), h⟩

theorem mono (hx : ∀ t x, (t, x) ∈ exits → D.Leaves exits' t x) (h : D.Flows exits i a p b) :
    D.Flows exits' i a p b := by
  obtain ⟨ann, hin, hout, h⟩ := h
  refine ⟨ann, hin, hout, fun k instr hk => (h k instr hk).mono D fun t x => Or.imp_right ?_⟩
  refine Leaves.mono fun t y hy => ?_
  rcases List.mem_cons.mp hy with heq | hy
  · cases heq
    exact leaves_of_mem List.mem_cons_self (D.refl _)
  · exact (hx t y hy).tail

/-- **Code after code.** The first part may also leave at the end of the second. -/
theorem append (hp : D.Flows ((i + p.width + q.width, c) :: exits) i a p b)
    (hq : D.Flows exits (i + p.width) b q c) : D.Flows exits i a (p ++ q) c := by
  obtain ⟨ann₁, hin₁, hout₁, hp⟩ := hp
  obtain ⟨ann₂, hin₂, hout₂, hq⟩ := hq
  let ann : Nat → A := fun t => if t < i + p.width then ann₁ t else ann₂ t
  let arrive := D.Arrives ann i (i + (p ++ q).width) ((i + (p ++ q).width, c) :: exits)
  have hwidth : i + (p ++ q).width = i + p.width + q.width := by
    rw [Piece.width_append, Nat.add_assoc]
  have hfirst : ∀ {t}, t < i + p.width → ann t = ann₁ t := fun h => if_pos h
  have hsecond : ∀ {t}, i + p.width ≤ t → ann t = ann₂ t := fun h => if_neg (Nat.not_lt.mpr h)
  have hexits : ∀ t x, D.Leaves ((i + p.width + q.width, c) :: exits) t x → arrive t x := by
    intro t x hl
    rw [← hwidth] at hl
    exact .inr hl
  -- the end of the first part is the start of the second, or its end when that is empty
  have hmiddle : ∀ {x}, D.Implies x b → arrive (i + p.width) x := by
    intro x hx
    rcases Nat.eq_zero_or_pos q.width with hw | hw
    · refine hexits _ _ (leaves_of_mem ?_ (D.trans hx (hout₂ hw)))
      simp [hw]
    · refine .inl ⟨by omega, by omega, ?_⟩
      rw [hsecond (Nat.le_refl _)]
      exact D.trans hx (hin₂ hw)
  have harrive₁ : ∀ t x, D.Arrives ann₁ i (i + p.width)
      ((i + p.width, b) :: (i + p.width + q.width, c) :: exits) t x → arrive t x := by
    rintro t x (⟨hlo, hhi, hle⟩ | ⟨y, hy, hle⟩)
    · exact .inl ⟨hlo, by omega, by rwa [hfirst hhi]⟩
    · rcases List.mem_cons.mp hy with heq | hy
      · cases heq
        exact hmiddle hle
      · exact hexits _ _ (leaves_of_mem hy hle)
  have harrive₂ : ∀ t x, D.Arrives ann₂ (i + p.width) (i + p.width + q.width)
      ((i + p.width + q.width, c) :: exits) t x → arrive t x := by
    rintro t x (⟨hlo, hhi, hle⟩ | hl)
    · exact .inl ⟨by omega, by omega, by rwa [hsecond hlo]⟩
    · exact hexits _ _ hl
  refine ⟨ann, fun hw => ?_, fun hw => ?_, fun k instr hk => ?_⟩
  · rcases Nat.eq_zero_or_pos p.width with hp0 | hp0
    · have hq0 : 0 < q.width := by omega
      have hi : i + p.width = i := by omega
      rw [hsecond (by omega)]
      rw [hi] at hin₂
      exact D.trans (hout₁ hp0) (hin₂ hq0)
    · rw [hfirst (by omega)]
      exact hin₁ hp0
  · exact D.trans (hout₁ (by omega)) (hout₂ (by omega))
  · rw [Piece.code_append] at hk
    by_cases hkp : k < p.width
    · rw [List.getElem?_append_left (by simpa using hkp)] at hk
      rw [hfirst (by omega)]
      exact (hp k instr hk).mono D harrive₁
    · rw [List.getElem?_append_right (by simpa using hkp), Piece.length_code] at hk
      have hpos : i + k = i + p.width + (k - p.width) := by omega
      rw [hsecond (by omega), hpos]
      exact (hq _ instr hk).mono D harrive₂

/-- An exit that leads back to the start is no exit. -/
theorem back (h : D.Flows ((i, x) :: exits) i a p b) (hxa : D.Implies x a) (hw : 0 < p.width) :
    D.Flows exits i a p b := by
  obtain ⟨ann, hin, hout, h⟩ := h
  refine ⟨ann, hin, hout, fun k instr hk => (h k instr hk).mono D fun t y hy => ?_⟩
  rcases hy with hy | ⟨z, hz, hle⟩
  · exact .inl hy
  · simp only [List.mem_cons, Prod.mk.injEq] at hz
    rcases hz with hz | ⟨rfl, rfl⟩ | hz
    · exact .inr (leaves_of_mem (by simp [hz]) hle)
    · exact .inl ⟨Nat.le_refl t, by omega, D.trans hle (D.trans hxa (hin hw))⟩
    · exact .inr (leaves_of_mem (by simp [hz]) hle)

/-- **Code that is jumped over.** It is entered by calls only, also from the code behind it. -/
theorem around {t : Nat} (hr : D.Flows [] (i + 1) x r a) (hw : 0 < r.width)
    (hq : D.Flows [(i + 1, x)] (i + 1 + r.width) a q b) (ht : t = i + 1 + r.width) :
    D.Flows [] i a (.jumping (fun _ => .jump t) ++ (r ++ q)) b := by
  obtain ⟨ann₁, hin₁, -, hr⟩ := hr
  obtain ⟨ann₂, hin₂, hout₂, hq⟩ := hq
  let ann : Nat → A := fun k =>
    if k < i + 1 then a else if k < i + 1 + r.width then ann₁ k else ann₂ k
  let whole : Piece := .jumping (fun _ => .jump t) ++ (r ++ q)
  let arrive := D.Arrives ann i (i + whole.width) [(i + whole.width, b)]
  have hwidth : i + whole.width = i + 1 + r.width + q.width := by
    simp only [whole, Piece.width_append, Piece.width_jumping]
    omega
  have hhead : ann i = a := if_pos (by omega)
  have hinner : ∀ {k}, i + 1 ≤ k → k < i + 1 + r.width → ann k = ann₁ k := fun hlo hhi => by
    simp only [ann, if_neg (Nat.not_lt.mpr hlo), if_pos hhi]
  have houter : ∀ {k}, i + 1 + r.width ≤ k → ann k = ann₂ k := fun {k} hlo => by
    have hlo' : ¬k < i + 1 := by omega
    simp only [ann, if_neg hlo', if_neg (Nat.not_lt.mpr hlo)]
  have hbehind : ∀ {y}, D.Implies y a → arrive (i + 1 + r.width) y := by
    intro y hy
    rcases Nat.eq_zero_or_pos q.width with hw | hw
    · exact .inr (leaves_of_mem (by simp; omega) (D.trans hy (hout₂ hw)))
    · refine .inl ⟨by omega, by omega, ?_⟩
      rw [houter (Nat.le_refl _)]
      exact D.trans hy (hin₂ hw)
  have hentry : ∀ {y}, D.Implies y x → arrive (i + 1) y := by
    intro y hy
    refine .inl ⟨by omega, by omega, ?_⟩
    rw [hinner (Nat.le_refl _) (by omega)]
    exact D.trans hy (hin₁ hw)
  have harrive₁ : ∀ k y, D.Arrives ann₁ (i + 1) (i + 1 + r.width) [(i + 1 + r.width, a)] k y →
      arrive k y := by
    rintro k y (⟨hlo, hhi, hle⟩ | ⟨z, hz, hle⟩)
    · exact .inl ⟨by omega, by omega, by rwa [hinner hlo hhi]⟩
    · obtain ⟨rfl, rfl⟩ : k = i + 1 + r.width ∧ z = a := by simpa using hz
      exact hbehind hle
  have harrive₂ : ∀ k y, D.Arrives ann₂ (i + 1 + r.width) (i + 1 + r.width + q.width)
      [(i + 1 + r.width + q.width, b), (i + 1, x)] k y → arrive k y := by
    rintro k y (⟨hlo, hhi, hle⟩ | ⟨z, hz, hle⟩)
    · exact .inl ⟨by omega, by omega, by rwa [houter hlo]⟩
    · simp only [List.mem_cons, Prod.mk.injEq, List.not_mem_nil, or_false] at hz
      rcases hz with ⟨rfl, rfl⟩ | ⟨rfl, rfl⟩
      · exact .inr (leaves_of_mem (by simp [hwidth]) hle)
      · exact hentry hle
  refine ⟨ann, fun _ => hhead ▸ D.refl a, fun hw => absurd hw (by simp), fun k instr hk => ?_⟩
  rw [Piece.code_append, Piece.code_append, Piece.code_jumping, Piece.width_jumping] at hk
  cases k with
  | zero =>
    obtain rfl : .jump t = instr := by simpa using hk
    show arrive t (ann (i + 0))
    rw [Nat.add_zero, hhead, ht]
    exact hbehind (D.refl a)
  | succ k =>
    replace hk : (r.code (i + 1) ++ q.code (i + 1 + r.width))[k]? = some instr := hk
    by_cases hkr : k < r.width
    · rw [List.getElem?_append_left (by simpa using hkr)] at hk
      have hpos : i + (k + 1) = i + 1 + k := by omega
      rw [hpos, hinner (by omega) (by omega)]
      exact (hr k instr hk).mono D harrive₁
    · rw [List.getElem?_append_right (by simpa using hkr), Piece.length_code] at hk
      have hpos : i + (k + 1) = i + 1 + r.width + (k - r.width) := by omega
      rw [hpos, houter (by omega)]
      exact (hq _ instr hk).mono D harrive₂

/-- One instruction before the rest. -/
theorem cons {f : Nat → Instr Nat}
    (h : D.Admits (D.Leaves ((i + 1, b) :: (i + 1 + q.width, c) :: exits)) i a (f i))
    (hq : D.Flows exits (i + 1) b q c) : D.Flows exits i a (.jumping f ++ q) c :=
  .append (.one h) hq

end Flows

/-- The instruction goes on with the next, wherever it stands. -/
def Goes (D : Discipline A) (instr : Instr Nat) (a b : A) : Prop :=
  ∀ (arrive : Nat → A → Prop) (i : Nat), arrive (i + 1) b → D.Admits arrive i a instr

theorem Flows.goes {instr : Instr Nat} (h : D.Goes instr a b) : D.Flows exits i a (.ofList [instr]) b :=
  .one (f := fun _ => instr) (h _ _ (leaves_of_mem List.mem_cons_self (D.refl b)))

/-! ## Joints -/

variable (D) in
/-- The piece is left at its end only, where `b` is known. -/
def Passes (i : Nat) (a : A) (p : Piece) (b : A) : Prop := D.Flows [] i a p b

namespace Passes

theorem flows (h : D.Passes i a p b) : D.Flows exits i a p b := Flows.mono (fun _ _ h => by cases h) h

theorem nil (h : D.Implies a b) : D.Passes i a (.ofList []) b := Flows.nil h

theorem goes {instr : Instr Nat} (h : D.Goes instr a b) : D.Passes i a (.ofList [instr]) b :=
  Flows.goes h

theorem append (hp : D.Passes i a p b) (hq : D.Passes (i + p.width) b q c) :
    D.Passes i a (p ++ q) c :=
  Flows.append hp.flows hq

theorem imp (haa : D.Implies a a') (h : D.Passes i a' p b') (hbb : D.Implies b' b) :
    D.Passes i a p b := by
  have hp : D.Passes i a (p ++ .ofList []) b := .append (Flows.weaken haa h) (.nil hbb)
  rwa [Piece.append_nil] at hp

/-- The joint of `and` and `or`. -/
theorem logical {decisive : Bool} (hl : D.Passes i a p b) (hdup : D.Goes .dup b c)
    (hjump : ∀ t, D.Step (.jumpIf decisive t) c d) (hpop : D.Goes .pop d e)
    (hr : D.Passes (i + p.width + 3) e q d) : D.Passes i a (.logical decisive p q) d := by
  have hright : D.Passes (i + p.width + 2) d (.ofList [.pop] ++ q) d := .append (.goes hpop) hr
  have hbranch : D.Passes (i + p.width + 1) c
      (.jumping (fun i => .jumpIf decisive (i + 2 + q.width)) ++ (.ofList [.pop] ++ q)) d := by
    refine Flows.cons (b := d) ⟨d, hjump _, leaves_of_mem ?_ (D.refl d), leaves_of_mem ?_ (D.refl d)⟩
      hright
    · simp
      omega
    · simp
  exact .append hl (.append (.goes hdup) hbranch)

/-- The joint of conditionals. -/
theorem cond (ht : D.Passes i a p b) (hjump : ∀ t, D.Step (.jumpIf false t) b c)
    (hyes : D.Passes (i + p.width + 1) c q d) (hno : D.Passes (i + p.width + 1 + q.width + 1) c r d) :
    D.Passes i a (.cond p q r) d := by
  -- the alternative is reached from the test, and jumped over from the end of the other branch
  let stop := i + p.width + 1 + q.width + 1 + r.width
  have hskip : D.Flows [(stop, d)] (i + p.width + 1 + q.width) d
      (.jumping fun i => .jump (i + 1 + r.width)) c := by
    refine .one (leaves_of_mem (y := d) ?_ (D.refl d))
    simp [stop]
  have hbranch : D.Flows [(stop, d)] (i + p.width) b
      (.jumping (fun i => .jumpIf false (i + q.width + 2)) ++
        (q ++ .jumping fun i => .jump (i + 1 + r.width))) c := by
    refine Flows.cons (b := c) ⟨c, hjump _, leaves_of_mem ?_ (D.refl c), leaves_of_mem ?_ (D.refl c)⟩
      (.append hyes.flows hskip)
    · simp
      omega
    · simp
  have hfirst : D.Flows [(stop, d)] i a (p ++ (.jumping (fun i => .jumpIf false (i + q.width + 2)) ++
      (q ++ .jumping fun i => .jump (i + 1 + r.width)))) c :=
    .append ht.flows (hbranch.mono fun t x h => leaves_of_mem h (D.refl x))
  have hwhole : D.Flows [] i a ((p ++ (.jumping (fun i => .jumpIf false (i + q.width + 2)) ++
      (q ++ .jumping fun i => .jump (i + 1 + r.width)))) ++ r) d := .append
    (hfirst.mono fun t x h => leaves_of_mem (y := x) ?_ (D.refl x)) ?_
  · simpa only [Passes, Piece.cond, Piece.append_assoc] using hwhole
  · obtain ⟨rfl, rfl⟩ : t = stop ∧ x = d := by simpa using h
    simp only [Piece.width_append, Piece.width_jumping, List.mem_singleton, Prod.mk.injEq, and_true, stop]
    omega
  · have hpos : i + (p ++ (Piece.jumping (fun i => .jumpIf false (i + q.width + 2)) ++
        (q ++ Piece.jumping fun i => .jump (i + 1 + r.width)))).width = i + p.width + 1 + q.width + 1 := by
      simp only [Piece.width_append, Piece.width_jumping]
      omega
    rw [hpos]
    exact hno

/-- The joint of loops: what is known before the test is known again behind the body. -/
theorem loop (ht : D.Passes i a p b) (hjump : ∀ t, D.Step (.jumpIf false t) b c)
    (hbody : D.Passes (i + p.width + 1) c q a) (hunit : D.Goes .pushUnit c d) :
    D.Passes i a (.loop p q) d := by
  have hback : D.Flows [(i, a)] (i + p.width + 1 + q.width) a
      (.jumping fun i => .jump (i - (p.width + 1 + q.width))) c := by
    refine .one (leaves_of_mem (y := a) ?_ (D.refl a))
    simp
    omega
  have hbranch : D.Flows [(i, a)] (i + p.width) b
      (.jumping (fun i => .jumpIf false (i + q.width + 2)) ++
        (q ++ .jumping fun i => .jump (i - (p.width + 1 + q.width)))) c := by
    refine Flows.cons (b := c) ⟨c, hjump _, leaves_of_mem ?_ (D.refl c), leaves_of_mem ?_ (D.refl c)⟩
      (.append hbody.flows hback)
    · simp
      omega
    · simp
  have hround : D.Flows [(i, a)] i a (p ++ (.jumping (fun i => .jumpIf false (i + q.width + 2)) ++
      (q ++ .jumping fun i => .jump (i - (p.width + 1 + q.width))))) c :=
    .append ht.flows hbranch
  have hpos : 0 < (p ++ (Piece.jumping (fun i => .jumpIf false (i + q.width + 2)) ++
      (q ++ Piece.jumping fun i => .jump (i - (p.width + 1 + q.width))))).width := by
    simp only [Piece.width_append, Piece.width_jumping]
    omega
  have hwhole := Passes.append (hround.back (D.refl a) hpos) (.goes hunit)
  simpa only [Piece.loop, Piece.append_assoc] using hwhole

/-- What a call runs. The function itself is made again, for its own name. -/
theorem routine {name : Symbol} {params : List Symbol} {y z : A}
    (hparams : D.Passes i a (.ofList (params.reverse.map fun x => .store x.id)) b)
    (hself : D.Defines ⟨i, params.length⟩ b a c) (hname : D.Goes (.store name.id) c d)
    (hbody : D.Passes (i + params.length + 2) d p e) (hret : D.Step .ret e y) :
    D.Passes i a (.routine name params p) z := by
  have hend : D.Flows [(i, a)] (i + params.length + 2 + p.width) e (.ofList [.ret]) z :=
    .one (f := fun _ => .ret) ⟨y, hret⟩
  have hmake : D.Flows [(i, a)] (i + params.length) b
      (.jumping (fun i => .makeFunction (i - params.length) params.length) ++
        (.ofList [.store name.id] ++ (p ++ .ofList [.ret]))) z := by
    refine Flows.cons (b := c) ⟨a, c, ?_, leaves_of_mem ?_ (D.refl a), leaves_of_mem ?_ (D.refl c)⟩
      (.append (.goes hname) (.append hbody.flows hend))
    · simpa using hself
    · simp
    · simp
  have hwhole : D.Flows [(i, a)] i a (.routine name params p) z := by
    refine .append hparams.flows ?_
    simpa using hmake
  exact hwhole.back (D.refl a) (by rw [Piece.width_routine]; omega)

/-- The joint of functions: nothing is known when the function is entered but what its definition
promises. -/
theorem function {name : Symbol} {params : List Symbol} {source : List (Expr Symbol)}
    (hbody : D.Passes (i + 1) x (.routine name params p) a)
    (hdef : D.Defines ⟨i + 1, params.length⟩ a x b) (hdup : D.Goes .dup b c)
    (hname : D.Goes (.store name.id) c d) : D.Passes i a (.function name params source p) d := by
  have hdefine : D.Flows [(i + 1, x)] (i + 1 + (Piece.routine name params p).width) a
      (.jumping (fun i => .makeFunction (i - (Piece.routine name params p).width) params.length) ++
        .ofList [.dup, .store name.id]) d := by
    refine Flows.cons (b := b) ⟨x, b, ?_, leaves_of_mem ?_ (D.refl x), leaves_of_mem ?_ (D.refl b)⟩
      (.append (p := .ofList [.dup]) (q := .ofList [.store name.id]) (.goes hdup) (.goes hname))
    · simpa using hdef
    · simp
    · simp
  have hwidth : 0 < (Piece.routine name params p).width := by rw [Piece.width_routine]; omega
  exact Flows.around hbody hwidth hdefine rfl

end Passes

/-! ## Programs -/

variable (D) in
/-- Every instruction of the code fits the facts around it, and control stays inside of the code. -/
def Annotates (code : Array (Instr Nat)) (ann : Nat → A) : Prop :=
  ∀ i instr, code[i]? = some instr →
    D.Admits (fun t x => t < code.size ∧ D.Implies x (ann t)) i (ann i) instr

/-- **The facts of a program.** Code that is followed by a `HALT` is never left. -/
theorem Passes.annotates (h : D.Passes 0 a p b) (hhalt : ∃ c, D.Step .halt b c)
    {code : Array (Instr Nat)} (hcode : code.toList = (p ++ .ofList [.halt]).code 0) :
    ∃ ann, D.Implies a (ann 0) ∧ D.Annotates code ann := by
  obtain ⟨ann₁, hin, hout, h⟩ := h
  let ann : Nat → A := fun t => if t < p.width then ann₁ t else b
  have hsize : code.size = p.width + 1 := by
    rw [← Array.length_toList, hcode]
    simp
  have hfirst : ∀ {t}, t < p.width → ann t = ann₁ t := fun h => if_pos h
  have hlast : ann p.width = b := if_neg (Nat.lt_irrefl _)
  have harrive : ∀ t x, D.Arrives ann₁ 0 (0 + p.width) [(0 + p.width, b)] t x →
      t < code.size ∧ D.Implies x (ann t) := by
    rintro t x (⟨-, hhi, hle⟩ | ⟨y, hy, hle⟩)
    · exact ⟨by omega, by rwa [hfirst (by omega)]⟩
    · obtain ⟨rfl, rfl⟩ : t = p.width ∧ y = b := by simpa using hy
      exact ⟨by omega, by rwa [hlast]⟩
  refine ⟨ann, ?_, fun i instr hi => ?_⟩
  · rcases Nat.eq_zero_or_pos p.width with hw | hw
    · rw [← hw, hlast]
      exact hout hw
    · rw [hfirst hw]
      exact hin hw
  · rw [← Array.getElem?_toList, hcode, Piece.code_append, Piece.code_ofList] at hi
    by_cases hip : i < p.width
    · rw [List.getElem?_append_left (by simpa using hip)] at hi
      rw [hfirst hip]
      have hadmits := h i instr hi
      rw [Nat.zero_add i] at hadmits
      exact hadmits.mono D harrive
    · rw [List.getElem?_append_right (by simpa using hip), Piece.length_code] at hi
      obtain ⟨hi, rfl⟩ : i - p.width = 0 ∧ .halt = instr := by
        cases hk : i - p.width with
        | zero => rw [hk] at hi; exact ⟨rfl, by simpa using hi⟩
        | succ k => rw [hk] at hi; simp at hi
      obtain rfl : i = p.width := by omega
      rw [hlast]
      exact hhalt

/-- The demand of an instruction that combines its operands. -/
theorem Admits.combine {arrive : Nat → A → Prop} {instr : Instr Nat} {ops : List Value}
    {v : Except RunError Value} (h : D.Admits arrive i a instr) (hc : instr.combine ops = some v) :
    (∃ b, D.Step instr a b ∧ arrive (i + 1) b) ∨
      ∃ f x b, instr = .makeFunction f.entry f.arity ∧ D.Defines f a x b ∧ arrive f.entry x ∧
        arrive (i + 1) b := by
  cases instr with
  | makeFunction entry arity =>
    obtain ⟨x, b, hb, hx, hn⟩ := h
    exact .inr ⟨⟨entry, arity⟩, x, b, rfl, hb, hx, hn⟩
  | jump => cases ops <;> cases hc
  | jumpIf => cases ops <;> cases hc
  | ret => cases ops <;> cases hc
  | halt => cases ops <;> cases hc
  | _ => exact .inl h

end Discipline

end ExactScript
