import ExactScript.Proofs.Endings
import ExactScript.Proofs.KnownTypes

/-!
# What the type check promises

Two promises about programs from source text. If the check joins no types at a loss, then its index is
right: when the program has run to its end, every global holds a value of the type that the index gives to it.
And if it knows all types, in a program without functions, then no run fails over the kind of a value, but for
keys, indices and the bounds of slices.

Without the condition the first promise fails. What is not known goes with everything, so an element of a
list can be assigned to a variable of any type, be it of the right type or not.

## Contents
* `Visit.Lossless`, `Program.index_sound`, the index;
* `FullyTyped`, `Program.type_safety`, the fragment in which all types are known.
-/

namespace ExactScript

/-! ## Typed programs -/

section Programs

variable {Γ : Nat → Ty} {strict : Prop} {tree : List (Expr Symbol)} {p : Program} {g : TypeIndex} {ts : List Ty}

open ExactScript.Expr

/-- Every tree of the program is typed. -/
theorem typed_of_checked (h : Threads (Checked (Visit.Fine Γ strict)) tree .empty g ts) {e : Expr Symbol}
    (he : e ∈ tree) : ∃ t, WellTyped Γ strict e t :=
  (typed_block .empty h).child he

namespace Program

/-- The functions of a typed program are typed. -/
theorem typedFunctions (m : Machine) (hp : ofTree tree = .ok p)
    (h : Threads (Checked (Visit.Fine Γ strict)) tree .empty g ts) :
    (setting tree m).TypedFunctions Γ strict := by
  have hstands : ∀ site ∈ (setting tree m).functions,
      site.Stands (setting tree m) p fun e => ∃ t, WellTyped Γ strict e t :=
    delivers_program (fun he hc => he.elim fun _ he => he.child hc) (fun _ he => typed_of_checked h he) 0
      (present_of_ofTree m hp)
  intro site hsite
  have hsited := hstands site hsite
  obtain ⟨body, ret, hbody, t, g₁, g₂, hg, hchecked⟩ := hsited.node
  obtain ⟨r, rfl, hname, hparams, htyped⟩ := typed_body_of_function hchecked hg
  refine ⟨⟨r, hname, hbody ▸ htyped⟩, hparams, hsited.body.sites, fun site' hsite' hentry => ?_⟩
  -- the two store their names at the same position
  have hother := hstands site' hsite'
  have hlength := hother.arity_eq hsited hentry
  have hcode := hother.code_name
  rw [hentry, hlength, hsited.code_name] at hcode
  exact ⟨by simpa using hcode.symm, hlength⟩

/-- **The evaluation of a typed program keeps to types.** -/
theorem safe_eval (m : Machine) (hp : ofTree tree = .ok p)
    (h : Threads (Checked (Visit.Fine Γ strict)) tree .empty g ts) (fuel : Nat) :
    (setting tree m).Safe Γ strict (Expr.eval (setting tree m) fuel 0 (.block tree))
      ((setting tree m).Holds Γ (blockType ts)) :=
  Expr.safe_eval (typedFunctions m hp h) fuel _ _ (typed_block .empty h) 0
    (Setting.present_append.mp (present_of_ofTree m hp)).1.sites

end Program

end Programs

/-! ## The index -/

section Lossless

open ExactScript.Expr

/-- At this visit the check joins no types at a loss: what is assigned is covered by the type of the declaration,
the second branch of a conditional by the first, and the right operand of `and` and `or` is a truth value. -/
def Visit.lossless (tree : List (Expr Symbol)) (v : Visit) : Bool :=
  match v.expr with
  | .assign x value => (declaredType tree x.id).covers (value.typeAt v.index)
  | .cond test yes (some no) => ((block yes).typeAt (test.after v.index)).covers
      ((block no).typeAt (afterAll yes (test.after v.index)))
  | .logical _ left right => right.typeAt (left.after v.index) == .bool
  | _ => true

variable {source : List (Expr String)} {tree : List (Expr Symbol)} {v : Visit}

theorem fine_of_lossless (hresolve : resolve source = .ok tree) (hv : v ∈ programVisits tree)
    (hknown : v.AssignsKnown) (hl : v.lossless tree) : v.Fine (declaredType tree) False where
  keeps := by
    refine ⟨fun d hd => declaredType_eq hresolve hv hd, fun x value he => ⟨hknown x value he, ?_⟩⟩
    simpa only [Visit.lossless, he] using hl
  branches test yes no he := by simpa only [Visit.lossless, he] using hl
  operand op left right he := by simpa only [Visit.lossless, he, beq_iff_eq] using hl
  known := False.elim
  no_function := False.elim
  no_call := False.elim

end Lossless

namespace Program

variable {src : String} {source : List Source.Surface} {tree : List (Expr Symbol)} {p : Program}
  {g : TypeIndex} {m m' : Machine} {n : Nat} {v : Value}

/-- The trees of source text are sound for the compiler. -/
theorem exists_sound (hresolve : resolve source = .ok tree) (h : ofTree tree = .ok p)
    (hfits : ∀ e ∈ tree, e.Fits) : ∃ title, ∀ e ∈ tree, e.Sound title := by
  obtain ⟨title, htitle⟩ := Expr.exists_titled (namesAgree_of_resolve hresolve)
  exact ⟨title, fun e he => ⟨htitle e he, assignable_of_ofTree h e he, hfits e he⟩⟩

/-- **The index of the check is sound**, if the check joins no types at a loss. When the program has run to its
end, every global that was stored holds a value of the type that the index gives to it; and every variable and
function that is declared at the top level was stored. -/
theorem index_sound (hparse : Source.parse src = .ok source) (hresolve : resolve source = .ok tree)
    (hcheck : typeIndex tree = .ok g) (h : ofTree tree = .ok p) (hfits : ∀ e ∈ tree, e.Fits)
    (hlossless : ∀ v ∈ programVisits tree, v.lossless tree)
    (hrun : (m.load p).execute n = (some (.ok v), m')) :
    (∀ id t w, g.get? id = some t → m'.memory.globals.get? id = some w → t.Describes w) ∧
      ∀ e ∈ tree, ∀ x, e.declared? = some x → m'.memory.globals.contains x.id := by
  obtain ⟨title, hsound⟩ := exists_sound hresolve h hfits
  refine ⟨fun id t w hid hw => ?_, fun e he x hx => stored_of_execute h hsound hrun he hx⟩
  obtain ⟨ts, hts⟩ := threads_of_typeIndex hcheck
  have hfine := checked_of_visits hts fun v hv =>
    fine_of_lossless hresolve hv (assigned_known (Source.placed_of_parse hparse) hresolve hts hv) (hlossless v hv)
  -- the end of the evaluation keeps to the declarations, and so does the index
  have hagrees := (checked_block hfine).agrees (fun _ hv => hv.keeps) .empty
  have hsafe := safe_eval m h hfine n _ (Setting.conforms_empty m.output)
  obtain ⟨world, hmemory, ⟨u, heq, hev⟩ | ⟨e, heq, -⟩⟩ := evalProgram_of_execute h hsound hrun
  · rw [show Expr.eval (setting tree m) n 0 (.block tree) { memory := .empty, output := m.output } = _ from hev]
      at hsafe
    rw [hmemory] at hw
    exact ((hsafe.2.globals id w hw).mono (Ty.covers_iff.mp (hagrees id t hid)).1).describes
  · cases heq

/-- A function, and a variable that gets its type from a call. -/
def sampleTyped : List (Expr Symbol) :=
  [.function ⟨"f", 0⟩ [⟨"a", 1⟩] [] (.literal (.bool true)),
    .declare ⟨"x", 2⟩ (.call ⟨"f", 0⟩ [.literal (.num (.ofNat 1))]),
    .assign ⟨"x", 2⟩ (.unary .not (.var ⟨"x", 2⟩))]

theorem index_sound_call : ∃ p n v m' w, ofTree sampleTyped = .ok p ∧
    (Machine.load {} p).execute n = (some (.ok v), m') ∧ m'.memory.globals.get? 2 = some w ∧ Ty.bool.Describes w := by
  have hparse : Source.parse "def f(a) { return true; } var x = f(1); x = !x;" = .ok
      [.function "f" ["a"] [] (.literal (.bool true)), .declare "x" (.call "f" [.literal (.num (.ofNat 1))]),
        .assign "x" (.unary .not (.var "x"))] := by
    simp only [Source.parse, String.reduceToList]
    rfl
  have hresolve : resolve
      [.function "f" ["a"] [] (.literal (.bool true)), .declare "x" (.call "f" [.literal (.num (.ofNat 1))]),
        .assign "x" (.unary .not (.var "x"))] = .ok sampleTyped := rfl
  have hcheck : typeIndex sampleTyped = .ok ((IdMap.empty.insert 0 (.function 1 .bool)).insert 2 .bool) := rfl
  have hplaces : ∀ e ∈ sampleTyped, e.Assignable := by decide
  have hfits : ∀ e ∈ sampleTyped, e.Fits := by decide
  have hlossless : ∀ v ∈ programVisits sampleTyped, v.lossless sampleTyped := by decide
  obtain ⟨b, -, hp⟩ := ofTree_eq_ok hplaces
  obtain ⟨title, hsound⟩ := exists_sound hresolve hp hfits
  obtain ⟨w, hev⟩ : ∃ w, evalProgram sampleTyped defaultCallDepth .accepting "" 1 = .value (.bool false) w := ⟨_, rfl⟩
  obtain ⟨n, m', hrun, -⟩ := execute_of_value (m := {}) hp hsound hev
  obtain ⟨htypes, hstored⟩ := index_sound hparse hresolve hcheck hp hfits hlossless hrun
  obtain ⟨u, hu⟩ := Option.isSome_iff_exists.mp
    (hstored (.declare ⟨"x", 2⟩ (.call ⟨"f", 0⟩ [.literal (.num (.ofNat 1))])) (by simp [sampleTyped]) ⟨"x", 2⟩ rfl)
  exact ⟨_, n, _, m', u, hp, hrun, hu, htypes 2 .bool u rfl hu⟩

/-- When a run of the source text has come to its end, every global for which the index has a known type holds a
value of this type. -/
def IndexSound (src : String) : Prop :=
  ∀ source tree p g (m : Machine) n v m', Source.parse src = .ok source → resolve source = .ok tree →
    typeIndex tree = .ok g → ofTree tree = .ok p → (m.load p).execute n = (some (.ok v), m') →
      ∀ id ∈ outsideIds tree, ∀ t, g.get? id = some t → t ≠ .any →
        ∃ w, m'.memory.globals.get? id = some w ∧ t.Describes w

/-- It fails if an evaluation ends without such a value. -/
theorem not_indexSound (fuel id : Nat) (t : Ty) (hparse : Source.parse src = .ok source)
    (hresolve : resolve source = .ok tree) (hcheck : typeIndex tree = .ok g)
    (hplaces : ∀ e ∈ tree, e.Assignable) (hfits : ∀ e ∈ tree, e.Fits) (ho : id ∈ outsideIds tree)
    (hid : g.get? id = some t) (ht : t ≠ .any)
    (hev : ∃ v w, evalProgram tree defaultCallDepth .accepting "" fuel = .value v w ∧
      ∀ u, w.memory.globals.get? id = some u → ¬t.Describes u) : ¬IndexSound src := by
  intro h
  obtain ⟨v, w, hev, hno⟩ := hev
  obtain ⟨p, hp⟩ : ∃ p, ofTree tree = .ok p := by
    obtain ⟨b, -, hp⟩ := ofTree_eq_ok hplaces
    exact ⟨_, hp⟩
  obtain ⟨title, hsound⟩ := exists_sound hresolve hp hfits
  obtain ⟨n, m', hrun, hmemory⟩ := execute_of_value (m := {}) hp hsound hev
  obtain ⟨u, hu, hd⟩ := h _ _ _ _ _ _ _ _ hparse hresolve hcheck hp hrun id ho t hid ht
  exact hno u (hmemory ▸ hu) hd

/-- **What is not known goes with everything**, so the index can be wrong: about a variable that is assigned an
element of a list; about one that gets its type from an assignment that is not reached; about the result of a
function in the place of another; about a conditional or a logical operator of which one side is not known; and
about a variable whose declaration is not reached. -/
theorem index_unsound : ¬IndexSound "var x = 1; x = [true].head; x == true" ∧
    ¬IndexSound "var x = [true].head; while (false) { x = 1; }" ∧
    ¬IndexSound "def f() { return 1; } def g() { return true; } f = g; var x = f();" ∧
    ¬IndexSound "var x = if (false) { 1 } else { [true].head };" ∧
    ¬IndexSound "var x = true and [1].head;" ∧ ¬IndexSound "while (false) { var x = 1; }" := by
  refine ⟨?_, ?_, ?_, ?_, ?_, ?_⟩
  · have hparse : Source.parse "var x = 1; x = [true].head; x == true" = .ok
        [.declare "x" (.literal (.num (.ofNat 1))), .assign "x" (.query .head (.list [.literal (.bool true)])),
          .binary .eq (.var "x") (.literal (.bool true))] := rfl
    have hresolve : resolve
        [.declare "x" (.literal (.num (.ofNat 1))), .assign "x" (.query .head (.list [.literal (.bool true)])),
          .binary .eq (.var "x") (.literal (.bool true))] = .ok
        [.declare ⟨"x", 0⟩ (.literal (.num (.ofNat 1))),
          .assign ⟨"x", 0⟩ (.query .head (.list [.literal (.bool true)])),
          .binary .eq (.var ⟨"x", 0⟩) (.literal (.bool true))] := rfl
    refine not_indexSound 0 0 .num hparse hresolve rfl (by decide) (by decide) (by decide) rfl (by decide)
      ⟨.bool true, _, rfl, fun u hu hd => ?_⟩
    cases hu
    cases hd
  · have hparse : Source.parse "var x = [true].head; while (false) { x = 1; }" = .ok
        [.declare "x" (.query .head (.list [.literal (.bool true)])),
          .loop (.literal (.bool false)) [.assign "x" (.literal (.num (.ofNat 1)))]] := rfl
    have hresolve : resolve
        [.declare "x" (.query .head (.list [.literal (.bool true)])),
          .loop (.literal (.bool false)) [.assign "x" (.literal (.num (.ofNat 1)))]] = .ok
        [.declare ⟨"x", 0⟩ (.query .head (.list [.literal (.bool true)])),
          .loop (.literal (.bool false)) [.assign ⟨"x", 0⟩ (.literal (.num (.ofNat 1)))]] := rfl
    refine not_indexSound 0 0 .num hparse hresolve rfl (by decide) (by decide) (by decide) rfl (by decide)
      ⟨.unit, _, rfl, fun u hu hd => ?_⟩
    cases hu
    cases hd
  · have hparse : Source.parse "def f() { return 1; } def g() { return true; } f = g; var x = f();" = .ok
        [.function "f" [] [] (.literal (.num (.ofNat 1))), .function "g" [] [] (.literal (.bool true)),
          .assign "f" (.var "g"), .declare "x" (.call "f" [])] := by
      simp only [Source.parse, String.reduceToList]
      rfl
    have hresolve : resolve
        [.function "f" [] [] (.literal (.num (.ofNat 1))), .function "g" [] [] (.literal (.bool true)),
          .assign "f" (.var "g"), .declare "x" (.call "f" [])] = .ok
        [.function ⟨"f", 0⟩ [] [] (.literal (.num (.ofNat 1))), .function ⟨"g", 1⟩ [] [] (.literal (.bool true)),
          .assign ⟨"f", 0⟩ (.var ⟨"g", 1⟩), .declare ⟨"x", 2⟩ (.call ⟨"f", 0⟩ [])] := by
      simp only [resolve, Expr.resolveAll, Expr.resolve, Resolver.declareAll, bind, EStateM.bind, pure, EStateM.pure]
      rfl
    refine not_indexSound 1 2 .num hparse hresolve rfl (by decide) (by decide) (by decide) rfl (by decide)
      ⟨.bool true, _, rfl, fun u hu hd => ?_⟩
    cases hu
    cases hd
  · have hparse : Source.parse "var x = if (false) { 1 } else { [true].head };" = .ok
        [.declare "x" (.cond (.literal (.bool false)) [.literal (.num (.ofNat 1))]
          (some [.query .head (.list [.literal (.bool true)])]))] := by
      simp only [Source.parse, String.reduceToList]
      set_option maxRecDepth 1024 in rfl
    have hresolve : resolve
        [.declare "x" (.cond (.literal (.bool false)) [.literal (.num (.ofNat 1))]
          (some [.query .head (.list [.literal (.bool true)])]))] = .ok
        [.declare ⟨"x", 0⟩ (.cond (.literal (.bool false)) [.literal (.num (.ofNat 1))]
          (some [.query .head (.list [.literal (.bool true)])]))] := rfl
    refine not_indexSound 0 0 .num hparse hresolve rfl (by decide) (by decide) (by decide) rfl (by decide)
      ⟨.bool true, _, rfl, fun u hu hd => ?_⟩
    cases hu
    cases hd
  · have hparse : Source.parse "var x = true and [1].head;" = .ok
        [.declare "x" (.logical .and (.literal (.bool true)) (.query .head (.list [.literal (.num (.ofNat 1))])))] :=
      rfl
    have hresolve : resolve
        [.declare "x" (.logical .and (.literal (.bool true)) (.query .head (.list [.literal (.num (.ofNat 1))])))] =
        .ok [.declare ⟨"x", 0⟩ (.logical .and (.literal (.bool true))
          (.query .head (.list [.literal (.num (.ofNat 1))])))] := rfl
    refine not_indexSound 0 0 .bool hparse hresolve rfl (by decide) (by decide) (by decide) rfl (by decide)
      ⟨.num (.ofNat 1), _, rfl, fun u hu hd => ?_⟩
    cases hu
    cases hd
  · have hparse : Source.parse "while (false) { var x = 1; }" = .ok
        [.loop (.literal (.bool false)) [.declare "x" (.literal (.num (.ofNat 1)))]] := rfl
    have hresolve : resolve [.loop (.literal (.bool false)) [.declare "x" (.literal (.num (.ofNat 1)))]] =
        .ok [.loop (.literal (.bool false)) [.declare ⟨"x", 0⟩ (.literal (.num (.ofNat 1)))]] := rfl
    refine not_indexSound 0 0 .num hparse hresolve rfl (by decide) (by decide) (by decide) rfl (by decide)
      ⟨.unit, _, rfl, fun u hu hd => ?_⟩
    cases hu

/-! ## Fully typed programs -/

/-- **Type safety of fully typed programs.** No run fails over the kind of a value: nothing is called that cannot
be called, and a mismatch is about the key of a map, an index or the bound of a slice. Evaluation starts where
every variable holds a value of its declared type, and every part of the program, evaluated where this is so,
gives a value of the type that the check gave to it, and leaves variables to be so. -/
theorem type_safety (hparse : Source.parse src = .ok source) (hresolve : resolve source = .ok tree)
    (hcheck : typeIndex tree = .ok g) (h : ofTree tree = .ok p) (hfits : ∀ e ∈ tree, e.Fits)
    (htyped : FullyTyped tree) (m : Machine) :
    (∀ n e m', (m.load p).execute n = (some (.error e), m') → e.Excused) ∧
      (setting tree m).Conforms (declaredType tree) { memory := .empty, output := m.output } ∧
      ∀ v ∈ programVisits tree, ∀ fuel i w, (setting tree m).Conforms (declaredType tree) w →
        (v.expr.eval (setting tree m) fuel i w).Satisfies ((setting tree m).Conforms (declaredType tree)) True
          v.type.Describes := by
  obtain ⟨ts, hts⟩ := threads_of_typeIndex hcheck
  have hfine := checked_of_fullyTyped (Source.placed_of_parse hparse) hresolve hts htyped
  refine ⟨fun n e m' hrun => ?_, Setting.conforms_empty _, fun v hv fuel i => ?_⟩
  · obtain ⟨title, hsound⟩ := exists_sound hresolve h hfits
    have hsafe := safe_eval m h hfine n _ (Setting.conforms_empty m.output)
    obtain ⟨w, -, ⟨u, heq, -⟩ | ⟨f, heq, hev⟩⟩ := evalProgram_of_execute h hsound hrun
    · cases heq
    · cases heq
      rw [show Expr.eval (setting tree m) n 0 (.block tree) { memory := .empty, output := m.output } = _ from hev]
        at hsafe
      exact hsafe trivial
  · obtain ⟨⟨g', t, hchecked⟩, hagrees⟩ :=
      visited_of_program (fun _ hv => hv.keeps.preserves) hfine .empty hv
    have hwell : WellTyped (declaredType tree) True v.expr v.type := by
      rw [Visit.type, hchecked.passes.typeAt_eq]
      exact ⟨v.index, g', hagrees, hchecked⟩
    have hhosts : (setting tree m).Hosts i v.expr.piece := by
      intro site hsite
      rw [(htyped.without_of_visit hv).sites_eq_nil] at hsite
      cases hsite
    exact (Expr.safe_eval (typedFunctions m h hfine) fuel _ _ hwell i hhosts).imp fun _ ha => ha.describes

/-- A list that is changed at an index that is none. -/
def sampleMisplaced : List (Expr Symbol) :=
  [.declare ⟨"l", 0⟩ (.list [.literal (.num (.ofNat 1))]),
    .put (.var ⟨"l", 0⟩) (.literal (.bool true)) (.unary .neg (.literal (.num (.ofNat 2))))]

theorem type_safety_misplaced : ∃ p n m', ofTree sampleMisplaced = .ok p ∧
    (Machine.load {} p).execute n = (some (.error (.mismatch "PUT" "integer" (.bool true))), m') ∧
      (RunError.mismatch "PUT" "integer" (.bool true)).Excused := by
  have hparse : Source.parse "var l = [1]; l[true] = -2;" = .ok
      [.declare "l" (.list [.literal (.num (.ofNat 1))]),
        .put (.var "l") (.literal (.bool true)) (.unary .neg (.literal (.num (.ofNat 2))))] := rfl
  have hresolve : resolve
      [.declare "l" (.list [.literal (.num (.ofNat 1))]),
        .put (.var "l") (.literal (.bool true)) (.unary .neg (.literal (.num (.ofNat 2))))] =
      .ok sampleMisplaced := rfl
  have hcheck : typeIndex sampleMisplaced = .ok (IdMap.empty.insert 0 .list) := rfl
  have hplaces : ∀ e ∈ sampleMisplaced, e.Assignable := by decide
  have hfits : ∀ e ∈ sampleMisplaced, e.Fits := by decide
  have htyped : FullyTyped sampleMisplaced := ⟨by decide, by decide⟩
  obtain ⟨b, -, hp⟩ := ofTree_eq_ok hplaces
  obtain ⟨title, hsound⟩ := exists_sound hresolve hp hfits
  obtain ⟨w, hev⟩ : ∃ w, evalProgram sampleMisplaced defaultCallDepth .accepting "" 0 =
    .failure (.mismatch "PUT" "integer" (.bool true)) w := ⟨_, rfl⟩
  obtain ⟨n, m', hrun, -⟩ := execute_of_failure (m := {}) hp hsound hev
  exact ⟨_, n, m', hp, hrun, (type_safety hparse hresolve hcheck hp hfits htyped {}).1 n _ m' hrun⟩

end Program

end ExactScript
