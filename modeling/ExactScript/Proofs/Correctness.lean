import ExactScript.Proofs.Naming
import ExactScript.Proofs.Sites

/-!
# Correctness of the compiler

A compiled program does what the evaluation of its tree says: it ends with the same value or the same
error, with the same output and the same globals, and where the evaluation does not end, neither does the
program.

Two things make the induction over trees go through. Loops and calls go on with less fuel, and take at
least one step before they do. And the routine of every function stands at its entry, so that a function
value can be called wherever it got to.

## Contents
* `Expr.Sound`, what is asked of trees;
* `Setting.Loaded` and `Expr.correct`, the induction;
* `Program.runs_as_evaluated`, the theorem.
-/

namespace ExactScript

variable {title : Nat → String}

namespace Expr

/-- What correctness asks of a tree. Each id goes with one name, puts set elements of variables or of
elements of variables, and lists and maps are not too long to be written out. -/
structure Sound (title : Nat → String) (e : Expr Symbol) : Prop where
  titled : e.Titled title
  assignable : e.Assignable
  fits : e.Fits

theorem Sound.child {e c : Expr Symbol} (h : e.Sound title) (hc : c ∈ e.children) : c.Sound title :=
  ⟨(titled_iff.mp h.titled).2 c hc, (assignable_iff.mp h.assignable).2 c hc, (fits_iff.mp h.fits).2 c hc⟩

/-- The symbols at the node have their names. -/
theorem Sound.name_eq {e : Expr Symbol} (h : e.Sound title) {x : Symbol} (hx : x ∈ e.ownBindings) :
    x.name = title x.id :=
  h.titled.self x hx

/-- A block and a loop ask nothing but what their parts ask. -/
theorem Sound.of_children {e : Expr Symbol} (hb : e.ownBindings = []) (hp : e.SetsPlace)
    (hf : e.FitsNode) (h : ∀ c ∈ e.children, c.Sound title) : e.Sound title where
  titled := titled_iff.mpr ⟨fun x hx => (by rw [hb] at hx; cases hx), fun c hc => (h c hc).titled⟩
  assignable := assignable_iff.mpr ⟨hp, fun c hc => (h c hc).assignable⟩
  fits := fits_iff.mpr ⟨hf, fun c hc => (h c hc).fits⟩

theorem Sound.of_block {es : List (Expr Symbol)} (h : ∀ e ∈ es, e.Sound title) :
    (block es).Sound title :=
  .of_children rfl trivial trivial h

end Expr

/-! ## Calls -/

/-- The statements of a function are as sound as the function. -/
theorem sound_of_stands {s : Setting} {p : Program} {site : FunctionSite}
    (h : site.Stands s p (Expr.Sound title)) : ∀ e ∈ site.body, e.Sound title := by
  obtain ⟨body, ret, hbody, hsound⟩ := h.node
  rw [hbody]
  exact fun e he => hsound.child he

namespace Setting

/-- The program is ready to run: its names are known, and its functions stand. -/
structure Loaded (s : Setting) (p : Program) (title : Nat → String) : Prop where
  names : ∀ i id : Nat, p.code[i]? = some (.load id) → p.nameOf? id = some (title id)
  stands : ∀ site ∈ s.functions, site.Stands s p (Expr.Sound title)

variable {s : Setting} {p : Program}

theorem of_site? {f : FunctionRef} {site : FunctionSite} (h : s.site? f = some site) :
    site ∈ s.functions ∧ site.entry = f.entry :=
  ⟨List.mem_of_find?_eq_some h, by simpa using List.find?_some h⟩

/-- Calls that start have the right number of arguments. -/
theorem arity_of_enter {f : FunctionRef} {argc back : Nat} (h : (s.enter f argc back).Yields ()) :
    f.arity = argc := by
  obtain ⟨w, w', h⟩ := h
  unfold enter at h
  split at h
  · cases h
  · next harity => exact Decidable.not_not.mp harity

namespace Loaded

/-- The program has a function for every definition. -/
theorem defines (h : s.Loaded p title) {site : FunctionSite} (hsite : site ∈ s.functions) :
    s.Defines site.ref := by
  cases hfind : s.site? site.ref with
  | none =>
    have hnot := List.find?_eq_none.mp hfind site hsite
    exact absurd (beq_self_eq_true site.entry) hnot
  | some found =>
    obtain ⟨hmem, hentry⟩ := of_site? hfind
    have hfound : found.Stands s p (Expr.Sound title) := h.stands found hmem
    refine ⟨found, hfind, ?_⟩
    rw [FunctionSite.ref, hentry, hfound.arity_eq (h.stands site hsite) hentry]
    rfl

theorem stands_of_site? (h : s.Loaded p title) {f : FunctionRef} {site : FunctionSite}
    (hf : s.site? f = some site) : site.Stands s p (Expr.Sound title) :=
  h.stands site (of_site? hf).1

end Loaded

theorem tracks_storeAll {n i : Nat} {xs : List Symbol} {vs t : List Value} {calls : List Nat}
    (hpresent : s.Present p i (.ofList (xs.map fun x => .store x.id))) (hlength : xs.length = vs.length) :
    s.Tracks p n ⟨i, vs ++ t, calls⟩ (Eval.storeAll xs vs) fun _ => ⟨i + xs.length, t, calls⟩ := by
  induction xs generalizing i vs with
  | nil =>
    match vs, hlength with
    | [], _ => exact .pure (b := fun _ => ⟨i, t, calls⟩) ()
  | cons x xs ih =>
    match vs, hlength with
    | v :: vs, hlength =>
      obtain ⟨hstore, hrest⟩ := codeAt_cons.mp hpresent.code
      have htail := ih (i := i + 1) ⟨hrest, fun _ h => by cases h⟩ (Nat.succ.inj hlength)
      exact (takes_store hstore).tracks.bind fun _ _ => htail.ending (by simp; omega)

/-- **A call runs the routine of the function** and comes back with one value in the place of callee and
arguments. -/
theorem tracks_call {n i : Nat} {callee : Value} {args : List Value} {calls : List Nat}
    {again : Nat → Expr Symbol → Eval Value} (h : s.Loaded p title)
    (hagain : ∀ e : Expr Symbol, e.Sound title → ∀ i, s.Computes p n i e.piece (again i e))
    (hi : p.code[i]? = some (.call args.length)) :
    s.Tracks p (n + 1) ⟨i, callee :: args.reverse, calls⟩ (s.call again callee args (i + 1)) fun v =>
      ⟨i + 1, [v], calls⟩ := by
  refine .of_top fun htop => ?_
  cases callee with
  | function f =>
    obtain ⟨site, hsite, rfl⟩ : s.Defines f := Value.within_function.mp (htop _ List.mem_cons_self)
    have hstands := h.stands_of_site? hsite
    rw [← List.length_reverse] at hi
    have henter : s.Takes p ⟨i, .function site.ref :: args.reverse, calls⟩
        (s.enter site.ref args.reverse.length (i + 1)) fun _ => ⟨site.entry, args.reverse, (i + 1) :: calls⟩ :=
      takes_enter hi
    rw [List.length_reverse] at henter
    refine .bind_takes henter fun _ hyields => ?_
    have harity : site.params.length = args.length := arity_of_enter hyields
    have hlength : site.params.reverse.length = args.reverse.length := by
      rw [List.length_reverse, List.length_reverse, harity]
    obtain ⟨hstores, hrest⟩ := present_append.mp hstands.routine
    obtain ⟨-, hrest⟩ := present_append.mp hrest
    obtain ⟨hname, hrest⟩ := present_append.mp hrest
    obtain ⟨hbody, hret⟩ := present_append.mp hrest
    simp only [Piece.width_ofList, Piece.width_jumping, List.length_map, List.length_reverse,
      List.length_singleton] at hname hbody hret
    simp only [hsite]
    have hparams : s.Tracks p n ⟨site.entry, args.reverse ++ [], (i + 1) :: calls⟩
        (Eval.storeAll site.params.reverse args.reverse) fun _ =>
          ⟨site.entry + site.params.reverse.length, [], (i + 1) :: calls⟩ := tracks_storeAll hstores hlength
    rw [List.append_nil] at hparams
    refine hparams.bind fun _ _ => ?_
    rw [List.length_reverse]
    have hmake : s.Goes p ⟨site.entry + site.params.length, [], (i + 1) :: calls⟩
        ⟨site.entry + site.params.length + 1, [.function site.ref], (i + 1) :: calls⟩ :=
      goes_push hstands.code_function rfl fun entry arity heq => by
        cases heq
        exact h.defines (of_site? hsite).1
    refine .quietly hmake ((takes_store hname.instr).tracks.bind fun _ _ => ?_)
    have hvalue := hagain (.block site.body) (.of_block (sound_of_stands hstands)) _ hbody ((i + 1) :: calls)
    refine hvalue.bind fun v _ => ?_
    exact (takes_ret hret.instr).tracks.bind fun _ _ => .pure (b := fun v => ⟨i + 1, [v], calls⟩) v
  | _ =>
    refine (takes_fail hi fun stack w => ⟨args.reverse ++ stack, ?_⟩).tracks
    exact (Machine.bind_pop (s := args.reverse ++ stack) rfl).trans rfl

end Setting

/-! ## Trees -/

section Results

variable {α β : Type}

theorem Eval.Yields.of_bind {ev : Eval α} {k : α → Eval β} {b : β} (h : (ev >>= k).Yields b) :
    ∃ a, ev.Yields a ∧ (k a).Yields b := by
  obtain ⟨w, w', h⟩ := h
  cases hev : ev w with
  | value a v => exact ⟨a, ⟨w, v, hev⟩, v, w', by simpa only [bind, hev] using h⟩
  | failure e v => simp only [bind, hev, reduceCtorEq] at h
  | unfinished => simp only [bind, hev, reduceCtorEq] at h

theorem Eval.Yields.of_pure {a b : α} (h : (pure a : Eval α).Yields b) : b = a := by
  obtain ⟨w, w', h⟩ := h
  cases h
  rfl

end Results

namespace Expr

section Lengths

variable {s : Setting} {again : Nat → Expr Symbol → Eval Value} {i : Nat} {vs : List Value}

theorem length_of_evalAll {es : List (Expr Symbol)} (h : (evalAll s again i es).Yields vs) :
    vs.length = es.length := by
  induction es generalizing i vs with
  | nil => rw [h.of_pure]; rfl
  | cons e es ih =>
    obtain ⟨v, -, h⟩ := h.of_bind
    obtain ⟨rest, hrest, h⟩ := h.of_bind
    rw [h.of_pure, List.length_cons, List.length_cons, ih hrest]

theorem length_of_evalReversed {es : List (Expr Symbol)} (h : (evalReversed s again i es).Yields vs) :
    vs.length = es.length := by
  induction es generalizing vs with
  | nil => rw [h.of_pure]; rfl
  | cons e es ih =>
    obtain ⟨rest, hrest, h⟩ := h.of_bind
    obtain ⟨v, -, h⟩ := h.of_bind
    rw [h.of_pure, List.length_cons, List.length_cons, ih hrest]

theorem length_of_evalEntries {es : List (Expr Symbol × Expr Symbol)}
    (h : (evalEntries s again i es).Yields vs) : vs.length = 2 * es.length := by
  induction es generalizing i vs with
  | nil => rw [h.of_pure]; rfl
  | cons kv es ih =>
    obtain ⟨k, -, h⟩ := h.of_bind
    obtain ⟨v, -, h⟩ := h.of_bind
    obtain ⟨rest, hrest, h⟩ := h.of_bind
    rw [h.of_pure, List.length_cons, List.length_cons, List.length_cons, ih hrest]
    omega

end Lengths

section Induction

variable (s : Setting) (p : Program) (title : Nat → String) (n : Nat)
  (again : Nat → Expr Symbol → Eval Value)

/-- What is shown of every tree: its own code, and its code as a target whose element is set. -/
structure Evaluates (e : Expr Symbol) : Prop where
  value : e.Sound title → ∀ i, s.Computes p n i e.piece (e.evalWith s again i)
  target : ∀ {k v key value}, e.IsPlace → e.Sound title → (∀ i, s.Computes p n i k (key i)) →
    (∀ i, s.Computes p n i v (value i)) →
    ∀ i, s.Computes p n i (e.pieceOfPut k v) (e.evalPut s again i k.width key value)

variable {s p title n again} {k : Nat}

section Lists

variable {es : List (Expr Symbol)}

theorem does_all (h : ∀ e ∈ es, ∀ i, s.Computes p n i e.piece (e.evalWith s again i)) (i : Nat) :
    s.Does p n i (pieceOfAll es) [] (evalAll s again i es) fun vs => vs.reverse := by
  induction es generalizing i with
  | nil => exact .nil (fun vs => vs.reverse) []
  | cons e es ih =>
    obtain ⟨he, hes⟩ := List.forall_mem_cons.mp h
    refine Setting.Does.append (he i) fun v _ => .map ?_
    simp only [List.reverse_cons]
    exact (ih hes _).above [v]

theorem does_reversed (h : ∀ e ∈ es, ∀ i, s.Computes p n i e.piece (e.evalWith s again i)) (i : Nat) :
    s.Does p n i (pieceOfReversed es) [] (evalReversed s again i es) fun vs => vs := by
  induction es with
  | nil => exact .nil (fun vs => vs) []
  | cons e es ih =>
    obtain ⟨he, hes⟩ := List.forall_mem_cons.mp h
    exact (ih hes).append fun vs _ => .map ((he _).above vs)

theorem does_entries {es : List (Expr Symbol × Expr Symbol)}
    (h : ∀ kv ∈ es, (∀ i, s.Computes p n i kv.1.piece (kv.1.evalWith s again i)) ∧
      ∀ i, s.Computes p n i kv.2.piece (kv.2.evalWith s again i)) (i : Nat) :
    s.Does p n i (pieceOfEntries es) [] (evalEntries s again i es) fun vs => vs.reverse := by
  induction es generalizing i with
  | nil => exact .nil (fun vs => vs.reverse) []
  | cons kv es ih =>
    obtain ⟨⟨hk, hv⟩, hes⟩ := List.forall_mem_cons.mp h
    refine Setting.Does.append (hk i) fun key _ => Setting.Does.append ((hv _).above [key]) fun v _ => .map ?_
    simp only [List.reverse_cons, List.append_assoc]
    exact (ih hes _).above [v, key]

theorem computes_block (h : ∀ e ∈ es, ∀ i, s.Computes p n i e.piece (e.evalWith s again i)) (i : Nat) :
    s.Computes p n i (pieceOfBlock es) (evalBlock s again i es) := by
  induction es generalizing i with
  | nil => exact .quietly_cons (fun _ hi => Setting.goes_push hi rfl (by simp)) (.nil (fun v => [v]) .unit)
  | cons e es ih =>
    obtain ⟨he, hes⟩ := List.forall_mem_cons.mp h
    cases es with
    | nil => exact he i
    | cons f es =>
      exact Setting.Does.append (he i) fun v _ =>
        .quietly (fun _ hi => Setting.goes_pop hi) (ih hes _)

end Lists

section Instructions

variable {i : Nat} {t : Stack} {vs : List Value}

theorem does_push {instr : Instr Nat} {v : Value} (hc : instr.combine [] = some (.ok v))
    (hnew : ∀ entry arity, instr ≠ .makeFunction entry arity) :
    s.Computes p n i (.ofList [instr]) (pure v) :=
  .compute hc hnew

theorem does_load (h : s.Loaded p title) {x : Symbol} (hx : x.name = title x.id) :
    s.Does p n i (.ofList [.load x.id]) t (Eval.load x) fun v => v :: t :=
  .takes fun _ hi => Setting.takes_load hi (hx ▸ h.names _ _ hi)

theorem does_buildList (hn : vs.length < wordSize) :
    s.Does p n i (.ofList [countCode vs.length, .buildList]) vs.reverse (pure (.list vs)) fun v => [v] :=
  .quietly_cons (fun _ hi => Setting.goes_push hi rfl (by simp [countCode]))
    (.compute (Instr.combine_buildList rfl hn) (by simp))

theorem does_buildMap (hlength : vs.length = 2 * k) (hk : 2 * k < wordSize) :
    s.Does p n i (.ofList [countCode k, .buildMap]) vs.reverse (.lift (Value.ofFlat vs)) fun v => [v] :=
  .quietly_cons (fun _ hi => Setting.goes_push hi rfl (by simp [countCode]))
    (.compute (Instr.combine_buildMap hlength hk) (by simp))

/-- A changed collection goes back to the variable it came from, and stays on the stack. -/
theorem does_restore (target : Expr Symbol) (r : Value) :
    s.Does p n i (.ofList (restoreCode target)) [r] (Eval.restore target r >>= fun _ => pure r)
      fun v => [v] := by
  cases target with
  | var x => exact .keep
  | _ => exact .nil (fun v => [v]) r

end Instructions

/-! ### One construct after the other -/

/-- What is left of a counting loop has the code of its rounds. -/
theorem piece_loop_of_count (test advance : Expr Symbol) (body : List (Expr Symbol)) :
    (loop test [block body, advance]).piece = .loop test.piece (pieceOfBlock body ++
      (.ofList [.pop] ++ (advance.piece ++ .ofList [.pop]))) := by
  simp only [piece, pieceOfBlock, Piece.append_assoc]

/-- A variable that is set an element of is loaded, changed and stored. -/
theorem evaluates_var (h : s.Loaded p title) (x : Symbol) : (var x).Evaluates s p title (n + 1) again := by
  refine ⟨fun hs _ => does_load h (hs.name_eq (by simp [ownBindings])), fun _ hs hk hv i => ?_⟩
  have hput : ∀ {coll k v : Value} {j : Nat}, s.Does p (n + 1) j (.ofList [.put, .dup, .store x.id])
      [v, k, coll] (do
        let r ← Eval.lift (coll.put k v)
        Eval.store x r
        return r) fun v => [v] :=
    Setting.Does.cons (.compute rfl (by simp)) fun _ _ => .keep
  exact Setting.Does.append (does_load h (hs.name_eq (by simp [ownBindings]))) fun coll _ =>
    Setting.Does.append ((hk _).above [coll]) fun k _ =>
      Setting.Does.append ((hv _).above [k, coll]) fun v _ => hput

/-- After the first round of a counting loop the evaluation goes on with a loop, which has the same code. -/
theorem evaluates_count (hagain : ∀ e : Expr Symbol, e.Sound title → ∀ i, s.Computes p n i e.piece (again i e))
    {x : Symbol} {init test advance : Expr Symbol} {body : List (Expr Symbol)}
    (hi : init.Evaluates s p title (n + 1) again) (ht : test.Evaluates s p title (n + 1) again)
    (ha : advance.Evaluates s p title (n + 1) again) (hb : ∀ e ∈ body, e.Evaluates s p title (n + 1) again) :
    (count x init test advance body).Evaluates s p title (n + 1) again := by
  refine ⟨fun hs i => ?_, fun hp => hp.elim⟩
  have hbody : ∀ e ∈ body, e.Sound title := fun e he => hs.child (by simp [children, he])
  have htest : test.Sound title := hs.child (by simp [children])
  have hadvance : advance.Sound title := hs.child (by simp [children])
  -- the rest of the node is the loop whose body ends with `advance`
  have hloop : (loop test [block body, advance]).Sound title := by
    refine .of_children rfl trivial trivial fun c hc => ?_
    simp only [children, List.mem_cons, List.not_mem_nil, or_false] at hc
    rcases hc with rfl | rfl | rfl
    · exact htest
    · exact .of_block hbody
    · exact hadvance
  refine Setting.Does.append (hi.value (hs.child (by simp [children])) i) fun _ _ =>
    Setting.Does.append .store fun _ _ => Setting.Computes.loop (ht.value htest _) ?_
      (piece_loop_of_count test advance body ▸ hagain _ hloop _)
  refine Setting.Does.append (computes_block (fun e he => (hb e he).value (hbody e he)) _) fun _ _ => ?_
  exact .quietly (fun _ hi => Setting.goes_pop hi) (.drop (ha.value hadvance _))

/-- An element that is set an element of is read, changed and put back where it was. -/
theorem evaluates_index {target key : Expr Symbol} (ht : target.Evaluates s p title (n + 1) again)
    (hk : key.Evaluates s p title (n + 1) again) : (index target key).Evaluates s p title (n + 1) again := by
  refine ⟨fun hs i => ?_, fun hp hs hk' hv i => ?_⟩
  · exact Setting.Does.append (ht.value (hs.child (by simp [children])) i) fun coll _ =>
      Setting.Does.append ((hk.value (hs.child (by simp [children])) _).above [coll]) fun k _ =>
        .compute rfl (by simp)
  · -- the value of the outer put: the element is read, changed and left for the outer put
    refine ht.target hp (hs.child (by simp [children])) (hk.value (hs.child (by simp [children])))
      (fun j => ?_) i
    refine Setting.Does.append (ht.value (hs.child (by simp [children])) j) fun outer _ =>
      Setting.Does.append ((hk.value (hs.child (by simp [children])) _).above [outer]) fun outerKey _ =>
        Setting.Does.append (.compute rfl (by simp)) fun coll _ => ?_
    exact Setting.Does.append ((hk' _).above [coll]) fun k _ =>
      Setting.Does.append ((hv _).above [k, coll]) fun v _ => .compute rfl (by simp)

theorem evaluates_slice {target start stop : Expr Symbol} {step : Option (Expr Symbol)}
    (ht : target.Evaluates s p title (n + 1) again) (hs : start.Evaluates s p title (n + 1) again)
    (hp : stop.Evaluates s p title (n + 1) again) (hst : ∀ e ∈ step, e.Evaluates s p title (n + 1) again) :
    (slice target start stop step).Evaluates s p title (n + 1) again := by
  refine ⟨fun hsound i => ?_, fun hp => hp.elim⟩
  have hstep : ∀ j, s.Computes p (n + 1) j (pieceOfStep step) (evalStep s again j step) := by
    intro j
    cases step with
    | none => exact does_push rfl (by simp [countCode])
    | some e => exact (hst e rfl).value (hsound.child (by simp [children])) j
  exact Setting.Does.append (ht.value (hsound.child (by simp [children])) i) fun v _ =>
    Setting.Does.append ((hs.value (hsound.child (by simp [children])) _).above [v]) fun v₁ _ =>
      Setting.Does.append ((hp.value (hsound.child (by simp [children])) _).above [v₁, v]) fun v₂ _ =>
        Setting.Does.append ((hstep _).above [v₂, v₁, v]) fun v₃ _ => .compute rfl (by simp)

/-- **The induction.** The code of a sound tree does what its evaluation says, provided that loops and
calls do when they go on. -/
theorem evaluates (h : s.Loaded p title)
    (hagain : ∀ e : Expr Symbol, e.Sound title → ∀ i, s.Computes p n i e.piece (again i e))
    (e : Expr Symbol) : e.Evaluates s p title (n + 1) again := by
  induction e using induct with
  | literal l => exact ⟨fun _ _ => does_push rfl (by simp), fun hp => hp.elim⟩
  | var x => exact evaluates_var h x
  | declare x value hv =>
    exact ⟨fun hs i => Setting.Does.append (hv.value (hs.child (by simp [children])) i) fun _ _ => .keep,
      fun hp => hp.elim⟩
  | assign x value hv =>
    exact ⟨fun hs i => Setting.Does.append (hv.value (hs.child (by simp [children])) i) fun _ _ => .keep,
      fun hp => hp.elim⟩
  | letIn x value body hv hb =>
    refine ⟨fun hs i => ?_, fun hp => hp.elim⟩
    exact Setting.Does.append (hv.value (hs.child (by simp [children])) i) fun _ _ =>
      Setting.Does.append .store fun _ _ => hb.value (hs.child (by simp [children])) _
  | unary op operand ho =>
    exact ⟨fun hs i => Setting.Does.append (ho.value (hs.child (by simp [children])) i) fun v _ =>
      Setting.Does.compute rfl (by simp), fun hp => hp.elim⟩
  | binary op left right hl hr =>
    refine ⟨fun hs i => ?_, fun hp => hp.elim⟩
    exact Setting.Does.append (hl.value (hs.child (by simp [children])) i) fun l _ =>
      Setting.Does.append ((hr.value (hs.child (by simp [children])) _).above [l]) fun r _ =>
        .compute rfl (by simp)
  | logical op left right hl hr =>
    exact ⟨fun hs i => .logical (hl.value (hs.child (by simp [children])) i)
      (hr.value (hs.child (by simp [children])) _), fun hp => hp.elim⟩
  | block body hb =>
    exact ⟨fun hs i => computes_block (fun e he => (hb e he).value (hs.child he)) i, fun hp => hp.elim⟩
  | cond test yes no ht hy hn =>
    refine ⟨fun hs i => .cond (ht.value (hs.child (by simp [children])) i)
      (computes_block (fun e he => (hy e he).value (hs.child (by simp [children, he]))) _) ?_,
      fun hp => hp.elim⟩
    cases no with
    | none => exact does_push rfl (by simp)
    | some body =>
      exact computes_block (fun e he => (hn body rfl e he).value (hs.child (by simp [children, he]))) _
  | loop test body ht hb =>
    refine ⟨fun hs i => .loop (ht.value (hs.child (by simp [children])) i) (.drop ?_) (hagain _ hs i),
      fun hp => hp.elim⟩
    exact computes_block (fun e he => (hb e he).value (hs.child (by simp [children, he]))) _
  | count _ _ _ _ _ hi ht ha hb => exact evaluates_count hagain hi ht ha hb
  | print args ha =>
    refine ⟨fun hs i => ?_, fun hp => hp.elim⟩
    refine Setting.Does.append (does_reversed (fun e he => (ha e he).value (hs.child he)) i) fun vs hvs => ?_
    rw [← length_of_evalReversed hvs]
    exact .print
  | list elems he =>
    refine ⟨fun hs i => ?_, fun hp => hp.elim⟩
    refine Setting.Does.append (does_all (fun e hmem => (he e hmem).value (hs.child hmem)) i) fun vs hvs => ?_
    have hfits : elems.length < sequenceLimit := hs.fits.self
    have hlength := length_of_evalAll hvs
    rw [← hlength]
    exact does_buildList (by rw [hlength]; exact Nat.lt_of_lt_of_le hfits (Nat.div_le_self ..))
  | fill value size hv hs =>
    refine ⟨fun hsound i => ?_, fun hp => hp.elim⟩
    exact Setting.Does.append (hv.value (hsound.child (by simp [children])) i) fun v _ =>
      Setting.Does.append ((hs.value (hsound.child (by simp [children])) _).above [v]) fun n _ =>
        .compute rfl (by simp)
  | map entries he =>
    refine ⟨fun hs i => ?_, fun hp => hp.elim⟩
    have hentries : s.Does p (n + 1) i (pieceOfEntries entries) [] (evalEntries s again i entries)
        fun vs => vs.reverse := does_entries (fun kv hkv =>
      ⟨(he kv hkv).1.value (hs.child (List.mem_flatMap.mpr ⟨kv, hkv, by simp⟩)),
        (he kv hkv).2.value (hs.child (List.mem_flatMap.mpr ⟨kv, hkv, by simp⟩))⟩) i
    have hfits : entries.length < wordSize / 2 := hs.fits.self
    exact hentries.append fun flat hflat => does_buildMap (length_of_evalEntries hflat) (by omega)
  | query op target ht =>
    exact ⟨fun hs i => Setting.Does.append (ht.value (hs.child (by simp [children])) i) fun v _ =>
      .compute rfl (by simp), fun hp => hp.elim⟩
  | update op target arg ht ha =>
    refine ⟨fun hs i => ?_, fun hp => hp.elim⟩
    exact Setting.Does.append (ht.value (hs.child (by simp [children])) i) fun coll _ =>
      Setting.Does.append ((ha.value (hs.child (by simp [children])) _).above [coll]) fun v _ =>
        Setting.Does.cons (.compute rfl (by simp)) fun r _ => does_restore target r
  | index _ _ ht hk => exact evaluates_index ht hk
  | put target key value ht hk hv =>
    exact ⟨fun hs i => ht.target hs.assignable.self (hs.child (by simp [children]))
      (hk.value (hs.child (by simp [children]))) (hv.value (hs.child (by simp [children]))) i,
      fun hp => hp.elim⟩
  | concat parts hp =>
    refine ⟨fun hs i => ?_, fun hp => hp.elim⟩
    refine Setting.Does.append (does_reversed (fun e he => (hp e he).value (hs.child he)) i) fun vs hvs => ?_
    have hcombine : Instr.combine (.strCat parts.length) vs = some (Value.concat vs) :=
      if_pos (length_of_evalReversed hvs)
    exact .compute hcombine (by simp)
  | slice _ _ _ _ ht hs hp hst => exact evaluates_slice ht hs hp hst
  | function name params body ret hb hr =>
    exact ⟨fun _ i => .function fun site hsite => h.defines hsite, fun hp => hp.elim⟩
  | call callee args ha =>
    refine ⟨fun hs i => ?_, fun hp => hp.elim⟩
    refine Setting.Does.append (does_all (fun e he => (ha e he).value (hs.child he)) i) fun vs hvs =>
      Setting.Does.cons (does_load h (hs.name_eq (by simp [ownBindings]))) fun f _ hpresent calls => ?_
    have hi := hpresent.instr
    rw [← length_of_evalAll hvs] at hi
    exact Setting.tracks_call h hagain hi

end Induction

/-- **The code of a sound tree does what its evaluation says**, and where the evaluation lacks fuel, it takes
more steps than there was fuel. -/
theorem computes_eval {s : Setting} {p : Program} (h : s.Loaded p title) (fuel : Nat) {e : Expr Symbol}
    (he : e.Sound title) (i : Nat) : s.Computes p (fuel + 1) i e.piece (e.eval s fuel i) := by
  induction fuel generalizing e i with
  | zero => exact (evaluates h (fun _ _ _ _ _ => .unfinished) e).value he i
  | succ fuel ih => exact (evaluates h (fun _ he i => ih he i) e).value he i

end Expr

/-! ## Programs -/

namespace Program

variable {tree : List (Expr Symbol)} {p : Program}

theorem loaded_of_ofTree (m : Machine) (hp : ofTree tree = .ok p) (h : ∀ e ∈ tree, e.Sound title) :
    (setting tree m).Loaded p title where
  names _ _ hi := nameOf?_of_load hp (fun e he => (h e he).titled) hi
  stands site hsite :=
    Expr.delivers_program Expr.Sound.child h 0 (present_of_ofTree m hp) site hsite

/-- The end of a run, in terms of the evaluation. -/
theorem follows_eval (m : Machine) (hp : ofTree tree = .ok p) (h : ∀ e ∈ tree, e.Sound title) (fuel : Nat) :
    (m.load p).Follows (fuel + 1) (fun v w m' => m'.step =
        (.ok (.done v), { m' with stack := [], status := .halted }) ∧ m'.memory = w.memory ∧
        m'.output = w.output)
      (evalProgram tree m.maxCallDepth m.sink m.output fuel) := by
  obtain ⟨hblock, hhalt⟩ := Setting.present_append.mp (present_of_ofTree m hp)
  have hmeets : (setting tree m).Meets ⟨0, [], []⟩ { memory := .empty, output := m.output } :=
    ⟨fun _ hv => (by cases hv), .empty, rfl⟩
  have hrun := Expr.computes_eval (loaded_of_ofTree m hp h) fuel (.of_block h) 0 hblock [] [] _ hmeets
  refine hrun.imp fun v w m' _ hm' => ?_
  obtain ⟨rfl, -⟩ := hm'
  refine ⟨?_, rfl, rfl⟩
  have hcurrent : ((setting tree m).machine p (0 + (Expr.pieceOfBlock tree).width) [v] w).current? =
    some .halt := hhalt.instr
  simp only [List.cons_append, List.nil_append, Expr.piece]
  rw [Machine.step, hcurrent]
  rfl

/-- **Compiler correctness.** A program that was compiled from a tree, and loaded into any machine, does
what the evaluation of the tree says. If that has a value, execution ends with this value; if it fails,
execution fails with the same error; in both cases with the same output and globals. If the evaluation
lacks fuel however much there is, execution does not end. -/
theorem runs_as_evaluated (hnames : Expr.NamesAgree tree) (hplaces : ∀ e ∈ tree, e.Assignable)
    (hfits : ∀ e ∈ tree, e.Fits) : ∃ p, ofTree tree = .ok p ∧ ∀ m : Machine,
      (∀ fuel v w, evalProgram tree m.maxCallDepth m.sink m.output fuel = .value v w →
        ∃ n m', (m.load p).execute n = (some (.ok v), m') ∧ m'.output = w.output ∧
          m'.memory.globals = w.memory.globals) ∧
      (∀ fuel e w, evalProgram tree m.maxCallDepth m.sink m.output fuel = .failure e w →
        ∃ n m', (m.load p).execute n = (some (.error e), m') ∧ m'.output = w.output ∧
          m'.memory.globals = w.memory.globals) ∧
      ((∀ fuel, evalProgram tree m.maxCallDepth m.sink m.output fuel = .unfinished) →
        ∀ n, ((m.load p).execute n).1 = none) := by
  obtain ⟨title, htitle⟩ := Expr.exists_titled hnames
  have hsound : ∀ e ∈ tree, e.Sound title := fun e he => ⟨htitle e he, hplaces e he, hfits e he⟩
  obtain ⟨b, -, hp⟩ := ofTree_eq_ok hplaces
  refine ⟨_, hp, fun m => ⟨fun fuel v w hev => ?_, fun fuel e w hev => ?_, fun hev n => ?_⟩⟩
  · have hfollows := follows_eval m hp hsound fuel
    rw [hev] at hfollows
    obtain ⟨k, m', hk, hstep, hmemory, houtput⟩ := hfollows
    refine ⟨k + 1, { m' with stack := [], status := .halted }, ?_, houtput, congrArg _ hmemory⟩
    rw [hk.execute_add, Machine.execute, hstep]
  · have hfollows := follows_eval m hp hsound fuel
    rw [hev] at hfollows
    obtain ⟨k, m', m'', hk, hstep, hmemory, houtput⟩ := hfollows
    refine ⟨k + 1, m'', ?_, houtput, congrArg _ hmemory⟩
    rw [hk.execute_add, Machine.execute, hstep]
  · have hfollows := follows_eval m hp hsound n
    rw [hev n] at hfollows
    obtain ⟨m', hm'⟩ := hfollows
    obtain ⟨m'', hn, -⟩ := hm'.take
    rw [← Nat.add_zero n, hn.execute_add]
    rfl

/-- A recursive function, which is called through another variable. -/
def sampleCall : List (Expr Symbol) :=
  [.function ⟨"f", 0⟩ [⟨"x", 1⟩] [] (.cond (.var ⟨"x", 1⟩)
      [.call ⟨"f", 0⟩ [.unary .not (.var ⟨"x", 1⟩)]] (some [.literal (.num (.ofNat 7))])),
    .declare ⟨"g", 2⟩ (.var ⟨"f", 0⟩), .call ⟨"g", 2⟩ [.literal (.bool true)]]

theorem runs_as_evaluated_call : ∃ p, ofTree sampleCall = .ok p ∧
    ∃ n m', (Machine.load {} p).execute n = (some (.ok (.num (.ofNat 7))), m') ∧ m'.output = "" := by
  have hnames : Expr.NamesAgree sampleCall := by decide
  have hplaces : ∀ e ∈ sampleCall, e.Assignable := by decide
  have hfits : ∀ e ∈ sampleCall, e.Fits := by decide
  obtain ⟨p, hp, hruns⟩ := runs_as_evaluated hnames hplaces hfits
  obtain ⟨w, hev, hw⟩ : ∃ w, evalProgram sampleCall defaultCallDepth .accepting "" 2 =
    .value (.num (.ofNat 7)) w ∧ w.output = "" := ⟨_, rfl, rfl⟩
  obtain ⟨n, m', hn, hout, -⟩ := (hruns {}).1 2 _ w hev
  exact ⟨p, hp, n, m', hn, hout.trans hw⟩

end Program

end ExactScript
