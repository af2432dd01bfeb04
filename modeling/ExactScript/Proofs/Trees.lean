import ExactScript.Expr

/-!
# Induction over trees

A tree holds lists, optional lists and lists of pairs of trees. Its own recursor has a motive for each of
them; here is the principle that the later proofs use, with "every element of the list" in their place,
and the list of all subtrees, over which side conditions on trees are stated.

## Contents
* `Expr.induct`: one motive, one case for each kind of node; `Expr.induct_children`, by the trees below;
* `Expr.subtrees`: a tree and everything below it; `Expr.Everywhere`: a property of all of these;
* `Expr.Fits`: no list or map is too long to be written out;
* `Expr.ownBindings`, `Expr.bindings`: the bindings that a node, a tree mentions.
-/

namespace ExactScript

namespace Expr

variable {β : Type}

/-- **Induction over trees.** What is nested in lists and options is covered by membership. -/
@[elab_as_elim]
theorem induct {P : Expr β → Prop}
    (literal : ∀ l, P (literal l))
    (var : ∀ x, P (var x))
    (declare : ∀ x value, P value → P (declare x value))
    (assign : ∀ x value, P value → P (assign x value))
    (letIn : ∀ x value body, P value → P body → P (letIn x value body))
    (unary : ∀ op operand, P operand → P (unary op operand))
    (binary : ∀ op left right, P left → P right → P (binary op left right))
    (logical : ∀ op left right, P left → P right → P (logical op left right))
    (block : ∀ body, (∀ e ∈ body, P e) → P (block body))
    (cond : ∀ test yes no, P test → (∀ e ∈ yes, P e) → (∀ body ∈ no, ∀ e ∈ body, P e) →
      P (cond test yes no))
    (loop : ∀ test body, P test → (∀ e ∈ body, P e) → P (loop test body))
    (count : ∀ x init test advance body, P init → P test → P advance → (∀ e ∈ body, P e) →
      P (count x init test advance body))
    (print : ∀ args, (∀ e ∈ args, P e) → P (print args))
    (list : ∀ elems, (∀ e ∈ elems, P e) → P (list elems))
    (fill : ∀ value size, P value → P size → P (fill value size))
    (map : ∀ entries, (∀ kv ∈ entries, P kv.1 ∧ P kv.2) → P (map entries))
    (query : ∀ op target, P target → P (query op target))
    (update : ∀ op target arg, P target → P arg → P (update op target arg))
    (index : ∀ target key, P target → P key → P (index target key))
    (put : ∀ target key value, P target → P key → P value → P (put target key value))
    (concat : ∀ parts, (∀ e ∈ parts, P e) → P (concat parts))
    (slice : ∀ target start stop step, P target → P start → P stop → (∀ e ∈ step, P e) →
      P (slice target start stop step))
    (function : ∀ name params body ret, (∀ e ∈ body, P e) → P ret → P (function name params body ret))
    (call : ∀ callee args, (∀ e ∈ args, P e) → P (call callee args)) :
    ∀ e, P e :=
  @Expr.rec β P (fun es => ∀ e ∈ es, P e) (fun no => ∀ body ∈ no, ∀ e ∈ body, P e)
    (fun entries => ∀ kv ∈ entries, P kv.1 ∧ P kv.2) (fun step => ∀ e ∈ step, P e)
    (fun kv => P kv.1 ∧ P kv.2)
    literal var declare assign letIn unary binary logical block cond loop count print list fill map query
    update index put concat slice function call
    (by simp) (fun _ _ hd tl => List.forall_mem_cons.mpr ⟨hd, tl⟩)
    (by simp) (fun _ h _ hb => Option.some.inj hb ▸ h)
    (by simp) (fun _ _ hd tl => List.forall_mem_cons.mpr ⟨hd, tl⟩)
    (by simp) (fun _ h _ he => Option.some.inj he ▸ h)
    (fun _ _ hk hv => ⟨hk, hv⟩)

/-! ## Subtrees -/

mutual

/-- A tree and all trees below it. -/
def subtrees : Expr β → List (Expr β)
  | literal l => [literal l]
  | var x => [var x]
  | declare x value => declare x value :: value.subtrees
  | assign x value => assign x value :: value.subtrees
  | letIn x value body => letIn x value body :: (value.subtrees ++ body.subtrees)
  | unary op operand => unary op operand :: operand.subtrees
  | binary op left right => binary op left right :: (left.subtrees ++ right.subtrees)
  | logical op left right => logical op left right :: (left.subtrees ++ right.subtrees)
  | block body => block body :: subtreesOfAll body
  | cond test yes no =>
    cond test yes no :: (test.subtrees ++ subtreesOfAll yes ++ subtreesOfAlternative no)
  | loop test body => loop test body :: (test.subtrees ++ subtreesOfAll body)
  | count x init test advance body =>
    count x init test advance body ::
      (init.subtrees ++ test.subtrees ++ advance.subtrees ++ subtreesOfAll body)
  | print args => print args :: subtreesOfAll args
  | list elems => list elems :: subtreesOfAll elems
  | fill value size => fill value size :: (value.subtrees ++ size.subtrees)
  | map entries => map entries :: subtreesOfEntries entries
  | query op target => query op target :: target.subtrees
  | update op target arg => update op target arg :: (target.subtrees ++ arg.subtrees)
  | index target key => index target key :: (target.subtrees ++ key.subtrees)
  | put target key value => put target key value :: (target.subtrees ++ key.subtrees ++ value.subtrees)
  | concat parts => concat parts :: subtreesOfAll parts
  | slice target start stop step =>
    slice target start stop step ::
      (target.subtrees ++ start.subtrees ++ stop.subtrees ++ subtreesOfStep step)
  | function name params body ret =>
    function name params body ret :: (subtreesOfAll body ++ ret.subtrees)
  | call callee args => call callee args :: subtreesOfAll args

def subtreesOfAll : List (Expr β) → List (Expr β)
  | [] => []
  | e :: es => e.subtrees ++ subtreesOfAll es

def subtreesOfAlternative : Option (List (Expr β)) → List (Expr β)
  | none => []
  | some body => subtreesOfAll body

def subtreesOfStep : Option (Expr β) → List (Expr β)
  | none => []
  | some step => step.subtrees

def subtreesOfEntries : List (Expr β × Expr β) → List (Expr β)
  | [] => []
  | (k, v) :: es => k.subtrees ++ v.subtrees ++ subtreesOfEntries es

end

/-- The property holds of every subtree. -/
def Everywhere (P : Expr β → Prop) (e : Expr β) : Prop := ∀ t ∈ e.subtrees, P t

instance {P : Expr β → Prop} [DecidablePred P] (e : Expr β) : Decidable (Everywhere P e) :=
  inferInstanceAs (Decidable (∀ t ∈ e.subtrees, P t))

variable {P : Expr β → Prop}

theorem forall_subtreesOfAll {es : List (Expr β)} :
    (∀ t ∈ subtreesOfAll es, P t) ↔ ∀ e ∈ es, Everywhere P e := by
  induction es with
  | nil => simp [subtreesOfAll]
  | cons e es ih =>
    simp only [subtreesOfAll, List.forall_mem_append, ih, Everywhere, List.forall_mem_cons]

theorem forall_subtreesOfAlternative {no : Option (List (Expr β))} :
    (∀ t ∈ subtreesOfAlternative no, P t) ↔ ∀ body ∈ no, ∀ e ∈ body, Everywhere P e := by
  cases no with
  | none => simp [subtreesOfAlternative]
  | some body => simp [subtreesOfAlternative, forall_subtreesOfAll]

theorem forall_subtreesOfStep {step : Option (Expr β)} :
    (∀ t ∈ subtreesOfStep step, P t) ↔ ∀ e ∈ step, Everywhere P e := by
  cases step <;> simp [subtreesOfStep, Everywhere]

theorem forall_subtreesOfEntries {es : List (Expr β × Expr β)} :
    (∀ t ∈ subtreesOfEntries es, P t) ↔ ∀ kv ∈ es, Everywhere P kv.1 ∧ Everywhere P kv.2 := by
  induction es with
  | nil => simp [subtreesOfEntries]
  | cons kv es ih =>
    simp only [subtreesOfEntries, List.forall_mem_append, ih, Everywhere, List.forall_mem_cons]

/-- The trees right below a node. -/
def children : Expr β → List (Expr β)
  | literal _ => []
  | var _ => []
  | declare _ value => [value]
  | assign _ value => [value]
  | letIn _ value body => [value, body]
  | unary _ operand => [operand]
  | binary _ left right => [left, right]
  | logical _ left right => [left, right]
  | block body => body
  | cond test yes no => test :: (yes ++ no.getD [])
  | loop test body => test :: body
  | count _ init test advance body => init :: test :: advance :: body
  | print args => args
  | list elems => elems
  | fill value size => [value, size]
  | map entries => entries.flatMap fun kv => [kv.1, kv.2]
  | query _ target => [target]
  | update _ target arg => [target, arg]
  | index target key => [target, key]
  | put target key value => [target, key, value]
  | concat parts => parts
  | slice target start stop step => target :: start :: stop :: step.toList
  | function _ _ body ret => body ++ [ret]
  | call _ args => args

/-- Induction over trees by the trees right below. -/
theorem induct_children {P : Expr β → Prop} (h : ∀ e, (∀ c ∈ e.children, P c) → P e) (e : Expr β) : P e := by
  induction e using induct with
  | map entries he =>
    refine h _ fun c hc => ?_
    obtain ⟨kv, hkv, hc⟩ := List.mem_flatMap.mp hc
    simp only [List.mem_cons, List.not_mem_nil, or_false] at hc
    rcases hc with rfl | rfl
    · exact (he kv hkv).1
    · exact (he kv hkv).2
  | cond test yes no ht hy hn =>
    refine h _ fun c hc => ?_
    cases no with
    | none => grind [children]
    | some body => grind [children]
  | slice target start stop step ht hs hp hst =>
    refine h _ fun c hc => ?_
    cases step with
    | none => grind [children]
    | some e => grind [children]
  | _ =>
    refine h _ fun c hc => ?_
    grind [children]

theorem everywhere_iff {e : Expr β} : Everywhere P e ↔ P e ∧ ∀ c ∈ e.children, Everywhere P c := by
  cases e with
  | cond test yes no =>
    cases no <;> simp [Everywhere, subtrees, children, or_imp, forall_and, forall_subtreesOfAll,
      forall_subtreesOfAlternative]
  | slice target start stop step =>
    cases step <;> simp [Everywhere, subtrees, children, or_imp, forall_and, forall_subtreesOfStep]
  | map entries =>
    simp only [Everywhere, subtrees, children, List.forall_mem_cons, forall_subtreesOfEntries,
      List.forall_mem_flatMap]
    simp
  | _ => simp [Everywhere, subtrees, children, or_imp, forall_and, forall_subtreesOfAll]

theorem Everywhere.self {e : Expr β} (h : Everywhere P e) : P e := (everywhere_iff.mp h).1

/-- The subtrees of a subtree are subtrees. -/
theorem Everywhere.nested {e : Expr β} (h : Everywhere P e) : Everywhere (Everywhere P) e := by
  induction e using induct_children with
  | h e ih => exact everywhere_iff.mpr ⟨h, fun c hc => ih c hc ((everywhere_iff.mp h).2 c hc)⟩

/-! ## Sizes -/

/-- Sequences in memory have fewer elements than this, which is half the values of a machine word. -/
def sequenceLimit : Nat := wordSize / 2

/-- The elements that the node writes out can be stored in memory. -/
def FitsNode : Expr β → Prop
  | list elems => elems.length < sequenceLimit
  | map entries => entries.length < sequenceLimit
  | _ => True

instance : DecidablePred (FitsNode : Expr β → Prop)
  | list elems => inferInstanceAs (Decidable (elems.length < sequenceLimit))
  | map entries => inferInstanceAs (Decidable (entries.length < sequenceLimit))
  | literal _ | var _ | declare _ _ | assign _ _ | letIn _ _ _ | unary _ _ | binary _ _ _
  | logical _ _ _ | block _ | cond _ _ _ | loop _ _ | count _ _ _ _ _ | print _ | fill _ _ | query _ _
  | update _ _ _ | index _ _ | put _ _ _ | concat _ | slice _ _ _ _ | function _ _ _ _ | call _ _ =>
    .isTrue trivial

/-- Every list and map that the tree writes out can be stored in memory. -/
def Fits (e : Expr β) : Prop := e.Everywhere FitsNode

instance (e : Expr β) : Decidable e.Fits := inferInstanceAs (Decidable (e.Everywhere FitsNode))

theorem fits_iff {e : Expr β} : e.Fits ↔ e.FitsNode ∧ ∀ c ∈ e.children, c.Fits := everywhere_iff

/-! ## Bindings -/

/-- The bindings that stand at the node itself. -/
def ownBindings : Expr β → List β
  | var x => [x]
  | declare x _ => [x]
  | assign x _ => [x]
  | letIn x _ _ => [x]
  | count x _ _ _ _ => [x]
  | function name params _ _ => name :: params
  | call callee _ => [callee]
  | _ => []

/-- Every binding of a tree. -/
def bindings (e : Expr β) : List β := e.subtrees.flatMap ownBindings

/-- No id goes with two names. -/
def NamesAgree (tree : List (Expr Symbol)) : Prop :=
  ∀ x ∈ tree.flatMap bindings, ∀ y ∈ tree.flatMap bindings, x.id = y.id → x.name = y.name

instance (tree : List (Expr Symbol)) : Decidable (NamesAgree tree) :=
  inferInstanceAs (Decidable (∀ x ∈ tree.flatMap bindings, ∀ y ∈ tree.flatMap bindings,
    x.id = y.id → x.name = y.name))

end Expr

end ExactScript
