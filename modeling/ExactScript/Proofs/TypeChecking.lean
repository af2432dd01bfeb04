import ExactScript.Proofs.Declarations
import ExactScript.Typing

/-!
# The course of the type check

The check reads a tree once, with an index that changes on the way. Here is what it does at each node,
as one rule for each construct, and the list of its *visits*: every part of the tree with the index with
which the check comes to it. A visit says which type the check gave to the part, and which types it gave
to the symbols that the part declares.

## Contents
* `Ty.refines`, `Ty.covers`: when a type says at least as much as another, and when joining loses nothing;
* `Visit`, `Expr.visits`, the visits of a tree, and `Visit.parts`, those of the trees right below;
* `Threads`, `Rule`, the rules of the check, and `rule_of_typing`;
* `declaredType`, the type of the declaration of an id, and `declaredType_eq`.
-/

namespace ExactScript

/-! ## Comparing types -/

namespace Ty

/-- Every value of the first type is one of the second. -/
def refines : Ty → Ty → Bool
  | _, any => true
  | function m s, function n t => m == n && s.refines t
  | s, t => s == t

/-- Nothing is lost when `s` stands for `t` too: it says no more than `t`, and `any` only for `any`. -/
def covers (s t : Ty) : Bool := t.refines s && (s != any || t == any)

/-- The type says of a value which kind it is, and nothing else. -/
def ground : Ty → Bool
  | any => false
  | function _ _ => false
  | _ => true

variable {s t u : Ty}

@[simp] theorem refines_any (s : Ty) : s.refines any = true := by cases s <;> rfl

@[simp] theorem refines_refl (s : Ty) : s.refines s = true := by
  induction s with
  | function n s ih => simpa [refines] using ih
  | _ => rfl

/-- A function type is refined by function types of the same arity only. -/
theorem of_refines_function {n : Nat} (h : s.refines (function n t)) :
    ∃ u, s = function n u ∧ u.refines t := by
  cases s with
  | function m u =>
    simp only [refines, Bool.and_eq_true, beq_iff_eq] at h
    exact ⟨u, by rw [h.1], h.2⟩
  | _ => simp [refines] at h

theorem eq_of_refines (ht : t.ground) (h : s.refines t) : s = t := by
  cases t <;> cases s <;> simp_all [refines, ground]

theorem refines_trans (hst : s.refines t) (htu : t.refines u) : s.refines u := by
  induction u generalizing s t with
  | any => exact refines_any s
  | function n u ih =>
    obtain ⟨t, rfl, ht⟩ := of_refines_function htu
    obtain ⟨s, rfl, hs⟩ := of_refines_function hst
    simpa [refines] using ih hs ht
  | _ =>
    obtain rfl := eq_of_refines rfl htu
    exact hst

theorem eq_of_compatible (hs : s.ground) (ht : t.ground) (h : s.compatible t) : s = t := by
  cases s <;> cases t <;> simp_all [compatible, ground]

theorem covers_iff : s.covers t ↔ t.refines s ∧ (s = any → t = any) := by
  by_cases h : s = any <;> simp [covers, h]

@[simp] theorem covers_refl (s : Ty) : s.covers s := covers_iff.mpr ⟨refines_refl s, id⟩

/-- Joining with what is covered changes nothing. -/
theorem join_of_covers (h : s.covers t) : s.join t = s := by
  by_cases hs : s = any
  · subst hs
    rw [(covers_iff.mp h).2 rfl, join]
  · cases s <;> first | rfl | exact absurd rfl hs

end Ty

/-! ## Visits -/

/-- A part of a tree, with the index with which the check comes to it. -/
structure Visit where
  expr : Expr Symbol
  index : TypeIndex

namespace Expr

/-- The index after a tree. -/
def after (e : Expr Symbol) (g : TypeIndex) : TypeIndex :=
  match e.typing g with
  | .ok (g', _) => g'
  | .error _ => g

def afterAll (es : List (Expr Symbol)) (g : TypeIndex) : TypeIndex := es.foldl (fun g e => e.after g) g

/-- The type that the check gives to a tree, `any` if it rejects the tree. -/
def typeAt (e : Expr Symbol) (g : TypeIndex) : Ty :=
  match e.typing g with
  | .ok (_, t) => t
  | .error _ => .any

/-- The index with which the body of a function is checked. -/
def bodyIndex (name : Symbol) (params : List Symbol) (g : TypeIndex) : TypeIndex :=
  params.foldl (fun g p => g.insert p.id .any) (g.insert name.id (.function params.length .any))

mutual

/-- Every part of a tree with the index with which the check comes to it. -/
def visits (g : TypeIndex) : Expr Symbol → List Visit
  | literal l => [⟨literal l, g⟩]
  | var x => [⟨var x, g⟩]
  | declare x value => ⟨declare x value, g⟩ :: value.visits g
  | assign x value => ⟨assign x value, g⟩ :: value.visits g
  | letIn x value body =>
    ⟨letIn x value body, g⟩ ::
      (value.visits g ++ body.visits ((value.after g).insert x.id (value.typeAt g)))
  | unary op operand => ⟨unary op operand, g⟩ :: operand.visits g
  | binary op left right => ⟨binary op left right, g⟩ :: (left.visits g ++ right.visits (left.after g))
  | logical op left right => ⟨logical op left right, g⟩ :: (left.visits g ++ right.visits (left.after g))
  | block body => ⟨block body, g⟩ :: visitsOfAll g body
  | cond test yes no =>
    ⟨cond test yes no, g⟩ :: (test.visits g ++ visitsOfAll (test.after g) yes ++
      visitsOfAlternative (afterAll yes (test.after g)) no)
  | loop test body => ⟨loop test body, g⟩ :: (test.visits g ++ visitsOfAll (test.after g) body)
  | count x init test advance body =>
    -- the body is checked before `advance`
    let inner := (init.after g).insert x.id (init.typeAt g)
    ⟨count x init test advance body, g⟩ :: (init.visits g ++ test.visits inner ++
      advance.visits (afterAll body (test.after inner)) ++ visitsOfAll (test.after inner) body)
  | print args => ⟨print args, g⟩ :: visitsOfAll g args
  | list elems => ⟨list elems, g⟩ :: visitsOfAll g elems
  | fill value size => ⟨fill value size, g⟩ :: (value.visits g ++ size.visits (value.after g))
  | map entries => ⟨map entries, g⟩ :: visitsOfEntries g entries
  | query op target => ⟨query op target, g⟩ :: target.visits g
  | update op target arg => ⟨update op target arg, g⟩ :: (target.visits g ++ arg.visits (target.after g))
  | index target key => ⟨index target key, g⟩ :: (target.visits g ++ key.visits (target.after g))
  | put target key value =>
    ⟨put target key value, g⟩ :: (target.visits g ++ key.visits (target.after g) ++
      value.visits (key.after (target.after g)))
  | concat parts => ⟨concat parts, g⟩ :: visitsOfAll g parts
  | slice target start stop step =>
    ⟨slice target start stop step, g⟩ :: (target.visits g ++ start.visits (target.after g) ++
      stop.visits (start.after (target.after g)) ++
      visitsOfStep (stop.after (start.after (target.after g))) step)
  | function name params body ret =>
    ⟨function name params body ret, g⟩ :: (visitsOfAll (bodyIndex name params g) body ++
      ret.visits (afterAll body (bodyIndex name params g)))
  | call callee args => ⟨call callee args, g⟩ :: visitsOfAll g args

def visitsOfAll (g : TypeIndex) : List (Expr Symbol) → List Visit
  | [] => []
  | e :: es => e.visits g ++ visitsOfAll (e.after g) es

def visitsOfAlternative (g : TypeIndex) : Option (List (Expr Symbol)) → List Visit
  | none => []
  | some body => visitsOfAll g body

def visitsOfStep (g : TypeIndex) : Option (Expr Symbol) → List Visit
  | none => []
  | some step => step.visits g

def visitsOfEntries (g : TypeIndex) : List (Expr Symbol × Expr Symbol) → List Visit
  | [] => []
  | (k, v) :: es =>
    k.visits g ++ v.visits (k.after g) ++ visitsOfEntries (v.after (k.after g)) es

end

/-- Trees that are checked one after the other. -/
def inTurn (g : TypeIndex) : List (Expr Symbol) → List Visit
  | [] => []
  | e :: es => ⟨e, g⟩ :: inTurn (e.after g) es

end Expr

namespace Visit

/-- The type that the check gives to the part. -/
def type (v : Visit) : Ty := v.expr.typeAt v.index

/-- The types that the check gives to the symbols that are declared at the node. -/
def declares (v : Visit) : List (Nat × Ty) :=
  match v.expr with
  | .declare x value => [(x.id, value.typeAt v.index)]
  | .letIn x value _ => [(x.id, value.typeAt v.index)]
  | .count x init _ _ _ => [(x.id, init.typeAt v.index)]
  | .function name params _ _ => (name.id, v.type) :: params.map fun p => (p.id, .any)
  | _ => []

/-- The visits of the trees right below. -/
def parts (v : Visit) : List Visit :=
  match v.expr with
  | .letIn x value body =>
    [⟨value, v.index⟩, ⟨body, (value.after v.index).insert x.id (value.typeAt v.index)⟩]
  | .count x init test advance body =>
    ⟨init, v.index⟩ :: Expr.inTurn ((init.after v.index).insert x.id (init.typeAt v.index))
      (test :: (body ++ [advance]))
  | .function name params body ret => Expr.inTurn (Expr.bodyIndex name params v.index) (body ++ [ret])
  | e => Expr.inTurn v.index e.children

end Visit

namespace Expr

variable {e : Expr Symbol} {es fs : List (Expr Symbol)} {g g' : TypeIndex} {t : Ty} {v : Visit}

theorem after_eq (h : e.typing g = .ok (g', t)) : e.after g = g' := by rw [after, h]

theorem typeAt_eq (h : e.typing g = .ok (g', t)) : e.typeAt g = t := by rw [typeAt, h]

@[simp] theorem afterAll_nil : afterAll [] g = g := rfl

@[simp] theorem afterAll_cons : afterAll (e :: es) g = afterAll es (e.after g) := rfl

theorem inTurn_append : inTurn g (es ++ fs) = inTurn g es ++ inTurn (afterAll es g) fs := by
  induction es generalizing g with
  | nil => rfl
  | cons e es ih => rw [List.cons_append, inTurn, inTurn, ih, afterAll_cons, List.cons_append]

theorem mem_visitsOfAll : v ∈ visitsOfAll g es ↔ ∃ w ∈ inTurn g es, v ∈ w.expr.visits w.index := by
  induction es generalizing g with
  | nil => simp [visitsOfAll, inTurn]
  | cons e es ih => simp [visitsOfAll, inTurn, ih]

theorem mem_visitsOfEntries {es : List (Expr Symbol × Expr Symbol)} : v ∈ visitsOfEntries g es ↔
    ∃ w ∈ inTurn g (es.flatMap fun kv => [kv.1, kv.2]), v ∈ w.expr.visits w.index := by
  induction es generalizing g with
  | nil => simp [visitsOfEntries, inTurn]
  | cons kv es ih => simp [visitsOfEntries, inTurn, ih]

/-- The visits are the tree itself, and those of the trees right below. -/
theorem mem_visits_iff :
    v ∈ e.visits g ↔ v = ⟨e, g⟩ ∨ ∃ w ∈ (Visit.mk e g).parts, v ∈ w.expr.visits w.index := by
  cases e with
  | cond test yes no =>
    cases no <;> simp [visits, visitsOfAlternative, Visit.parts, children, inTurn, inTurn_append,
      mem_visitsOfAll, or_and_right, exists_or]
  | slice target start stop step =>
    cases step <;> simp [visits, visitsOfStep, Visit.parts, children, inTurn]
  | count x init test advance body =>
    simp only [visits, Visit.parts, inTurn, inTurn_append, List.mem_cons, List.mem_append,
      mem_visitsOfAll, or_and_right, exists_or, exists_eq_left, List.not_mem_nil, or_false]
    grind
  | _ =>
    simp [visits, Visit.parts, children, inTurn, inTurn_append, mem_visitsOfAll, mem_visitsOfEntries,
      or_and_right, exists_or]

section Lists

theorem map_expr_visitsOfAll (h : ∀ e ∈ es, ∀ g, (e.visits g).map Visit.expr = e.subtrees) :
    (visitsOfAll g es).map Visit.expr = subtreesOfAll es := by
  induction es generalizing g with
  | nil => rfl
  | cons e es ih =>
    obtain ⟨he, hes⟩ := List.forall_mem_cons.mp h
    rw [visitsOfAll, List.map_append, he, ih hes, subtreesOfAll]

theorem map_expr_visitsOfEntries {es : List (Expr Symbol × Expr Symbol)}
    (h : ∀ kv ∈ es, (∀ g, (kv.1.visits g).map Visit.expr = kv.1.subtrees) ∧
      ∀ g, (kv.2.visits g).map Visit.expr = kv.2.subtrees) :
    (visitsOfEntries g es).map Visit.expr = subtreesOfEntries es := by
  induction es generalizing g with
  | nil => rfl
  | cons kv es ih =>
    obtain ⟨⟨hk, hv⟩, hes⟩ := List.forall_mem_cons.mp h
    rw [visitsOfEntries, List.map_append, List.map_append, hk, hv, ih hes, subtreesOfEntries]

end Lists

/-- Each part of the tree is visited once. -/
theorem map_expr_visits (e : Expr Symbol) (g : TypeIndex) : (e.visits g).map Visit.expr = e.subtrees := by
  induction e using induct generalizing g with
  | block body hb => simp [visits, subtrees, map_expr_visitsOfAll hb]
  | cond test yes no ht hy hn =>
    cases no with
    | none => simp [visits, visitsOfAlternative, subtrees, subtreesOfAlternative, ht, map_expr_visitsOfAll hy]
    | some body =>
      simp [visits, visitsOfAlternative, subtrees, subtreesOfAlternative, ht, map_expr_visitsOfAll hy,
        map_expr_visitsOfAll (hn body rfl)]
  | loop test body ht hb => simp [visits, subtrees, ht, map_expr_visitsOfAll hb]
  | count x init test advance body hi ht ha hb =>
    simp [visits, subtrees, hi, ht, ha, map_expr_visitsOfAll hb]
  | print args ha => simp [visits, subtrees, map_expr_visitsOfAll ha]
  | list elems he => simp [visits, subtrees, map_expr_visitsOfAll he]
  | map entries he => simp [visits, subtrees, map_expr_visitsOfEntries he]
  | concat parts hp => simp [visits, subtrees, map_expr_visitsOfAll hp]
  | slice target start stop step ht hs hp hst =>
    cases step with
    | none => simp [visits, visitsOfStep, subtrees, subtreesOfStep, ht, hs, hp]
    | some e => simp [visits, visitsOfStep, subtrees, subtreesOfStep, ht, hs, hp, hst e rfl]
  | function name params body ret hb hr => simp [visits, subtrees, map_expr_visitsOfAll hb, hr]
  | call callee args ha => simp [visits, subtrees, map_expr_visitsOfAll ha]
  | _ => simp_all [visits, subtrees]

end Expr

/-! ## The types of declarations -/

namespace Expr

variable {β : Type} [DecidableEq β] {es : List (Expr β)}

/-- The symbols that are declared at the node itself. -/
def ownDeclarations : Expr β → List β
  | declare x _ => [x]
  | letIn x _ _ => [x]
  | count x _ _ _ _ => [x]
  | function name params _ _ => name :: params
  | _ => []

/-- The tree declares what its parts declare. -/
def DeclaresOwn (e : Expr β) : Prop :=
  ∀ b x, (e.subtrees.flatMap ownDeclarations).count x = ((e.declarations b).map Prod.snd).count x

theorem count_ownDeclarationsOfAll (h : ∀ e ∈ es, e.DeclaresOwn) (b : Bool) (x : β) :
    ((subtreesOfAll es).flatMap ownDeclarations).count x =
      ((declarationsOfAll b es).map Prod.snd).count x := by
  induction es with
  | nil => rfl
  | cons e es ih =>
    obtain ⟨he, hes⟩ := List.forall_mem_cons.mp h
    simp [subtreesOfAll, declarationsOfAll, he b, ih hes]

theorem count_ownDeclarationsOfEntries {es : List (Expr β × Expr β)}
    (h : ∀ kv ∈ es, kv.1.DeclaresOwn ∧ kv.2.DeclaresOwn) (b : Bool) (x : β) :
    ((subtreesOfEntries es).flatMap ownDeclarations).count x =
      ((declarationsOfEntries b es).map Prod.snd).count x := by
  induction es with
  | nil => rfl
  | cons kv es ih =>
    obtain ⟨⟨hk, hv⟩, hes⟩ := List.forall_mem_cons.mp h
    simp only [subtreesOfEntries, declarationsOfEntries, List.flatMap_append, List.map_append,
      List.count_append, hk b, hv b, ih hes]
    omega

theorem declaresOwn (e : Expr β) : e.DeclaresOwn := by
  induction e using induct with
  | literal l => exact fun _ _ => rfl
  | var x => exact fun _ _ => rfl
  | assign x value hv => exact hv
  | unary op operand ho => exact ho
  | query op target ht => exact ht
  | block body hb => exact count_ownDeclarationsOfAll hb
  | print args ha => exact count_ownDeclarationsOfAll ha
  | list elems he => exact count_ownDeclarationsOfAll he
  | map entries he => exact count_ownDeclarationsOfEntries he
  | concat parts hp => exact count_ownDeclarationsOfAll hp
  | call callee args ha => exact count_ownDeclarationsOfAll ha
  | cond test yes no ht hy hn =>
    intro b x
    cases no with
    | none =>
      simp [subtrees, declarations, ownDeclarations, subtreesOfAlternative, declarationsOfAlternative, ht b x,
        count_ownDeclarationsOfAll hy b]
    | some body =>
      simp only [subtrees, declarations, ownDeclarations, subtreesOfAlternative, declarationsOfAlternative,
        List.flatMap_cons, List.flatMap_append, List.map_append, List.count_append, List.nil_append, ht b x,
        count_ownDeclarationsOfAll hy b, count_ownDeclarationsOfAll (hn body rfl) b]
      omega
  | loop test body ht hb =>
    intro b x
    simp [subtrees, declarations, ownDeclarations, ht b x, count_ownDeclarationsOfAll hb b]
  | count y init test advance body hi ht ha hb =>
    intro b x
    simp only [subtrees, declarations, ownDeclarations, List.flatMap_cons, List.flatMap_append,
      List.map_append, List.map_cons, List.cons_append, List.nil_append, List.count_cons, List.count_append,
      hi b x, ht b x, ha b x, count_ownDeclarationsOfAll hb b]
    omega
  | slice target start stop step ht hs hp hst =>
    intro b x
    cases step with
    | none =>
      simp [subtrees, declarations, ownDeclarations, subtreesOfStep, declarationsOfStep, ht b x, hs b x, hp b x]
    | some e =>
      simp [subtrees, declarations, ownDeclarations, subtreesOfStep, declarationsOfStep, ht b x, hs b x, hp b x,
        hst e rfl b x]
  | function name params body ret hb hr =>
    intro b x
    simp only [subtrees, declarations, ownDeclarations, List.flatMap_cons, List.flatMap_append,
      List.map_append, List.map_cons, List.cons_append, List.count_cons, List.count_append, List.map_map,
      hr true x, count_ownDeclarationsOfAll hb true]
    simp [Function.comp_def]
  | declare y value hv =>
    intro b x
    simp only [subtrees, declarations, ownDeclarations, List.flatMap_cons, List.map_append, List.map_cons,
      List.map_nil, List.cons_append, List.nil_append, List.count_cons, List.count_append, List.count_nil,
      hv b x]
    omega
  | letIn y value body hv hb =>
    intro b x
    simp only [subtrees, declarations, ownDeclarations, List.flatMap_cons, List.flatMap_append,
      List.map_append, List.map_cons, List.cons_append, List.nil_append, List.count_cons, List.count_append,
      hv b x, hb b x]
    omega
  | binary op left right hl hr =>
    exact fun b x => by simp [subtrees, declarations, ownDeclarations, hl b x, hr b x]
  | logical op left right hl hr =>
    exact fun b x => by simp [subtrees, declarations, ownDeclarations, hl b x, hr b x]
  | fill value size hv hs =>
    exact fun b x => by simp [subtrees, declarations, ownDeclarations, hv b x, hs b x]
  | update op target arg ht ha =>
    exact fun b x => by simp [subtrees, declarations, ownDeclarations, ht b x, ha b x]
  | index target key ht hk =>
    exact fun b x => by simp [subtrees, declarations, ownDeclarations, ht b x, hk b x]
  | put target key value ht hk hv =>
    exact fun b x => by simp [subtrees, declarations, ownDeclarations, ht b x, hk b x, hv b x]

theorem perm_ownDeclarations (es : List (Expr β)) (b : Bool) :
    ((subtreesOfAll es).flatMap ownDeclarations).Perm ((declarationsOfAll b es).map Prod.snd) :=
  List.perm_iff_count.mpr fun x => count_ownDeclarationsOfAll (fun e _ => e.declaresOwn) b x

end Expr

section DeclaredTypes

/-- The visits of a program. -/
def programVisits (tree : List (Expr Symbol)) : List Visit := Expr.visitsOfAll .empty tree

/-- The type that the check gives to the declaration of an id, `any` if there is none. -/
def declaredType (tree : List (Expr Symbol)) (id : Nat) : Ty :=
  (((programVisits tree).flatMap Visit.declares).lookup id).getD .any

theorem map_fst_declares (v : Visit) : v.declares.map Prod.fst = v.expr.ownDeclarations.map Symbol.id := by
  cases h : v.expr <;> simp [Visit.declares, Expr.ownDeclarations, h, Function.comp_def]

theorem lookup_of_mem {α β : Type} [BEq α] [LawfulBEq α] {l : List (α × β)} (hl : (l.map Prod.fst).Nodup)
    {d : α × β} (hd : d ∈ l) : l.lookup d.1 = some d.2 := by
  induction l with
  | nil => cases hd
  | cons f l ih =>
    obtain ⟨hf, hl⟩ := List.nodup_cons.mp hl
    rcases List.mem_cons.mp hd with rfl | hd
    · exact List.lookup_cons_self
    · have hne : (d.1 == f.1) = false := by
        refine beq_false_of_ne fun heq => hf ?_
        rw [← heq]
        exact List.mem_map_of_mem hd
      rw [List.lookup_cons, hne]
      exact ih hl hd

/-- **Each id has one declaration**, so its declared type is the one at this declaration. -/
theorem declaredType_eq {source : List (Expr String)} {tree : List (Expr Symbol)}
    (h : resolve source = .ok tree) {v : Visit} (hv : v ∈ programVisits tree) {d : Nat × Ty}
    (hd : d ∈ v.declares) : declaredType tree d.1 = d.2 := by
  have hkeys : ((programVisits tree).flatMap Visit.declares).map Prod.fst =
      ((Expr.subtreesOfAll tree).flatMap Expr.ownDeclarations).map Symbol.id := by
    rw [← Expr.map_expr_visitsOfAll (g := .empty) fun e _ => e.map_expr_visits, programVisits,
      List.map_flatMap, List.flatMap_map, List.map_flatMap]
    simp only [map_fst_declares]
  have hnodup : (((programVisits tree).flatMap Visit.declares).map Prod.fst).Nodup := by
    rw [hkeys, ((Expr.perm_ownDeclarations tree false).map Symbol.id).nodup_iff, List.map_map]
    exact nodup_declared h
  rw [declaredType, lookup_of_mem hnodup (List.mem_flatMap.mpr ⟨v, hv, hd⟩)]
  rfl

end DeclaredTypes

/-! ## Rules -/

theorem requireOperand_eq_ok {op : String} {accepted : List Ty} {found : Ty} {u : Unit}
    (h : requireOperand op accepted found = .ok u) : accepts accepted found := by
  unfold requireOperand at h
  split at h
  · assumption
  · cases h

theorem requireCondition_eq_ok {found : Ty} {u : Unit} (h : requireCondition found = .ok u) :
    found.compatible .bool := by
  unfold requireCondition at h
  split at h
  · assumption
  · cases h

theorem BinaryOp.resultType_eq_ok {op : BinaryOp} {l r t : Ty} (h : op.resultType l r = .ok t) :
    op.resultType? l r = some t := by
  unfold resultType at h
  split at h
  · cases h
    assumption
  · cases h

/-- A step of the check that passes. -/
theorem of_bind_ok {α β : Type} {m : Except TypeError α} {k : α → Except TypeError β} {b : β}
    (h : (m >>= k) = .ok b) : ∃ a, m = .ok a ∧ k a = .ok b := by
  cases m with
  | ok a => exact ⟨a, rfl, h⟩
  | error e => cases h

namespace Expr

/-- The tree passes the check. -/
def Passes (e : Expr Symbol) (g g' : TypeIndex) (t : Ty) : Prop := e.typing g = .ok (g', t)

section Rules

variable (R : Expr Symbol → TypeIndex → TypeIndex → Ty → Prop)

/-- Trees one after the other, with their types. -/
inductive Threads : List (Expr Symbol) → TypeIndex → TypeIndex → List Ty → Prop
  | nil {g} : Threads [] g g []
  | cons {e es g g₁ g' t ts} (he : R e g g₁ t) (hes : Threads es g₁ g' ts) :
    Threads (e :: es) g g' (t :: ts)

/-- The type of a block whose statements have these types. -/
def blockType (ts : List Ty) : Ty := ts.getLastD .unit

/-- The rules of the check, one for each construct, over what is known of the trees right below. -/
inductive Rule : Expr Symbol → TypeIndex → TypeIndex → Ty → Prop
  | literal {l g} : Rule (.literal l) g g l.type
  | var {x g} : Rule (.var x) g g (g.typeOf x.id)
  | declare {x value g g₁ t} (hv : R value g g₁ t) : Rule (.declare x value) g (g₁.insert x.id t) t
  | assign {x value g g₁ t} (hv : R value g g₁ t) (hc : (g₁.typeOf x.id).compatible t) :
    Rule (.assign x value) g (g₁.insert x.id ((g₁.typeOf x.id).join t)) t
  | letIn {x value body g g₁ g' s t} (hv : R value g g₁ s) (hb : R body (g₁.insert x.id s) g' t) :
    Rule (.letIn x value body) g g' t
  | unary {op operand g g' t} (ho : R operand g g' t) (ha : accepts [op.type] t) :
    Rule (.unary op operand) g g' op.type
  | binary {op left right g g₁ g' l r t} (hl : R left g g₁ l) (hr : R right g₁ g' r)
    (ht : op.resultType? l r = some t) : Rule (.binary op left right) g g' t
  | logical {op left right g g₁ g' l r} (hl : R left g g₁ l) (hla : accepts [.bool] l)
    (hr : R right g₁ g' r) (hra : accepts [.bool] r) : Rule (.logical op left right) g g' .bool
  | block {body g g' ts} (hb : Threads R body g g' ts) : Rule (.block body) g g' (blockType ts)
  | branch {test yes g g₁ g' t ts} (ht : R test g g₁ t) (hc : t.compatible .bool)
    (hy : Threads R yes g₁ g' ts) : Rule (.cond test yes none) g g' .any
  | branches {test yes no g g₁ g₂ g' t ts us} (ht : R test g g₁ t) (hc : t.compatible .bool)
    (hy : Threads R yes g₁ g₂ ts) (hn : Threads R no g₂ g' us)
    (hs : (blockType ts).compatible (blockType us)) :
    Rule (.cond test yes (some no)) g g' ((blockType ts).join (blockType us))
  | loop {test body g g₁ g' t ts} (ht : R test g g₁ t) (hc : t.compatible .bool)
    (hb : Threads R body g₁ g' ts) : Rule (.loop test body) g g' .unit
  | count {x init test advance body g g₁ g₂ g₃ g' s t u ts} (hi : R init g g₁ s)
    (ht : R test (g₁.insert x.id s) g₂ t) (hc : t.compatible .bool) (hb : Threads R body g₂ g₃ ts)
    (ha : R advance g₃ g' u) : Rule (.count x init test advance body) g g' .unit
  | print {args g g' ts} (ha : Threads R args g g' ts) : Rule (.print args) g g' .str
  | list {elems g g' ts} (he : Threads R elems g g' ts) : Rule (.list elems) g g' .list
  | fill {value size g g₁ g' t n} (hv : R value g g₁ t) (hs : R size g₁ g' n) (hn : accepts [.num] n) :
    Rule (.fill value size) g g' .list
  | map {entries g g' ts} (he : Threads R (entries.flatMap fun kv => [kv.1, kv.2]) g g' ts) :
    Rule (.map entries) g g' .map
  | query {op target g g' t} (ht : R target g g' t) (ha : accepts op.accepted t) :
    Rule (.query op target) g g' op.resultType
  | extend {op target arg g g₁ g' t u} (hop : op ≠ .delete) (ht : R target g g₁ t) (ha : R arg g₁ g' u)
    (hl : accepts [.list] t) : Rule (.update op target arg) g g' .list
  | delete {target arg g g₁ g' t u} (ht : R target g g₁ t) (ha : R arg g₁ g' u)
    (hc : accepts [.list, .map] t) : Rule (.update .delete target arg) g g' t
  | index {target key g g₁ g' t u} (ht : R target g g₁ t) (hk : R key g₁ g' u)
    (hc : accepts [.list, .map, .str] t) : Rule (.index target key) g g' (if t = .str then .str else .any)
  | put {target key value g g₁ g₂ g' t u w} (ht : R target g g₁ t) (hk : R key g₁ g₂ u)
    (hv : R value g₂ g' w) (hc : accepts [.list, .map] t) : Rule (.put target key value) g g' t
  | concat {parts g g' ts} (hp : Threads R parts g g' ts) (hs : ∀ t ∈ ts, accepts [.str] t) :
    Rule (.concat parts) g g' .str
  | slice {target start stop step g g₁ g₂ g₃ g' t a b ts} (ht : R target g g₁ t) (hc : accepts [.str] t)
    (hs : R start g₁ g₂ a) (ha : accepts [.num] a) (hp : R stop g₂ g₃ b) (hb : accepts [.num] b)
    (hst : Threads R step.toList g₃ g' ts) (hn : ∀ t ∈ ts, accepts [.num] t) :
    Rule (.slice target start stop step) g g' .str
  | function {name params body ret g g₁ g₂ ts r} (hb : Threads R body (bodyIndex name params g) g₁ ts)
    (hr : R ret g₁ g₂ r) : Rule (.function name params body ret) g
      (g.insert name.id (.function params.length r)) (.function params.length r)
  | call {callee args g g' ts r} (ha : Threads R args g g' ts)
    (hf : g'.typeOf callee.id = .function args.length r) : Rule (.call callee args) g g' r
  | callAny {callee args g g' ts} (ha : Threads R args g g' ts) (hf : g'.typeOf callee.id = .any) :
    Rule (.call callee args) g g' .any

end Rules

section Lists

variable {es fs : List (Expr Symbol)} {g g₁ g' : TypeIndex} {s t : Ty} {ts us : List Ty}

/-- What holds of `unit` and of the types of the statements holds of the type of the block. -/
theorem blockType_of_forall {P : Ty → Prop} (hunit : P .unit) (h : ∀ t ∈ ts, P t) : P (blockType ts) := by
  unfold blockType
  rcases List.eq_nil_or_concat ts with rfl | ⟨us, t, rfl⟩
  · exact hunit
  · simpa using h t (by simp)

theorem threads_of_typingBlock {last : Ty} (h : typingBlock last es g = .ok (g', t)) :
    ∃ ts, Threads Passes es g g' ts ∧ t = ts.getLastD last := by
  induction es generalizing g last with
  | nil =>
    cases h
    exact ⟨[], .nil, rfl⟩
  | cons e es ih =>
    obtain ⟨⟨g₁, s⟩, he, h⟩ := of_bind_ok h
    obtain ⟨ts, hes, rfl⟩ := ih h
    exact ⟨s :: ts, .cons he hes, by rw [List.getLastD_cons]⟩

theorem threads_of_typingAll (h : typingAll es g = .ok g') : ∃ ts, Threads Passes es g g' ts := by
  induction es generalizing g with
  | nil =>
    cases h
    exact ⟨[], .nil⟩
  | cons e es ih =>
    obtain ⟨⟨g₁, s⟩, he, h⟩ := of_bind_ok h
    obtain ⟨ts, hes⟩ := ih h
    exact ⟨s :: ts, .cons he hes⟩

theorem threads_of_typingParts (h : typingParts es g = .ok g') :
    ∃ ts, Threads Passes es g g' ts ∧ ∀ t ∈ ts, accepts [.str] t := by
  induction es generalizing g with
  | nil =>
    cases h
    exact ⟨[], .nil, fun _ h => by cases h⟩
  | cons e es ih =>
    obtain ⟨⟨g₁, s⟩, he, h⟩ := of_bind_ok h
    obtain ⟨u, hs, h⟩ := of_bind_ok h
    obtain ⟨ts, hes, hts⟩ := ih h
    exact ⟨s :: ts, .cons he hes, List.forall_mem_cons.mpr ⟨requireOperand_eq_ok hs, hts⟩⟩

theorem threads_of_typingEntries {es : List (Expr Symbol × Expr Symbol)} (h : typingEntries es g = .ok g') :
    ∃ ts, Threads Passes (es.flatMap fun kv => [kv.1, kv.2]) g g' ts := by
  induction es generalizing g with
  | nil =>
    cases h
    exact ⟨[], .nil⟩
  | cons kv es ih =>
    obtain ⟨⟨g₁, s⟩, hk, h⟩ := of_bind_ok h
    obtain ⟨⟨g₂, t⟩, hv, h⟩ := of_bind_ok h
    obtain ⟨ts, hes⟩ := ih h
    exact ⟨s :: t :: ts, .cons hk (.cons hv hes)⟩

theorem threads_of_typingStep {step : Option (Expr Symbol)} (h : typingStep step g = .ok g') :
    ∃ ts, Threads Passes step.toList g g' ts ∧ ∀ t ∈ ts, accepts [.num] t := by
  cases step with
  | none =>
    cases h
    exact ⟨[], .nil, fun _ h => by cases h⟩
  | some e =>
    obtain ⟨⟨g₁, s⟩, he, h⟩ := of_bind_ok h
    obtain ⟨u, hs, h⟩ := of_bind_ok h
    cases h
    exact ⟨[s], .cons he .nil, by simpa using requireOperand_eq_ok hs⟩

end Lists

/-- **What passes the check follows the rules.** -/
theorem rule_of_typing {e : Expr Symbol} {g g' : TypeIndex} {t : Ty} (h : e.typing g = .ok (g', t)) :
    Rule Passes e g g' t := by
  cases e with
  | literal l => cases h; exact .literal
  | var x => cases h; exact .var
  | declare x value =>
    obtain ⟨⟨g₁, s⟩, hv, h⟩ := of_bind_ok h
    cases h
    exact .declare hv
  | assign x value =>
    obtain ⟨⟨g₁, s⟩, hv, h⟩ := of_bind_ok h
    dsimp only at h
    split at h
    · next hc =>
      cases h
      exact .assign hv hc
    · cases h
  | letIn x value body =>
    obtain ⟨⟨g₁, s⟩, hv, h⟩ := of_bind_ok h
    exact .letIn hv h
  | unary op operand =>
    obtain ⟨⟨g₁, s⟩, ho, h⟩ := of_bind_ok h
    obtain ⟨u, ha, h⟩ := of_bind_ok h
    cases h
    exact .unary ho (requireOperand_eq_ok ha)
  | binary op left right =>
    obtain ⟨⟨g₁, l⟩, hl, h⟩ := of_bind_ok h
    obtain ⟨⟨g₂, r⟩, hr, h⟩ := of_bind_ok h
    obtain ⟨u, ht, h⟩ := of_bind_ok h
    cases h
    exact .binary hl hr (BinaryOp.resultType_eq_ok ht)
  | logical op left right =>
    obtain ⟨⟨g₁, l⟩, hl, h⟩ := of_bind_ok h
    obtain ⟨u, hla, h⟩ := of_bind_ok h
    obtain ⟨⟨g₂, r⟩, hr, h⟩ := of_bind_ok h
    obtain ⟨u', hra, h⟩ := of_bind_ok h
    cases h
    exact .logical hl (requireOperand_eq_ok hla) hr (requireOperand_eq_ok hra)
  | block body =>
    obtain ⟨ts, hb, rfl⟩ := threads_of_typingBlock h
    exact .block hb
  | cond test yes no =>
    obtain ⟨⟨g₁, s⟩, ht, h⟩ := of_bind_ok h
    obtain ⟨u, hc, h⟩ := of_bind_ok h
    obtain ⟨⟨g₂, y⟩, hyes, h⟩ := of_bind_ok h
    obtain ⟨ts, hy, rfl⟩ := threads_of_typingBlock hyes
    cases no with
    | none =>
      cases h
      exact .branch ht (requireCondition_eq_ok hc) hy
    | some no =>
      obtain ⟨⟨g₃, n⟩, hno, h⟩ := of_bind_ok h
      obtain ⟨us, hn, rfl⟩ := threads_of_typingBlock hno
      dsimp only at h
      split at h
      · next hs =>
        cases h
        exact .branches ht (requireCondition_eq_ok hc) hy hn hs
      · cases h
  | loop test body =>
    obtain ⟨⟨g₁, s⟩, ht, h⟩ := of_bind_ok h
    obtain ⟨u, hc, h⟩ := of_bind_ok h
    obtain ⟨⟨g₂, y⟩, hb, h⟩ := of_bind_ok h
    obtain ⟨ts, hb, -⟩ := threads_of_typingBlock hb
    cases h
    exact .loop ht (requireCondition_eq_ok hc) hb
  | count x init test advance body =>
    obtain ⟨⟨g₁, s⟩, hi, h⟩ := of_bind_ok h
    obtain ⟨⟨g₂, c⟩, ht, h⟩ := of_bind_ok h
    obtain ⟨u, hc, h⟩ := of_bind_ok h
    obtain ⟨⟨g₃, y⟩, hb, h⟩ := of_bind_ok h
    obtain ⟨ts, hb, -⟩ := threads_of_typingBlock hb
    obtain ⟨⟨g₄, a⟩, ha, h⟩ := of_bind_ok h
    cases h
    exact .count hi ht (requireCondition_eq_ok hc) hb ha
  | print args =>
    obtain ⟨g₁, ha, h⟩ := of_bind_ok h
    obtain ⟨ts, ha⟩ := threads_of_typingAll ha
    cases h
    exact .print ha
  | list elems =>
    obtain ⟨g₁, he, h⟩ := of_bind_ok h
    obtain ⟨ts, he⟩ := threads_of_typingAll he
    cases h
    exact .list he
  | fill value size =>
    obtain ⟨⟨g₁, t⟩, hv, h⟩ := of_bind_ok h
    obtain ⟨⟨g₂, n⟩, hs, h⟩ := of_bind_ok h
    obtain ⟨u, hn, h⟩ := of_bind_ok h
    cases h
    exact .fill hv hs (requireOperand_eq_ok hn)
  | map entries =>
    obtain ⟨g₁, he, h⟩ := of_bind_ok h
    obtain ⟨ts, he⟩ := threads_of_typingEntries he
    cases h
    exact .map he
  | query op target =>
    obtain ⟨⟨g₁, t⟩, ht, h⟩ := of_bind_ok h
    obtain ⟨u, ha, h⟩ := of_bind_ok h
    cases h
    exact .query ht (requireOperand_eq_ok ha)
  | update op target arg =>
    obtain ⟨⟨g₁, t⟩, ht, h⟩ := of_bind_ok h
    obtain ⟨⟨g₂, a⟩, ha, h⟩ := of_bind_ok h
    cases op with
    | delete =>
      obtain ⟨u, hc, h⟩ := of_bind_ok h
      cases h
      exact .delete ht ha (requireOperand_eq_ok hc)
    | _ =>
      obtain ⟨u, hc, h⟩ := of_bind_ok h
      cases h
      exact .extend (by simp) ht ha (requireOperand_eq_ok hc)
  | index target key =>
    obtain ⟨⟨g₁, t⟩, ht, h⟩ := of_bind_ok h
    obtain ⟨⟨g₂, k⟩, hk, h⟩ := of_bind_ok h
    obtain ⟨u, hc, h⟩ := of_bind_ok h
    cases h
    exact .index ht hk (requireOperand_eq_ok hc)
  | put target key value =>
    obtain ⟨⟨g₁, t⟩, ht, h⟩ := of_bind_ok h
    obtain ⟨⟨g₂, k⟩, hk, h⟩ := of_bind_ok h
    obtain ⟨⟨g₃, w⟩, hv, h⟩ := of_bind_ok h
    obtain ⟨u, hc, h⟩ := of_bind_ok h
    cases h
    exact .put ht hk hv (requireOperand_eq_ok hc)
  | concat parts =>
    obtain ⟨g₁, hp, h⟩ := of_bind_ok h
    obtain ⟨ts, hp, hs⟩ := threads_of_typingParts hp
    cases h
    exact .concat hp hs
  | slice target start stop step =>
    obtain ⟨⟨g₁, t⟩, ht, h⟩ := of_bind_ok h
    obtain ⟨u, hc, h⟩ := of_bind_ok h
    obtain ⟨⟨g₂, a⟩, hs, h⟩ := of_bind_ok h
    obtain ⟨u', ha, h⟩ := of_bind_ok h
    obtain ⟨⟨g₃, b⟩, hp, h⟩ := of_bind_ok h
    obtain ⟨u'', hb, h⟩ := of_bind_ok h
    obtain ⟨g₄, hst, h⟩ := of_bind_ok h
    obtain ⟨ts, hst, hn⟩ := threads_of_typingStep hst
    cases h
    exact .slice ht (requireOperand_eq_ok hc) hs (requireOperand_eq_ok ha) hp (requireOperand_eq_ok hb) hst hn
  | function name params body ret =>
    obtain ⟨⟨g₁, s⟩, hb, h⟩ := of_bind_ok h
    obtain ⟨ts, hb, -⟩ := threads_of_typingBlock hb
    obtain ⟨⟨g₂, r⟩, hr, h⟩ := of_bind_ok h
    cases h
    exact .function hb hr
  | call callee args =>
    obtain ⟨g₁, ha, h⟩ := of_bind_ok h
    obtain ⟨ts, ha⟩ := threads_of_typingAll ha
    split at h
    · next arity ret hf =>
      split at h
      · next harity =>
        subst harity
        cases h
        exact .call ha hf
      · cases h
    · next hf =>
      cases h
      exact .callAny ha hf
    · cases h

end Expr

/-! ## What holds at every visit -/

namespace Expr

variable {R : Expr Symbol → TypeIndex → TypeIndex → Ty → Prop} {e c : Expr Symbol}
  {es fs : List (Expr Symbol)} {g g₁ g' : TypeIndex} {t : Ty} {ts us : List Ty}

theorem Passes.after_eq (h : Passes e g g' t) : e.after g = g' := Expr.after_eq h

theorem Passes.typeAt_eq (h : Passes e g g' t) : e.typeAt g = t := Expr.typeAt_eq h

namespace Threads

theorem afterAll_eq (h : Threads Passes es g g' ts) : afterAll es g = g' := by
  induction h with
  | nil => rfl
  | cons he _ ih => rw [afterAll_cons, he.after_eq, ih]

/-- What the visits of the trees satisfy can be added. -/
theorem imp (h : Threads Passes es g g' ts) (hR : ∀ w ∈ inTurn g es, ∀ g' t,
    Passes w.expr w.index g' t → R w.expr w.index g' t) : Threads R es g g' ts := by
  induction h with
  | nil => exact .nil
  | cons he _ ih =>
    obtain ⟨hhead, htail⟩ := List.forall_mem_cons.mp hR
    rw [he.after_eq] at htail
    exact .cons (hhead _ _ he) (ih htail)

theorem mono {S : Expr Symbol → TypeIndex → TypeIndex → Ty → Prop} (h : Threads R es g g' ts)
    (hRS : ∀ {e g g' t}, R e g g' t → S e g g' t) : Threads S es g g' ts := by
  induction h with
  | nil => exact .nil
  | cons he _ ih => exact .cons (hRS he) ih

theorem append (h : Threads R es g g₁ ts) (h' : Threads R fs g₁ g' us) :
    Threads R (es ++ fs) g g' (ts ++ us) := by
  induction h with
  | nil => exact h'
  | cons he _ ih => exact .cons he (ih h')

end Threads

/-- What the visits of the trees right below satisfy can be added to a rule. -/
theorem Rule.imp (h : Rule Passes e g g' t) (hR : ∀ w ∈ (Visit.mk e g).parts, ∀ g' t,
    Passes w.expr w.index g' t → R w.expr w.index g' t) : Rule R e g g' t := by
  have hseq : ∀ {es g g₁ ts}, Threads Passes es g g₁ ts → (∀ w ∈ inTurn g es, w ∈ (Visit.mk e _).parts) →
      Threads R es g g₁ ts := fun hes hmem => hes.imp fun w hw => hR w (hmem w hw)
  cases h with
  | literal => exact .literal
  | var => exact .var
  | declare hv => exact .declare (hR ⟨_, _⟩ (by simp [Visit.parts, children, inTurn]) _ _ hv)
  | assign hv hc => exact .assign (hR ⟨_, _⟩ (by simp [Visit.parts, children, inTurn]) _ _ hv) hc
  | letIn hv hb =>
    exact .letIn (hR ⟨_, _⟩ (by simp [Visit.parts]) _ _ hv)
      (hR ⟨_, IdMap.insert _ _ _⟩ (by simp [Visit.parts, hv.after_eq, hv.typeAt_eq]) _ _ hb)
  | unary ho ha => exact .unary (hR ⟨_, _⟩ (by simp [Visit.parts, children, inTurn]) _ _ ho) ha
  | binary hl hr ht =>
    exact .binary (hR ⟨_, _⟩ (by simp [Visit.parts, children, inTurn]) _ _ hl)
      (hR ⟨_, _⟩ (by simp [Visit.parts, children, inTurn, hl.after_eq]) _ _ hr) ht
  | logical hl hla hr hra =>
    exact .logical (hR ⟨_, _⟩ (by simp [Visit.parts, children, inTurn]) _ _ hl) hla
      (hR ⟨_, _⟩ (by simp [Visit.parts, children, inTurn, hl.after_eq]) _ _ hr) hra
  | block hb => exact .block (hseq hb fun w hw => hw)
  | branch ht hc hy =>
    exact .branch (hR ⟨_, _⟩ (by simp [Visit.parts, children, inTurn]) _ _ ht) hc
      (hseq hy fun w hw => by simp [Visit.parts, children, inTurn, ht.after_eq, hw])
  | branches ht hc hy hn hs =>
    exact .branches (hR ⟨_, _⟩ (by simp [Visit.parts, children, inTurn]) _ _ ht) hc
      (hseq hy fun w hw => by
        simp [Visit.parts, children, inTurn, inTurn_append, ht.after_eq, hw])
      (hseq hn fun w hw => by
        simp [Visit.parts, children, inTurn, inTurn_append, ht.after_eq, hy.afterAll_eq, hw]) hs
  | loop ht hc hb =>
    exact .loop (hR ⟨_, _⟩ (by simp [Visit.parts, children, inTurn]) _ _ ht) hc
      (hseq hb fun w hw => by simp [Visit.parts, children, inTurn, ht.after_eq, hw])
  | count hi ht hc hb ha =>
    exact .count (hR ⟨_, _⟩ (by simp [Visit.parts]) _ _ hi)
      (hR ⟨_, IdMap.insert _ _ _⟩ (by simp [Visit.parts, inTurn, hi.after_eq, hi.typeAt_eq]) _ _ ht) hc
      (hseq hb fun w hw => by
        simp [Visit.parts, inTurn, inTurn_append, hi.after_eq, hi.typeAt_eq, ht.after_eq, hw])
      (hR ⟨_, _⟩ (by simp [Visit.parts, inTurn, inTurn_append, hi.after_eq, hi.typeAt_eq, ht.after_eq,
        hb.afterAll_eq]) _ _ ha)
  | print ha => exact .print (hseq ha fun w hw => hw)
  | list he => exact .list (hseq he fun w hw => hw)
  | fill hv hs hn =>
    exact .fill (hR ⟨_, _⟩ (by simp [Visit.parts, children, inTurn]) _ _ hv)
      (hR ⟨_, _⟩ (by simp [Visit.parts, children, inTurn, hv.after_eq]) _ _ hs) hn
  | map he => exact .map (hseq he fun w hw => hw)
  | query ht ha => exact .query (hR ⟨_, _⟩ (by simp [Visit.parts, children, inTurn]) _ _ ht) ha
  | extend hop ht ha hl =>
    exact .extend hop (hR ⟨_, _⟩ (by simp [Visit.parts, children, inTurn]) _ _ ht)
      (hR ⟨_, _⟩ (by simp [Visit.parts, children, inTurn, ht.after_eq]) _ _ ha) hl
  | delete ht ha hc =>
    exact .delete (hR ⟨_, _⟩ (by simp [Visit.parts, children, inTurn]) _ _ ht)
      (hR ⟨_, _⟩ (by simp [Visit.parts, children, inTurn, ht.after_eq]) _ _ ha) hc
  | index ht hk hc =>
    exact .index (hR ⟨_, _⟩ (by simp [Visit.parts, children, inTurn]) _ _ ht)
      (hR ⟨_, _⟩ (by simp [Visit.parts, children, inTurn, ht.after_eq]) _ _ hk) hc
  | put ht hk hv hc =>
    exact .put (hR ⟨_, _⟩ (by simp [Visit.parts, children, inTurn]) _ _ ht)
      (hR ⟨_, _⟩ (by simp [Visit.parts, children, inTurn, ht.after_eq]) _ _ hk)
      (hR ⟨_, _⟩ (by simp [Visit.parts, children, inTurn, ht.after_eq, hk.after_eq]) _ _ hv) hc
  | concat hp hs => exact .concat (hseq hp fun w hw => hw) hs
  | slice ht hc hs ha hp hb hst hn =>
    exact .slice (hR ⟨_, _⟩ (by simp [Visit.parts, children, inTurn]) _ _ ht) hc
      (hR ⟨_, _⟩ (by simp [Visit.parts, children, inTurn, ht.after_eq]) _ _ hs) ha
      (hR ⟨_, _⟩ (by simp [Visit.parts, children, inTurn, ht.after_eq, hs.after_eq]) _ _ hp) hb
      (hseq hst fun w hw => by
        simp [Visit.parts, children, inTurn, ht.after_eq, hs.after_eq, hp.after_eq, hw]) hn
  | function hb hr =>
    exact .function (hseq hb fun w hw => by simp [Visit.parts, inTurn_append, hw])
      (hR ⟨_, _⟩ (by simp [Visit.parts, inTurn, inTurn_append, hb.afterAll_eq]) _ _ hr)
  | call ha hf => exact .call (hseq ha fun w hw => hw) hf
  | callAny ha hf => exact .callAny (hseq ha fun w hw => hw) hf

end Expr
end ExactScript
