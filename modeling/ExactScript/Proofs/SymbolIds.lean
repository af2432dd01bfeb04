import ExactScript.Proofs.OutlineResolution

/-!
# Ids over the life of a resolver

A resolver can be given one program after the other, and single expressions in between. Some of them it
rejects, perhaps in the middle of a function, but it keeps what they declared until then. All the same an id
is given out once: the ids count the declarations that resolution has come to, in accepted and in rejected
requests, and a reference gets the symbol of one of these.

The invariant is that everything bound was declared before (`Known`). A part of resolution *issues* the names
of a list when it numbers them in order, all of them if it succeeds and the first few if it fails.

## Contents
* `Occurrence`, `Outline.events`: declarations and references in the order of resolution;
* `numbered`, symbols with consecutive ids;
* `Resolver.Issues` and its rules, `issues_outline`;
* `Resolver.Request`, `Exchange`, `session`: the life of a resolver, and `Exchange.made`;
* `ids_never_reused`, the theorem.
-/

namespace ExactScript

/-! ## Occurrences -/

/-- A place at which a name stands. -/
inductive Occurrence (β : Type) where
  | declares (x : β)
  | refers (x : β)

namespace Occurrence

variable {β : Type}

def declared? : Occurrence β → Option β
  | declares x => some x
  | refers _ => none

/-- What is declared, in order. -/
def declared (es : List (Occurrence β)) : List β := es.filterMap declared?

theorem declared_append (es fs : List (Occurrence β)) : declared (es ++ fs) = declared es ++ declared fs :=
  List.filterMap_append

end Occurrence

/-- Every place at which a name stands, in the order of resolution. -/
def Outline.events {β : Type} : Outline β → List (Occurrence β)
  | done => []
  | refer x o => .refers x :: o.events
  | declare x o => .declares x :: o.events
  | scope body o => body.events ++ o.events
  | function x body o => .declares x :: (body.events ++ o.events)

/-- Everything that is declared, in the order of resolution. -/
def Outline.declared {β : Type} (o : Outline β) : List β := Occurrence.declared o.events

/-- Every reference is to a symbol of `past`, or to one that is declared before it in the list. -/
def Backed (past : List Symbol) (es : List (Occurrence Symbol)) : Prop :=
  ∀ before s after, es = before ++ .refers s :: after → s ∈ past ++ Occurrence.declared before

/-- It is enough that every reference is to a symbol of `past`. -/
theorem backed_of_refers {past : List Symbol} {es : List (Occurrence Symbol)}
    (hes : ∀ s, .refers s ∈ es → s ∈ past) : Backed past es := by
  intro before s after heq
  refine List.mem_append_left _ (hes s ?_)
  rw [heq]
  exact List.mem_append_right _ List.mem_cons_self

theorem backed_append {past : List Symbol} {es fs : List (Occurrence Symbol)} (h : Backed past es)
    (h' : Backed (past ++ Occurrence.declared es) fs) : Backed past (es ++ fs) := by
  intro before s after heq
  rcases List.append_eq_append_iff.mp heq with ⟨more, rfl, hfs⟩ | ⟨more, hes, hrest⟩
  · -- the reference is in the second list
    rw [Occurrence.declared_append, ← List.append_assoc]
    exact h' more s after hfs
  · cases more with
    | nil =>
      rw [List.append_nil] at hes
      subst hes
      have hmem := h' [] s after hrest.symm
      rwa [show Occurrence.declared [] = ([] : List Symbol) from rfl, List.append_nil] at hmem
    | cons e more =>
      obtain ⟨rfl, rfl⟩ := List.cons.inj hrest
      exact h before s more hes

/-! ## Numbered names -/

/-- The names as symbols, with consecutive ids from `start` on. -/
def numbered (start : Nat) : List String → List Symbol
  | [] => []
  | x :: xs => ⟨x, start⟩ :: numbered (start + 1) xs

theorem numbered_append (start : Nat) (xs ys : List String) :
    numbered start (xs ++ ys) = numbered start xs ++ numbered (start + xs.length) ys := by
  induction xs generalizing start with
  | nil => rfl
  | cons x xs ih =>
    show _ :: numbered (start + 1) (xs ++ ys) = _
    rw [ih, List.length_cons, Nat.add_right_comm, Nat.add_assoc]
    rfl

theorem map_id_numbered (start : Nat) (xs : List String) :
    (numbered start xs).map Symbol.id = List.range' start xs.length := by
  induction xs generalizing start with
  | nil => rfl
  | cons x xs ih => rw [numbered, List.map_cons, ih, List.length_cons, List.range'_succ]

theorem length_numbered (start : Nat) (xs : List String) : (numbered start xs).length = xs.length := by
  rw [← List.length_map Symbol.id, map_id_numbered, List.length_range']

/-! ## Parts of resolution -/

theorem Scopes.mem_values_of_closeScope {κ ν : Type} {s : Scopes κ ν} {v : ν}
    (h : v ∈ s.closeScope.2.values) : v ∈ s.values := by
  obtain ⟨inner, outermost⟩ := s
  cases inner with
  | nil => exact h
  | cons scope rest =>
    rw [values, toList, List.cons_append, List.flatMap_cons]
    exact List.mem_append_right _ h

namespace Resolver

variable {α β : Type} {r : Resolver} {past : List Symbol}

/-- Whatever is bound was declared in the past. -/
def Known (past : List Symbol) (r : Resolver) : Prop := ∀ b ∈ r.bindings, b.symbol ∈ past

theorem Known.declaring {s : Symbol} (h : Known past r) (hs : r.Admissible s) :
    Known (past ++ [s]) (r.declaring s) := by
  intro b hb
  rw [mem_bindings_declaring hs] at hb
  rcases hb with rfl | hb
  · exact List.mem_append_right _ (List.mem_singleton.mpr rfl)
  · exact List.mem_append_left _ (h b hb)

theorem Known.opened (h : Known past r) : Known past r.opened := by
  intro b hb
  rw [bindings_opened] at hb
  exact h b hb

theorem Known.closed (h : Known past r) : Known past r.closed :=
  fun b hb => h b (Scopes.mem_values_of_closeScope hb)

/-- The part gives consecutive ids to `names`: to all of them when it succeeds, with occurrences in its
result as `P` says, and to the first ones when it fails. -/
def Issues (f : Resolve α) (names : List String) (P : α → List (Occurrence Symbol) → Prop) : Prop :=
  ∀ r past, Known past r →
    (∃ a r' es, f r = .ok a r' ∧ P a es ∧ Occurrence.declared es = numbered r.nextId names ∧
      Backed past es ∧ r'.nextId = r.nextId + names.length ∧
      Known (past ++ numbered r.nextId names) r') ∨
    ∃ e r' made, f r = .error e r' ∧ made <+: names ∧ r'.nextId = r.nextId + made.length ∧
      Known (past ++ numbered r.nextId made) r'

namespace Issues

variable {f : Resolve α} {k : α → Resolve β} {names names' : List String}
  {P : α → List (Occurrence Symbol) → Prop} {Q : β → List (Occurrence Symbol) → Prop}

theorem pure {a : α} (h : P a []) : Issues (pure a) [] P := by
  intro r past hr
  refine .inl ⟨a, r, [], rfl, h, rfl, backed_of_refers ?_, rfl, ?_⟩
  · intro s hs
    cases hs
  · rwa [numbered, List.append_nil]

theorem bind (h : Issues f names P)
    (hk : ∀ a es, P a es → Issues (k a) names' fun b fs => Q b (es ++ fs)) :
    Issues (f >>= k) (names ++ names') Q := by
  intro r past hr
  rcases h r past hr with ⟨a, r', es, hf, hp, hes, hbacked, hnext, hknown⟩ |
    ⟨e, r', made, hf, hmade, hnext, hknown⟩
  · rcases hk a es hp r' _ hknown with ⟨b, r'', fs, hb, hq, hfs, hbacked', hnext', hknown'⟩ |
      ⟨e, r'', made, hb, hmade, hnext', hknown'⟩
    · refine .inl ⟨b, r'', es ++ fs, (bind_ok hf).trans hb, hq, ?_, ?_, ?_, ?_⟩
      · rw [Occurrence.declared_append, hes, hfs, hnext, numbered_append]
      · refine backed_append hbacked ?_
        rwa [hes]
      · rw [hnext', hnext, List.length_append, Nat.add_assoc]
      · rwa [numbered_append, ← List.append_assoc, ← hnext]
    · -- the second part has failed, and the first one has issued all of its names
      refine .inr ⟨e, r'', names ++ made, (bind_ok hf).trans hb, ?_, ?_, ?_⟩
      · exact (List.prefix_append_right_inj names).mpr hmade
      · rw [hnext', hnext, List.length_append, Nat.add_assoc]
      · rwa [numbered_append, ← List.append_assoc, ← hnext]
  · exact .inr ⟨e, r', made, bind_fails hf, hmade.trans (List.prefix_append _ _), hnext, hknown⟩

/-- The result is only put together. -/
theorem map {g : α → β} (h : Issues f names P) (hg : ∀ a es, P a es → Q (g a) es) :
    Issues (f >>= fun a => Pure.pure (g a)) names Q := by
  have hbind : Issues (f >>= fun a => Pure.pure (g a)) (names ++ []) Q :=
    h.bind fun a es hp => .pure (by rw [List.append_nil]; exact hg a es hp)
  rwa [List.append_nil] at hbind

theorem reference (x : String) : Issues (reference x) [] fun s es => es = [.refers s] := by
  intro r past hr
  have hnothing : Known (past ++ numbered r.nextId []) r := by rwa [numbered, List.append_nil]
  rcases reference_cases x r with ⟨b, hb, h⟩ | ⟨e, h⟩
  · refine .inl ⟨b.symbol, r, _, h, rfl, rfl, backed_of_refers ?_, rfl, hnothing⟩
    intro s hs
    cases List.mem_singleton.mp hs
    exact hr b (Scopes.mem_values_of_get? hb)
  · exact .inr ⟨e, r, [], h, List.prefix_refl _, rfl, hnothing⟩

theorem declare (x : String) : Issues (declare x) [x] fun s es => es = [.declares s] := by
  intro r past hr
  rcases declare_cases x r with ⟨hfree, h⟩ | ⟨e, h⟩
  · refine .inl ⟨⟨x, r.nextId⟩, _, _, h, rfl, rfl, backed_of_refers ?_, rfl, ?_⟩
    · intro s hs
      cases List.mem_singleton.mp hs
    · exact hr.declaring ⟨Nat.le_refl _, hfree⟩
  · refine .inr ⟨e, r, [], h, List.nil_prefix, rfl, ?_⟩
    rwa [numbered, List.append_nil]

/-- Ids that were given out in a scope are not given out again. -/
theorem inScope (h : Issues f names P) : Issues (inScope f) names P := by
  intro r past hr
  rcases h r.opened past hr.opened with ⟨a, r', es, hf, hp, hes, hbacked, hnext, hknown⟩ |
    ⟨e, r', made, hf, hmade, hnext, hknown⟩
  · exact .inl ⟨a, r'.closed, es, inScope_ok hf, hp, hes, hbacked, hnext, hknown.closed⟩
  · exact .inr ⟨e, r'.closed, made, inScope_fails hf, hmade, hnext, hknown.closed⟩

theorem inFunction {s : Symbol} (h : Issues f names P) : Issues (inFunction s f) names P := by
  intro r past hr
  rcases h (r.entering s) past hr with ⟨a, r', es, hf, hp, hes, hbacked, hnext, hknown⟩ |
    ⟨e, r', made, hf, hmade, hnext, hknown⟩
  · exact .inl ⟨a, r'.leaving, es, inFunction_ok hf, hp, hes, hbacked, hnext, hknown⟩
  · exact .inr ⟨e, r'.leaving, made, inFunction_fails hf, hmade, hnext, hknown⟩

end Issues

/-- **Along an outline**: its names get consecutive ids, in order. -/
theorem issues_outline (o : Outline String) : Issues o.resolve o.declared fun t es => t.events = es := by
  induction o with
  | done => exact .pure rfl
  | refer x o ih =>
    refine (Issues.reference x).bind fun s es h₁ => ih.map fun t fs h₂ => ?_
    rw [h₁, ← h₂]
    rfl
  | declare x o ih =>
    refine (Issues.declare x).bind fun s es h₁ => ih.map fun t fs h₂ => ?_
    rw [h₁, ← h₂]
    rfl
  | scope body o hbody ih =>
    show Issues _ (Occurrence.declared (body.events ++ o.events)) _
    rw [Occurrence.declared_append]
    refine hbody.inScope.bind fun b es h₁ => ih.map fun t fs h₂ => ?_
    rw [← h₁, ← h₂]
    rfl
  | function x body o hbody ih =>
    show Issues _ ([x] ++ Occurrence.declared (body.events ++ o.events)) _
    rw [Occurrence.declared_append]
    refine (Issues.declare x).bind fun s es h₁ => hbody.inScope.inFunction.bind fun b fs h₂ =>
      ih.map fun t gs h₃ => ?_
    rw [h₁, ← h₂, ← h₃]
    rfl

/-! ## The life of a resolver -/

/-- What is given to a resolver. -/
inductive Request where
  | program (tree : List (Expr String))
  | expression (e : Expr String)

namespace Request

def outline : Request → Outline String
  | program tree => Expr.outlineOfAll tree
  | expression e => e.outline

/-- The resolution of a request. Its result is a list of trees, a single one for an expression. -/
def resolve : Request → Resolve (List (Expr Symbol))
  | program tree => Expr.resolveAll tree
  | expression e => do return [← e.resolve]

theorem resolve_outline (q : Request) :
    q.outline.resolve = q.resolve >>= fun tree => Pure.pure (Expr.outlineOfAll tree) := by
  cases q with
  | program tree => exact Expr.resolve_outlineOfAll tree
  | expression e =>
    simp only [outline, resolve, e.resolve_outline, Expr.outlineOfAll, Outline.append_done, bind_assoc,
      pure_bind]

end Request

/-- A request with its answer, and the states before and after it. -/
structure Exchange where
  request : Request
  before : Resolver
  result : Except ResolveError (List (Expr Symbol))
  after : Resolver

def exchange (r : Resolver) (q : Request) : Exchange :=
  match q.resolve r with
  | .ok tree r' => ⟨q, r, .ok tree, r'⟩
  | .error e r' => ⟨q, r, .error e, r'⟩

/-- One request after the other, accepted or not. -/
def session (r : Resolver) : List Request → List Exchange
  | [] => []
  | q :: qs => exchange r q :: session (exchange r q).after qs

namespace Exchange

/-- What the request has declared. A rejected request declares names too, up to the place of its error, and
each of them has moved the counter by one. -/
def made (x : Exchange) : List Symbol :=
  numbered x.before.nextId (x.request.outline.declared.take (x.after.nextId - x.before.nextId))

/-- What is declared in the trees of an accepted request. -/
def accepted (x : Exchange) : List Symbol :=
  match x.result with
  | .ok tree => (Expr.outlineOfAll tree).declared
  | .error _ => []

end Exchange

/-- What one exchange does to the counter, the bindings and the symbols of its trees. -/
structure Exchange.Orderly (past : List Symbol) (x : Exchange) : Prop where
  nextId : x.after.nextId = x.before.nextId + x.made.length
  known : Known (past ++ x.made) x.after
  declared : ∀ tree, x.result = .ok tree → (Expr.outlineOfAll tree).declared = x.made
  backed : ∀ tree, x.result = .ok tree → Backed past (Expr.outlineOfAll tree).events

theorem orderly_exchange (h : Known past r) (q : Request) : (exchange r q).Orderly past := by
  have hissues := issues_outline q.outline r past h
  rw [q.resolve_outline] at hissues
  cases hq : q.resolve r with
  | ok tree r' =>
    have hexchange : exchange r q = ⟨q, r, .ok tree, r'⟩ := by rw [exchange, hq]
    rw [bind_ok hq] at hissues
    rw [hexchange]
    rcases hissues with ⟨t, r'', es, ht, hes, hdeclared, hbacked, hnext, hknown⟩ | ⟨e, r'', made, ht, -⟩
    · cases ht
      have hmade : (⟨q, r, .ok tree, r'⟩ : Exchange).made = numbered r.nextId q.outline.declared := by
        show numbered r.nextId (q.outline.declared.take (r'.nextId - r.nextId)) = _
        rw [hnext, Nat.add_sub_cancel_left, List.take_length]
      refine ⟨?_, ?_, ?_, ?_⟩
      · rw [hmade, length_numbered]
        exact hnext
      · rw [hmade]
        exact hknown
      · intro tree' htree
        cases htree
        rw [hmade, ← hdeclared, ← hes]
        rfl
      · intro tree' htree
        cases htree
        rw [hes]
        exact hbacked
    · cases ht
  | error e r' =>
    have hexchange : exchange r q = ⟨q, r, .error e, r'⟩ := by rw [exchange, hq]
    rw [bind_fails hq] at hissues
    rw [hexchange]
    rcases hissues with ⟨t, r'', es, ht, -⟩ | ⟨e', r'', made, ht, hprefix, hnext, hknown⟩
    · cases ht
    · cases ht
      have hmade : (⟨q, r, .error e, r'⟩ : Exchange).made = numbered r.nextId made := by
        show numbered r.nextId (q.outline.declared.take (r'.nextId - r.nextId)) = _
        rw [hnext, Nat.add_sub_cancel_left, ← List.prefix_iff_eq_take.mp hprefix]
      refine ⟨?_, ?_, ?_, ?_⟩
      · rw [hmade, length_numbered]
        exact hnext
      · rw [hmade]
        exact hknown
      · intro tree' htree
        cases htree
      · intro tree' htree
        cases htree

theorem before_exchange (r : Resolver) (q : Request) : (exchange r q).before = r := by
  unfold exchange
  cases q.resolve r <;> rfl

/-- Every exchange of a session is orderly, with all earlier declarations in its past. -/
theorem orderly_session (h : Known past r) {qs : List Request} {earlier later : List Exchange}
    {x : Exchange} (hx : session r qs = earlier ++ x :: later) :
    x.Orderly (past ++ earlier.flatMap Exchange.made) := by
  induction qs generalizing r past earlier with
  | nil => exact absurd hx.symm (List.append_ne_nil_of_right_ne_nil _ (List.cons_ne_nil _ _))
  | cons q qs ih =>
    have horderly := orderly_exchange h q
    cases earlier with
    | nil =>
      obtain ⟨rfl, -⟩ := List.cons.inj hx
      rwa [List.flatMap_nil, List.append_nil]
    | cons y earlier =>
      obtain ⟨rfl, hrest⟩ := List.cons.inj hx
      rw [List.flatMap_cons, ← List.append_assoc]
      exact ih horderly.known hrest

/-- The symbols of a session have consecutive ids, from the counter at its beginning on. -/
theorem ids_session (h : Known past r) (qs : List Request) :
    ((session r qs).flatMap Exchange.made).map Symbol.id =
      List.range' r.nextId ((session r qs).flatMap Exchange.made).length := by
  induction qs generalizing r past with
  | nil => rfl
  | cons q qs ih =>
    have horderly := orderly_exchange h q
    have hmade : ((exchange r q).made).map Symbol.id = List.range' r.nextId (exchange r q).made.length := by
      rw [Exchange.made, map_id_numbered, length_numbered, before_exchange]
    show ((exchange r q :: session (exchange r q).after qs).flatMap Exchange.made).map Symbol.id = _
    rw [session, List.flatMap_cons, List.map_append, List.length_append, hmade, ih horderly.known,
      horderly.nextId, before_exchange, List.range'_append_1]

/-! ## The theorem -/

/-- What is declared in accepted trees is among what is declared at all. -/
theorem accepted_sublist_made (h : Known past r) (qs : List Request) :
    ((session r qs).flatMap Exchange.accepted).Sublist ((session r qs).flatMap Exchange.made) := by
  induction qs generalizing r past with
  | nil => exact List.Sublist.refl _
  | cons q qs ih =>
    have horderly := orderly_exchange h q
    rw [session, List.flatMap_cons, List.flatMap_cons]
    refine List.Sublist.append ?_ (ih horderly.known)
    unfold Exchange.accepted
    split
    · case h_1 tree htree => rw [horderly.declared tree htree]
    · exact List.nil_sublist _

/-- At first nothing is bound. -/
theorem known_empty : Known [] {} := by
  intro b hb
  cases hb

/-- **An id is given out once.** Give any programs and expressions to a resolver, one after the other, and let
it accept some of them and reject others. The ids of all declarations in accepted trees are different from
each other. The declarations of one accepted request, in their order, have the ids from the counter before it
up to the counter after it. Every reference in its trees is to a symbol that was declared earlier, which is
in an earlier request, even a rejected one, or at an earlier place of the same one. No request takes the
counter back. -/
theorem ids_never_reused (requests : List Request) :
    (((session {} requests).flatMap Exchange.accepted).map Symbol.id).Nodup ∧
    ∀ earlier x later, session {} requests = earlier ++ x :: later →
      x.before.nextId ≤ x.after.nextId ∧
      ∀ trees, x.result = .ok trees →
        (Expr.outlineOfAll trees).declared.map Symbol.id =
          List.range' x.before.nextId (x.after.nextId - x.before.nextId) ∧
        Backed (earlier.flatMap Exchange.made) (Expr.outlineOfAll trees).events := by
  constructor
  · refine List.Nodup.sublist ((accepted_sublist_made known_empty requests).map Symbol.id) ?_
    rw [ids_session known_empty requests]
    exact List.nodup_range'
  · intro earlier x later hx
    have horderly : x.Orderly ([] ++ earlier.flatMap Exchange.made) := orderly_session known_empty hx
    rw [List.nil_append] at horderly
    have hcount := horderly.nextId
    refine ⟨by omega, ?_⟩
    intro trees htrees
    have hids : x.made.map Symbol.id = List.range' x.before.nextId x.made.length := by
      rw [Exchange.made, map_id_numbered, length_numbered]
    refine ⟨?_, horderly.backed trees htrees⟩
    rw [horderly.declared trees htrees, hids, hcount, Nat.add_sub_cancel_left]

end Resolver

end ExactScript
