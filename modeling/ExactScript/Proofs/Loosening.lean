import ExactScript.Proofs.KnownTypes

/-!
# Knowing less never rejects more

When the index says `any` of a symbol, or nothing, where it said a type before, the check of a tree passes if it
passed before. It says the same of every symbol and of the value, or `any`.

Two things have to be seen for that. What the check asks for is asked in terms of compatibility, and `any` goes
with everything. And where the check picks one of two types, it picks the one that is known: compatible types
that are not those of functions are equal or one of them is `any`, so with less knowledge it picks the same type
or `any`. Functions are kept out because those of one arity are compatible whatever their results are.

The proof is over the rules of the check, so these are shown to be complete first.

## Contents
* `Expr.typing_of_rule`, what follows the rules passes the check;
* `Ty.Loosens` and `TypeIndex.Loosens`, and how the operations on types and indexes respect them;
* `Expr.relaxes_of_rule`, one node, and `Expr.loosened_passes`, the theorem.
-/

namespace ExactScript

/-! ## The rules are complete -/

theorem requireOperand_of_accepts {op : String} {accepted : List Ty} {found : Ty} (h : accepts accepted found) :
    requireOperand op accepted found = .ok () := if_pos h

theorem requireCondition_of_compatible {found : Ty} (h : found.compatible .bool) :
    requireCondition found = .ok () := if_pos h

theorem BinaryOp.resultType_of_some {op : BinaryOp} {l r t : Ty} (h : op.resultType? l r = some t) :
    op.resultType l r = .ok t := by rw [resultType, h]

namespace Expr

variable {e : Expr Symbol} {es : List (Expr Symbol)} {g g₂ g' : TypeIndex} {s t last : Ty} {ts : List Ty}

section Lists

theorem typingBlock_of_threads (h : Threads Passes es g g' ts) :
    typingBlock last es g = .ok (g', ts.getLastD last) := by
  induction h generalizing last with
  | nil => rfl
  | cons he _ ih =>
    rw [typingBlock, he, List.getLastD_cons]
    exact ih

theorem typingAll_of_threads (h : Threads Passes es g g' ts) : typingAll es g = .ok g' := by
  induction h with
  | nil => rfl
  | cons he _ ih =>
    rw [typingAll, he]
    exact ih

theorem typingParts_of_threads (h : Threads Passes es g g' ts) (hs : ∀ t ∈ ts, accepts [.str] t) :
    typingParts es g = .ok g' := by
  induction h with
  | nil => rfl
  | cons he _ ih =>
    obtain ⟨hhead, htail⟩ := List.forall_mem_cons.mp hs
    rw [typingParts, he]
    show (requireOperand _ _ _ >>= _) = _
    rw [requireOperand_of_accepts hhead]
    exact ih htail

theorem typingEntries_of_threads {entries : List (Expr Symbol × Expr Symbol)}
    (h : Threads Passes (entries.flatMap fun kv => [kv.1, kv.2]) g g' ts) : typingEntries entries g = .ok g' := by
  induction entries generalizing g ts with
  | nil =>
    cases h
    rfl
  | cons kv entries ih =>
    cases h with
    | cons hk h =>
    cases h with
    | cons hv h =>
      rw [typingEntries, hk]
      show (kv.2.typing _ >>= _) = _
      rw [hv]
      exact ih h

theorem typingStep_of_threads {step : Option (Expr Symbol)} (h : Threads Passes step.toList g g' ts)
    (hn : ∀ t ∈ ts, accepts [.num] t) : typingStep step g = .ok g' := by
  cases step with
  | none =>
    cases h
    rfl
  | some e =>
    cases h with
    | cons he h =>
      cases h
      rw [typingStep, he]
      show (requireOperand _ _ _ >>= _) = _
      rw [requireOperand_of_accepts (hn _ (by simp))]
      rfl

end Lists

/-- A step of the check that passes. -/
theorem bind_of_ok {α β : Type} {m : Except TypeError α} {k : α → Except TypeError β} {a : α} {b : β}
    (hm : m = .ok a) (hk : k a = .ok b) : (m >>= k) = .ok b := by
  rw [hm]
  exact hk

/-- **What follows the rules passes the check.** -/
theorem typing_of_rule (h : Rule Passes e g g' t) : e.typing g = .ok (g', t) := by
  have hoperand : ∀ {op accepted found} {k : Unit → Typed}, accepts accepted found → k () = .ok (g', t) →
      (requireOperand op accepted found >>= k) = .ok (g', t) := fun ha hk => bind_of_ok (requireOperand_of_accepts ha) hk
  have hcondition : ∀ {found} {k : Unit → Typed}, found.compatible .bool → k () = .ok (g', t) →
      (requireCondition found >>= k) = .ok (g', t) := fun hc hk => bind_of_ok (requireCondition_of_compatible hc) hk
  cases h with
  | literal => rfl
  | var => rfl
  | declare hv => exact bind_of_ok hv rfl
  | assign hv hc => exact bind_of_ok hv (if_pos hc)
  | letIn hv hb => exact bind_of_ok hv hb
  | unary ho ha => exact bind_of_ok ho (hoperand ha rfl)
  | binary hl hr ht =>
    exact bind_of_ok hl (bind_of_ok hr (bind_of_ok (BinaryOp.resultType_of_some ht) rfl))
  | logical hl hla hr hra => exact bind_of_ok hl (hoperand hla (bind_of_ok hr (hoperand hra rfl)))
  | block hb => exact typingBlock_of_threads hb
  | branch ht hc hy => exact bind_of_ok ht (hcondition hc (bind_of_ok (typingBlock_of_threads hy) rfl))
  | branches ht hc hy hn hs =>
    refine bind_of_ok ht (hcondition hc (bind_of_ok (typingBlock_of_threads hy) ?_))
    exact bind_of_ok (typingBlock_of_threads hn) (if_pos hs)
  | loop ht hc hb => exact bind_of_ok ht (hcondition hc (bind_of_ok (typingBlock_of_threads hb) rfl))
  | count hi ht hc hb ha =>
    refine bind_of_ok hi (bind_of_ok ht (hcondition hc ?_))
    exact bind_of_ok (typingBlock_of_threads hb) (bind_of_ok ha rfl)
  | print ha => exact bind_of_ok (typingAll_of_threads ha) rfl
  | list he => exact bind_of_ok (typingAll_of_threads he) rfl
  | fill hv hs hn => exact bind_of_ok hv (bind_of_ok hs (hoperand hn rfl))
  | map he => exact bind_of_ok (typingEntries_of_threads he) rfl
  | query ht ha => exact bind_of_ok ht (hoperand ha rfl)
  | @extend op target arg _ _ _ _ _ hop ht ha hl =>
    refine bind_of_ok ht (bind_of_ok ha ?_)
    cases op with
    | delete => exact absurd rfl hop
    | cons => exact hoperand hl rfl
    | append => exact hoperand hl rfl
  | delete ht ha hc => exact bind_of_ok ht (bind_of_ok ha (hoperand hc rfl))
  | index ht hk hc => exact bind_of_ok ht (bind_of_ok hk (hoperand hc rfl))
  | put ht hk hv hc => exact bind_of_ok ht (bind_of_ok hk (bind_of_ok hv (hoperand hc rfl)))
  | concat hp hs => exact bind_of_ok (typingParts_of_threads hp hs) rfl
  | slice ht hc hs ha hp hb hst hn =>
    refine bind_of_ok ht (hoperand hc (bind_of_ok hs (hoperand ha (bind_of_ok hp (hoperand hb ?_)))))
    exact bind_of_ok (typingStep_of_threads hst hn) rfl
  | function hb hr => exact bind_of_ok (typingBlock_of_threads hb) (bind_of_ok hr rfl)
  | call ha hf =>
    refine bind_of_ok (typingAll_of_threads ha) ?_
    rw [hf]
    exact if_pos rfl
  | callAny ha hf =>
    refine bind_of_ok (typingAll_of_threads ha) ?_
    rw [hf]
    rfl

end Expr

/-! ## Knowing less -/

namespace Ty

variable {s s' t t' : Ty}

/-- The first type is the second one, or nothing is known. -/
def Loosens (s t : Ty) : Prop := s = t ∨ s = any

instance : Decidable (Loosens s t) := inferInstanceAs (Decidable (s = t ∨ s = any))

namespace Loosens

theorem refl (t : Ty) : Loosens t t := .inl rfl

theorem any (t : Ty) : Loosens .any t := .inr rfl

theorem eq_any (h : Loosens s .any) : s = .any := h.elim id id

theorem compatible (hs : Loosens s' s) (ht : Loosens t' t) (h : s.compatible t) : s'.compatible t' := by
  rcases hs with rfl | rfl
  · rcases ht with rfl | rfl
    · exact h
    · cases s' <;> rfl
  · rfl

theorem accepts {accepted : List Ty} (ht : Loosens t' t) (h : accepts accepted t) : ExactScript.accepts accepted t' := by
  obtain ⟨s, hs, hc⟩ := List.any_eq_true.mp h
  exact List.any_eq_true.mpr ⟨s, hs, (refl s).compatible ht hc⟩

/-- Of compatible types that are not those of functions, the one that is known is picked. -/
theorem join (hs : Loosens s' s) (ht : Loosens t' t) (hps : s.plain) (hpt : t.plain) (h : s.compatible t) :
    Loosens (s'.join t') (s.join t) := by
  by_cases hany : s = .any
  · subst hany
    rw [hs.eq_any]
    exact ht
  have hjoin : ∀ u, s.join u = s := by
    intro u
    cases s with
    | any => exact absurd rfl hany
    | _ => rfl
  rcases hs with rfl | rfl
  · rw [hjoin, hjoin]
    exact refl _
  · rw [hjoin]
    show Loosens t' s
    by_cases hnone : t = .any
    · exact .inr (hnone ▸ ht).eq_any
    · exact eq_of_compatible (ground_iff.mpr ⟨hany, hps⟩) (ground_iff.mpr ⟨hnone, hpt⟩) h ▸ ht

end Loosens

end Ty

namespace BinaryOp

variable {l l' r r' t : Ty}

/-- The sum of a string or a number and something unknown is a string or a number, with either on the left. -/
theorem sumType_loosens (hl : l'.Loosens l) (hr : r'.Loosens r) (hpl : l.plain) (hpr : r.plain)
    (h : sumType l r = some t) : ∃ t', sumType l' r' = some t' ∧ t'.Loosens t := by
  rcases hl with rfl | rfl <;> rcases hr with rfl | rfl
  · exact ⟨t, h, .refl t⟩
  · cases l' <;> cases r <;> simp_all [sumType, Ty.compatible, Ty.plain, Ty.Loosens] <;> subst h <;> decide
  · cases l <;> cases r' <;> simp_all [sumType, Ty.compatible, Ty.plain, Ty.Loosens] <;> subst h <;> decide
  · exact ⟨.any, rfl, .any t⟩

/-- **Operators** on types of which less is known. -/
theorem resultType?_loosens {op : BinaryOp} (hl : l'.Loosens l) (hr : r'.Loosens r) (hpl : l.plain) (hpr : r.plain)
    (h : op.resultType? l r = some t) : ∃ t', op.resultType? l' r' = some t' ∧ t'.Loosens t := by
  have harith : (if l.compatible .num ∧ r.compatible .num then some Ty.num else none) = some t →
      ∃ t', (if l'.compatible .num ∧ r'.compatible .num then some Ty.num else none) = some t' ∧ t'.Loosens t := by
    intro h
    split at h
    · next hc =>
      exact ⟨t, by rw [if_pos ⟨hl.compatible (.refl _) hc.1, hr.compatible (.refl _) hc.2⟩, h], .refl t⟩
    · cases h
  have hcompare : (if accepts [.num, .str] l ∧ l.compatible r then some Ty.bool else none) = some t →
      ∃ t', (if accepts [.num, .str] l' ∧ l'.compatible r' then some Ty.bool else none) = some t' ∧
        t'.Loosens t := by
    intro h
    split at h
    · next hc => exact ⟨t, by rw [if_pos ⟨hl.accepts hc.1, hl.compatible hr hc.2⟩, h], .refl t⟩
    · cases h
  cases op with
  | eq => exact ⟨t, h, .refl t⟩
  | ne => exact ⟨t, h, .refl t⟩
  | lt => exact hcompare h
  | gt => exact hcompare h
  | le => exact hcompare h
  | ge => exact hcompare h
  | add => exact sumType_loosens hl hr hpl hpr h
  | sub => exact harith h
  | mul => exact harith h
  | div => exact harith h
  | floorDiv => exact harith h
  | rem => exact harith h
  | pow => exact harith h

end BinaryOp

/-- The first index says what the second one says, or nothing, of every symbol. -/
def TypeIndex.Loosens (g g' : TypeIndex) : Prop := ∀ id, (g.typeOf id).Loosens (g'.typeOf id)

namespace TypeIndex

variable {g g' : TypeIndex} {t t' : Ty}

theorem typeOf_insert (g : TypeIndex) (id : Nat) (t : Ty) (j : Nat) :
    typeOf (g.insert id t) j = if j = id then t else g.typeOf j := by
  unfold typeOf
  split
  · next h => rw [h, IdMap.get?_insert_self, Option.getD_some]
  · next h => rw [IdMap.get?_insert_of_ne _ h]

theorem Loosens.insert (hg : g.Loosens g') (id : Nat) (ht : t.Loosens t') :
    Loosens (g.insert id t) (g'.insert id t') := by
  intro j
  rw [typeOf_insert, typeOf_insert]
  split
  · exact ht
  · exact hg j

end TypeIndex

/-! ## The check -/

namespace Expr

variable {e : Expr Symbol} {es : List (Expr Symbol)} {g g₂ g' : TypeIndex} {s t : Ty} {ts ts' : List Ty}

/-- Whatever less is known before the tree, it passes, and the same or less is known after it. -/
def Relaxes (e : Expr Symbol) (g g' : TypeIndex) (t : Ty) : Prop :=
  ∀ g₂ : TypeIndex, g₂.Loosens g → ∃ g₂' t₂, e.Passes g₂ g₂' t₂ ∧ g₂'.Loosens g' ∧ t₂.Loosens t

/-- The same, where no types of functions are known before. None will be known after. -/
def RelaxesPlainly (e : Expr Symbol) (g g' : TypeIndex) (t : Ty) : Prop :=
  PlainIndex g → PlainIndex g' ∧ t.plain ∧ e.Relaxes g g' t

/-- One tree after another. -/
theorem relaxes_both {a b : Expr Symbol} {g₁ : TypeIndex} (ha : a.RelaxesPlainly g g₁ s)
    (hb : b.RelaxesPlainly g₁ g' t) (hg : PlainIndex g) (hl : g₂.Loosens g) :
    ∃ g₃ s₂ g₄ t₂, a.Passes g₂ g₃ s₂ ∧ b.Passes g₃ g₄ t₂ ∧ g₄.Loosens g' ∧ s₂.Loosens s ∧ t₂.Loosens t := by
  obtain ⟨hg₁, -, hfirst⟩ := ha hg
  obtain ⟨g₃, s₂, hpass, hl₃, hs⟩ := hfirst g₂ hl
  obtain ⟨g₄, t₂, hpass', hl₄, ht⟩ := (hb hg₁).2.2 g₃ hl₃
  exact ⟨g₃, s₂, g₄, t₂, hpass, hpass', hl₄, hs, ht⟩

/-- The type of a block is that of its last statement. -/
theorem blockType_loosens (h : List.Forall₂ Ty.Loosens ts' ts) : (blockType ts').Loosens (blockType ts) := by
  suffices hlast : ∀ {last' last : Ty}, last'.Loosens last →
      (ts'.getLastD last').Loosens (ts.getLastD last) from hlast (.refl .unit)
  induction h with
  | nil => exact id
  | cons ht _ ih =>
    intro last' last _
    rw [List.getLastD_cons, List.getLastD_cons]
    exact ih ht

theorem relaxes_threads (h : Threads RelaxesPlainly es g g' ts) (hg : PlainIndex g) :
    PlainIndex g' ∧ (∀ t ∈ ts, t.plain) ∧ ∀ g₂ : TypeIndex, g₂.Loosens g →
      ∃ g₂' ts₂, Threads Passes es g₂ g₂' ts₂ ∧ g₂'.Loosens g' ∧ List.Forall₂ Ty.Loosens ts₂ ts := by
  induction h with
  | nil => exact ⟨hg, by simp, fun g₂ h => ⟨g₂, [], .nil, h, .nil⟩⟩
  | cons he _ ih =>
    obtain ⟨hg₁, ht, hhead⟩ := he hg
    obtain ⟨hg', hts, htail⟩ := ih hg₁
    refine ⟨hg', List.forall_mem_cons.mpr ⟨ht, hts⟩, fun g₂ h => ?_⟩
    obtain ⟨g₃, t₂, hpass, hg₃, ht₂⟩ := hhead g₂ h
    obtain ⟨g₂', ts₂, hpasses, hg₂', hts₂⟩ := htail g₃ hg₃
    exact ⟨g₂', t₂ :: ts₂, .cons hpass hpasses, hg₂', .cons ht₂ hts₂⟩

/-- All of the types are accepted, whatever less is known. -/
theorem accepts_of_loosens {accepted : List Ty} (h : List.Forall₂ Ty.Loosens ts' ts)
    (hts : ∀ t ∈ ts, accepts accepted t) : ∀ t ∈ ts', accepts accepted t := by
  induction h with
  | nil => exact hts
  | cons ht _ ih =>
    obtain ⟨hhead, htail⟩ := List.forall_mem_cons.mp hts
    exact List.forall_mem_cons.mpr ⟨ht.accepts hhead, ih htail⟩

/-- **One node.** -/
theorem relaxes_of_rule (h : Rule RelaxesPlainly e g g' t) (hno : e.definesFunction = false)
    (hg : PlainIndex g) : e.Relaxes g g' t := by
  intro g₂ hl
  cases h with
  | literal => exact ⟨g₂, _, rfl, hl, .refl _⟩
  | var => exact ⟨g₂, _, rfl, hl, hl _⟩
  | @declare x value _ _ _ hv =>
    obtain ⟨g₃, s, hpass, hl₃, hs⟩ := (hv hg).2.2 g₂ hl
    exact ⟨_, _, typing_of_rule (.declare hpass), hl₃.insert x.id hs, hs⟩
  | @assign x value _ _ _ hv hc =>
    obtain ⟨hg₁, ht, hvalue⟩ := hv hg
    obtain ⟨g₃, s, hpass, hl₃, hs⟩ := hvalue g₂ hl
    have hjoin := (hl₃ x.id).join hs (hg₁.typeOf x.id) ht hc
    exact ⟨_, _, typing_of_rule (.assign hpass ((hl₃ x.id).compatible hs hc)), hl₃.insert x.id hjoin, hs⟩
  | @letIn x value body _ _ _ _ _ hv hb =>
    obtain ⟨hg₁, ht, hvalue⟩ := hv hg
    obtain ⟨g₃, s, hpass, hl₃, hs⟩ := hvalue g₂ hl
    obtain ⟨g₄, u, hbody, hl₄, hu⟩ := (hb (hg₁.insert ht)).2.2 _ (hl₃.insert x.id hs)
    exact ⟨_, _, typing_of_rule (.letIn hpass hbody), hl₄, hu⟩
  | unary ho ha =>
    obtain ⟨g₃, s, hpass, hl₃, hs⟩ := (ho hg).2.2 g₂ hl
    exact ⟨_, _, typing_of_rule (.unary hpass (hs.accepts ha)), hl₃, .refl _⟩
  | binary hl' hr ht =>
    obtain ⟨hg₁, hpl, -⟩ := hl' hg
    obtain ⟨-, hpr, -⟩ := hr hg₁
    obtain ⟨g₃, s, g₄, u, hpass, hpass', hl₄, hs, hu⟩ := relaxes_both hl' hr hg hl
    obtain ⟨t', ht', hloosens⟩ := BinaryOp.resultType?_loosens hs hu hpl hpr ht
    exact ⟨_, _, typing_of_rule (.binary hpass hpass' ht'), hl₄, hloosens⟩
  | logical hl' hla hr hra =>
    obtain ⟨g₃, s, g₄, u, hpass, hpass', hl₄, hs, hu⟩ := relaxes_both hl' hr hg hl
    exact ⟨_, _, typing_of_rule (.logical hpass (hs.accepts hla) hpass' (hu.accepts hra)), hl₄, .refl _⟩
  | block hb =>
    obtain ⟨g₃, ss, hpass, hl₃, hs⟩ := (relaxes_threads hb hg).2.2 g₂ hl
    exact ⟨_, _, typing_of_rule (.block hpass), hl₃, blockType_loosens hs⟩
  | branch ht hc hy =>
    obtain ⟨hg₁, -, htest⟩ := ht hg
    obtain ⟨g₃, s, hpass, hl₃, hs⟩ := htest g₂ hl
    obtain ⟨g₄, us, hyes, hl₄, -⟩ := (relaxes_threads hy hg₁).2.2 g₃ hl₃
    exact ⟨_, _, typing_of_rule (.branch hpass (hs.compatible (.refl _) hc) hyes), hl₄, .refl _⟩
  | branches ht hc hy hn hs =>
    obtain ⟨hg₁, -, htest⟩ := ht hg
    obtain ⟨hg₂, hpy, hyes⟩ := relaxes_threads hy hg₁
    obtain ⟨-, hpn, hno⟩ := relaxes_threads hn hg₂
    obtain ⟨g₃, s, hpass, hl₃, hcond⟩ := htest g₂ hl
    obtain ⟨g₄, us, hpassy, hl₄, hus⟩ := hyes g₃ hl₃
    obtain ⟨g₅, ws, hpassn, hl₅, hws⟩ := hno g₄ hl₄
    have hplain : ∀ {ts : List Ty}, (∀ t ∈ ts, t.plain) → (blockType ts).plain :=
      fun h => blockType_of_forall (P := fun t => t.plain) rfl h
    have hyes := blockType_loosens hus
    have hno := blockType_loosens hws
    exact ⟨_, _, typing_of_rule (.branches hpass (hcond.compatible (.refl _) hc) hpassy hpassn
      (hyes.compatible hno hs)), hl₅, hyes.join hno (hplain hpy) (hplain hpn) hs⟩
  | loop ht hc hb =>
    obtain ⟨hg₁, -, htest⟩ := ht hg
    obtain ⟨g₃, s, hpass, hl₃, hs⟩ := htest g₂ hl
    obtain ⟨g₄, us, hbody, hl₄, -⟩ := (relaxes_threads hb hg₁).2.2 g₃ hl₃
    exact ⟨_, _, typing_of_rule (.loop hpass (hs.compatible (.refl _) hc) hbody), hl₄, .refl _⟩
  | @count x init test advance body _ _ _ _ _ _ _ _ _ hi ht hc hb ha =>
    obtain ⟨hg₁, hps, hinit⟩ := hi hg
    obtain ⟨hg₂, -, htest⟩ := ht (hg₁.insert hps)
    obtain ⟨hg₃, -, hbody⟩ := relaxes_threads hb hg₂
    obtain ⟨g₃, s, hpass, hl₃, hs⟩ := hinit g₂ hl
    obtain ⟨g₄, u, hpasst, hl₄, hu⟩ := htest _ (hl₃.insert x.id hs)
    obtain ⟨g₅, us, hpassb, hl₅, -⟩ := hbody g₄ hl₄
    obtain ⟨g₆, w, hpassa, hl₆, -⟩ := (ha hg₃).2.2 g₅ hl₅
    exact ⟨_, _, typing_of_rule (.count hpass hpasst (hu.compatible (.refl _) hc) hpassb hpassa), hl₆, .refl _⟩
  | print ha =>
    obtain ⟨g₃, ss, hpass, hl₃, -⟩ := (relaxes_threads ha hg).2.2 g₂ hl
    exact ⟨_, _, typing_of_rule (.print hpass), hl₃, .refl _⟩
  | list he =>
    obtain ⟨g₃, ss, hpass, hl₃, -⟩ := (relaxes_threads he hg).2.2 g₂ hl
    exact ⟨_, _, typing_of_rule (.list hpass), hl₃, .refl _⟩
  | fill hv hs hn =>
    obtain ⟨g₃, s, g₄, u, hpass, hpass', hl₄, -, hu⟩ := relaxes_both hv hs hg hl
    exact ⟨_, _, typing_of_rule (.fill hpass hpass' (hu.accepts hn)), hl₄, .refl _⟩
  | map he =>
    obtain ⟨g₃, ss, hpass, hl₃, -⟩ := (relaxes_threads he hg).2.2 g₂ hl
    exact ⟨_, _, typing_of_rule (.map hpass), hl₃, .refl _⟩
  | query ht ha =>
    obtain ⟨g₃, s, hpass, hl₃, hs⟩ := (ht hg).2.2 g₂ hl
    exact ⟨_, _, typing_of_rule (.query hpass (hs.accepts ha)), hl₃, .refl _⟩
  | extend hop ht ha hc =>
    obtain ⟨g₃, s, g₄, u, hpass, hpass', hl₄, hs, -⟩ := relaxes_both ht ha hg hl
    exact ⟨_, _, typing_of_rule (.extend hop hpass hpass' (hs.accepts hc)), hl₄, .refl _⟩
  | delete ht ha hc =>
    obtain ⟨g₃, s, g₄, u, hpass, hpass', hl₄, hs, -⟩ := relaxes_both ht ha hg hl
    exact ⟨_, _, typing_of_rule (.delete hpass hpass' (hs.accepts hc)), hl₄, hs⟩
  | index ht hk hc =>
    obtain ⟨g₃, s, g₄, u, hpass, hpass', hl₄, hs, -⟩ := relaxes_both ht hk hg hl
    refine ⟨_, _, typing_of_rule (.index hpass hpass' (hs.accepts hc)), hl₄, ?_⟩
    rcases hs with rfl | rfl
    · exact .refl _
    · exact .any _
  | put ht hk hv hc =>
    obtain ⟨g₃, s, g₄, u, hpass, hpass', hl₄, hs, -⟩ := relaxes_both ht hk hg hl
    have hg₂ := (hk (ht hg).1).1
    obtain ⟨g₅, w, hpass'', hl₅, -⟩ := (hv hg₂).2.2 g₄ hl₄
    exact ⟨_, _, typing_of_rule (.put hpass hpass' hpass'' (hs.accepts hc)), hl₅, hs⟩
  | concat hp hs =>
    obtain ⟨g₃, ss, hpass, hl₃, hts⟩ := (relaxes_threads hp hg).2.2 g₂ hl
    exact ⟨_, _, typing_of_rule (.concat hpass (accepts_of_loosens hts hs)), hl₃, .refl _⟩
  | slice ht hc hs ha hp hb hst hn =>
    obtain ⟨hg₁, -, htarget⟩ := ht hg
    obtain ⟨hg₂, -, hstart⟩ := hs hg₁
    obtain ⟨hg₃, -, hstop⟩ := hp hg₂
    obtain ⟨g₃, t', hpass, hl₃, ht'⟩ := htarget g₂ hl
    obtain ⟨g₄, a', hpassa, hl₄, ha'⟩ := hstart g₃ hl₃
    obtain ⟨g₅, b', hpassb, hl₅, hb'⟩ := hstop g₄ hl₄
    obtain ⟨g₆, ns, hpassn, hl₆, hns⟩ := (relaxes_threads hst hg₃).2.2 g₅ hl₅
    exact ⟨_, _, typing_of_rule (.slice hpass (ht'.accepts hc) hpassa (ha'.accepts ha) hpassb (hb'.accepts hb)
      hpassn (accepts_of_loosens hns hn)), hl₆, .refl _⟩
  | function => cases hno
  | @call callee args _ _ ts _ ha hf =>
    -- there is no function to be called
    have hplain := (relaxes_threads ha hg).1.typeOf callee.id
    rw [hf] at hplain
    cases hplain
  | @callAny callee args _ _ ts ha hf =>
    obtain ⟨g₃, ss, hpass, hl₃, -⟩ := (relaxes_threads ha hg).2.2 g₂ hl
    exact ⟨_, _, typing_of_rule (.callAny hpass (hf ▸ hl₃ callee.id).eq_any), hl₃, .refl _⟩

/-- **Knowing less never rejects more.** If a tree that defines no functions passes the check with an index that
knows no types of functions, then it passes with every index in which entries are replaced by `any` or missing.
After it, the same is known of every symbol and of the value, or nothing. -/
theorem loosened_passes (hno : e.WithoutDefinitions) (hg : PlainIndex g) (hl : g₂.Loosens g)
    (h : e.typing g = .ok (g', t)) :
    ∃ g₂' t₂, e.typing g₂ = .ok (g₂', t₂) ∧ g₂'.Loosens g' ∧ (t₂ = t ∨ t₂ = .any) := by
  suffices hrelaxes : e.RelaxesPlainly g g' t from (hrelaxes hg).2.2 g₂ hl
  clear hl hg
  induction e using induct_children generalizing g g' t with
  | h e ih =>
    intro hg
    obtain ⟨hg', ht⟩ := plain_of_passes h hno hg
    refine ⟨hg', ht, relaxes_of_rule ((rule_of_typing h).imp fun w hw _ _ hp => ?_) hno.self hg⟩
    exact ih w.expr (expr_mem_children hw) (hno.child (expr_mem_children hw)) hp

/-- A conditional whose branches have one type as long as `x` and `y` are known. -/
def sampleConditional : Expr Symbol :=
  .cond (.var ⟨"b", 0⟩) [.assign ⟨"x", 1⟩ (.binary .add (.var ⟨"x", 1⟩) (.var ⟨"y", 2⟩))] (some [.var ⟨"y", 2⟩])

/-- It passes when `x` may be anything and `y` is not in the index. -/
theorem loosened_passes_conditional : ∃ g g₂ : TypeIndex, g.typeOf 1 = .num ∧ g.typeOf 2 = .num ∧
    g₂.get? 1 = some .any ∧ g₂.get? 2 = none ∧ PlainIndex g ∧ g₂.Loosens g ∧
    ∃ g₂' t₂, sampleConditional.typing g₂ = .ok (g₂', t₂) ∧ (t₂ = .num ∨ t₂ = .any) := by
  have hplain : PlainIndex (((IdMap.empty.insert 0 .bool).insert 1 .num).insert 2 .num) := by
    have hempty : PlainIndex .empty := fun _ _ h => nomatch h
    exact ((hempty.insert rfl).insert rfl).insert rfl
  have hl : TypeIndex.Loosens ((IdMap.empty.insert 0 .bool).insert 1 .any)
      (((IdMap.empty.insert 0 .bool).insert 1 .num).insert 2 .num) := by
    intro id
    match id with
    | 0 => exact .inl rfl
    | 1 => exact .inr rfl
    | 2 => exact .inr rfl
    | n + 3 =>
      refine .inl ?_
      simp [TypeIndex.typeOf_insert]
  obtain ⟨g₂', t₂, hpasses, -, ht₂⟩ := loosened_passes (e := sampleConditional) (by decide) hplain hl rfl
  exact ⟨_, _, rfl, rfl, rfl, rfl, hplain, hl, g₂', t₂, hpasses, ht₂⟩

end Expr

end ExactScript
