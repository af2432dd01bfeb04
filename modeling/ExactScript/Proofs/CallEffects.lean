import ExactScript.Proofs.Loads
import ExactScript.Proofs.Sites

/-!
# What calls do to the globals

A global changes when a statement stores it. But a function also stores itself under its own name, each
time it is entered, and where that name is global the store goes to the globals. So a call undoes what was
assigned to the names of the functions that it enters, however these were reached.

## Contents
* `Machine.Trail`, `Machine.Returns`, a call with the states until its return;
* `lastEntered`, the function whose name was stored last in the course of a trail;
* `Program.globals_of_call`, the globals after a call.
-/

namespace ExactScript

/-! ## Trails -/

namespace Machine

/-- A run with the states that it goes through, from the first on and without the last. -/
inductive Trail : Machine → List Machine → Machine → Prop
  | nil (m : Machine) : Trail m [] m
  | cons {m m' m'' : Machine} {trail : List Machine} (h : m.step = (.ok .more, m'))
      (ht : Trail m' trail m'') : Trail m (m :: trail) m''

/-- The machine is at a call, goes through the states of the trail in deeper calls, and is back. -/
structure Returns (m : Machine) (trail : List Machine) (m' : Machine) : Prop where
  call : ∃ n, m.current? = some (.call n)
  run : Trail m (m :: trail) m'
  above : ∀ x ∈ trail, m.memory.depth < x.memory.depth
  back : m'.memory.depth = m.memory.depth

theorem Reachable.step {p : Program} {m m' : Machine} (h : Reachable p m)
    (hs : m.step = (.ok .more, m')) : Reachable p m' := by
  obtain ⟨m₀, n, hm⟩ := h
  exact ⟨m₀, n + 1, hm.trans (.one hs)⟩

/-- Only a store of an id changes its global. -/
theorem Effect.globals_eq {m m' : Machine} {i : Instr Nat} {g : Nat} (h : Effect m i m')
    (hi : i ≠ .store g) : m'.memory.globals.get? g = m.memory.globals.get? g := by
  cases h with
  | @store id v s hs =>
    have hne : g ≠ id := fun heq => hi (heq ▸ rfl)
    have hinsert : (m.memory.globals.insert id v).get? g = m.memory.globals.get? g :=
      IdMap.get?_insert_of_ne _ hne v
    simp only [Memory.store]
    split
    · exact hinsert
    · split
      · exact hinsert
      · rfl
  | ret hp =>
    unfold Memory.popFrame? at hp
    split at hp <;> cases hp
    rfl
  | _ => rfl

end Machine

/-! ## Prologues -/

namespace FunctionSite

/-- The position where a call of the function stores the function under its own name. -/
def ownStore (s : FunctionSite) : Nat := s.entry + s.params.length + 1

/-- The position is one of those where a call of the function stores its arguments and itself. -/
def InPrologue (s : FunctionSite) (i : Nat) : Prop := s.entry ≤ i ∧ i ≤ s.ownStore

end FunctionSite

/-- The functions of a program. -/
def Program.functionSites (tree : List (Expr Symbol)) : List FunctionSite :=
  (Expr.pieceOfProgram tree).sites 0

/-- The function that stores itself as the global `g` in this state, if there is one. -/
def entered (tree : List (Expr Symbol)) (g : Nat) (m : Machine) : Option FunctionRef :=
  ((Program.functionSites tree).find? fun s => s.name.id == g && s.ownStore == m.ip).map FunctionSite.ref

/-- The last function that stored itself as the global `g`. -/
def lastEntered (tree : List (Expr Symbol)) (g : Nat) : List Machine → Option FunctionRef
  | [] => none
  | m :: trail => (lastEntered tree g trail).or (entered tree g m)

/-! ## Steps -/

section Steps

variable {tree : List (Expr Symbol)} {p : Program} {ann : Nat → Stored} {g : Nat}

/-- What is asked of the definitions of a program: parameters are not from outside. -/
def Local (outer : Nat → Prop) (e : Expr Symbol) : Prop := ∃ b, Sided outer (e.declarations b)

theorem Local.child {outer : Nat → Prop} {e c : Expr Symbol} (h : Local outer e) (hc : c ∈ e.children) :
    Local outer c := by
  obtain ⟨b, hb⟩ := h
  obtain ⟨b', hb'⟩ := Expr.exists_declarations hc b
  exact ⟨b', fun d hd => hb d (hb' d hd)⟩

variable {outer : Nat → Prop} {setting : Setting} {site : FunctionSite}

/-- In a prologue, a global is stored where the function stores itself, and nowhere else. -/
theorem FunctionSite.Stands.ownStore_of_store (h : site.Stands setting p (Local outer)) {i : Nat}
    (hi : site.InPrologue i) (hc : p.code[i]? = some (.store g)) (hg : outer g) :
    i = site.ownStore ∧ site.name.id = g := by
  obtain ⟨hlo, hhi⟩ := hi
  obtain ⟨k, rfl⟩ := Nat.exists_eq_add_of_le hlo
  unfold ownStore at hhi
  rcases Nat.lt_trichotomy k site.params.length with hk | rfl | hk
  · obtain ⟨x, hx, hstore⟩ := h.code_store hk
    obtain ⟨body, ret, -, b, hsided⟩ := h.node
    obtain rfl : g = x.id := by simpa [hc] using hstore
    obtain ⟨-, hparams⟩ := sided_cons.mp hsided
    have hinner := (sided_append.mp hparams).1 (true, x) (List.mem_map.mpr ⟨x, hx, rfl⟩)
    simp [hg] at hinner
  · rw [h.code_function] at hc
    cases hc
  · obtain rfl : k = site.params.length + 1 := by omega
    have hname := h.code_name
    rw [← Nat.add_assoc] at hc
    rw [hc] at hname
    cases hname
    exact ⟨rfl, rfl⟩

/-- Where a function stores itself, it is on top of the stack. -/
theorem Stocked.head_of_ownStore {m : Machine} (hm : Stocked outer ann p m)
    (hann : (storage outer).Annotates p.code ann) {K : Expr Symbol → Prop} (h : site.Stands setting p K)
    (hi : m.ip = site.ownStore) : m.stack.head? = some (.function site.ref) := by
  obtain ⟨x, b, ⟨-, -, -, -, hb⟩, -, -, himplies⟩ := hann _ _ h.code_function
  refine hm.made site.ref ?_
  rw [hi, FunctionSite.ownStore, ← himplies.made, hb]
  rfl

/-- A store of an id from outside changes its global. -/
theorem Stocked.globals_of_store {m m' : Machine} {v : Value} (hm : Stocked outer ann p m)
    (hann : (storage outer).Annotates p.code ann) (hi : m.current? = some (.store g)) (hg : outer g)
    (hv : m.stack.head? = some v) (he : Machine.Effect m (.store g) m') :
    m'.memory.globals.get? g = some v := by
  obtain ⟨b, ⟨hallows, -⟩, -⟩ := hm.admits hann hi
  obtain ⟨w, s, hs, rfl⟩ := he.of_store
  rw [hs] at hv
  obtain rfl : w = v := Option.some.inj hv
  rcases hm.holds.store_eq (v := w) hallows hm.apart with ⟨-, heq⟩ | ⟨hno, -⟩
  · simp only [heq]
    exact IdMap.get?_insert_self _ _ _
  · exact absurd hg hno

/-- What a program has to satisfy for its trails. -/
structure Traceable (tree : List (Expr Symbol)) (p : Program) (ann : Nat → Stored) : Prop where
  annotates : (storage (· ∈ outsideIds tree)).Annotates p.code ann
  stocked : ∀ m, Machine.Reachable p m → Stocked (· ∈ outsideIds tree) ann p m
  stands : ∀ site ∈ Program.functionSites tree,
    site.Stands (Program.setting tree {}) p (Local (· ∈ outsideIds tree))

namespace Traceable

variable {m m' : Machine} {trail : List Machine}

/-- **One step.** The global is what it was, or the function that stores itself. -/
theorem globals_of_step (h : Traceable tree p ann) (hm : Machine.Reachable p m)
    (hs : m.step = (.ok .more, m')) (hg : g ∈ outsideIds tree)
    (hquiet : m.current? = some (.store g) → ∃ s ∈ Program.functionSites tree, s.InPrologue m.ip) :
    m'.memory.globals.get? g = ((entered tree g m).map .function).or (m.memory.globals.get? g) := by
  obtain ⟨-, i, hi, he⟩ := Machine.effect_of_step hs
  have hstocked := h.stocked m hm
  by_cases hstore : i = .store g
  · subst hstore
    obtain ⟨site, hsite, hprologue⟩ := hquiet hi
    have hcode : p.code[m.ip]? = some (.store g) := hstocked.program ▸ hi
    obtain ⟨hip, hname⟩ := (h.stands site hsite).ownStore_of_store hprologue hcode hg
    -- a site is found, this one or another at the same position
    obtain ⟨found, hfound⟩ : ∃ found, (Program.functionSites tree).find?
        (fun s => s.name.id == g && s.ownStore == m.ip) = some found := by
      refine Option.isSome_iff_exists.mp (List.find?_isSome.mpr ⟨site, hsite, ?_⟩)
      simp [hip, hname]
    have hown : m.ip = found.ownStore := by
      have hmatch := List.find?_some hfound
      simp only [Bool.and_eq_true, beq_iff_eq] at hmatch
      exact hmatch.2.symm
    have hhead := hstocked.head_of_ownStore h.annotates
      (h.stands found (List.mem_of_find?_eq_some hfound)) hown
    rw [entered, hfound]
    exact hstocked.globals_of_store h.annotates hi hg hhead he
  · have hnone : entered tree g m = none := by
      cases hfound : (Program.functionSites tree).find?
          (fun s => s.name.id == g && s.ownStore == m.ip) with
      | none => rw [entered, hfound]; rfl
      | some found =>
        have hmatch := List.find?_some hfound
        simp only [Bool.and_eq_true, beq_iff_eq] at hmatch
        have hname := (h.stands found (List.mem_of_find?_eq_some hfound)).code_name
        have hcode : p.code[m.ip]? = some i := hstocked.program ▸ hi
        rw [← FunctionSite.ownStore, hmatch.2, hmatch.1, hcode] at hname
        exact absurd (Option.some.inj hname) hstore
    rw [hnone]
    exact he.globals_eq hstore

/-- **A run.** The global is what it was, or the last function that stored itself. -/
theorem globals_of_trail (h : Traceable tree p ann) (ht : Machine.Trail m trail m')
    (hm : Machine.Reachable p m) (hg : g ∈ outsideIds tree)
    (hquiet : ∀ x ∈ trail, x.current? = some (.store g) →
      ∃ s ∈ Program.functionSites tree, s.InPrologue x.ip) :
    m'.memory.globals.get? g = ((lastEntered tree g trail).map .function).or (m.memory.globals.get? g) := by
  induction ht with
  | nil => rfl
  | cons hs _ ih =>
    obtain ⟨hhead, hrest⟩ := List.forall_mem_cons.mp hquiet
    rw [ih (hm.step hs) hrest, h.globals_of_step hm hs hg hhead, lastEntered, Option.map_or, Option.or_assoc]

end Traceable

end Steps

namespace Program

variable {src : String} {source : List Source.Surface} {tree : List (Expr Symbol)} {p : Program}

theorem exists_traceable (hparse : Source.parse src = .ok source) (hresolve : resolve source = .ok tree)
    (h : Program.ofTree tree = .ok p) : ∃ ann, Traceable tree p ann := by
  obtain ⟨ann, hann, hstocked⟩ := exists_stocked hparse hresolve h
  refine ⟨ann, hann, hstocked, fun site hsite => ?_⟩
  refine Expr.delivers_program Local.child (fun e he => ⟨false, fun d hd => ?_⟩) 0
    (present_of_ofTree {} h) site hsite
  exact mem_outsideIds_iff hresolve (Expr.mem_declarationsOfAll he hd)

/-- **Globals after a call.** When no statement stores the global `g` in the course of a call, then `g` is
afterwards the last function that was entered under this name. So it is unchanged exactly if there is no
such function, or if it was this function before. -/
theorem globals_of_call (hparse : Source.parse src = .ok source) (hresolve : resolve source = .ok tree)
    (h : Program.ofTree tree = .ok p) {m m' : Machine} {trail : List Machine}
    (hm : Machine.Reachable p m) (hcall : m.Returns trail m') {g : Nat} (hg : g ∈ outsideIds tree)
    (hquiet : ∀ x ∈ trail, x.current? = some (.store g) →
      ∃ s ∈ functionSites tree, s.InPrologue x.ip) :
    (∀ f, lastEntered tree g trail = some f → m'.memory.globals.get? g = some (.function f)) ∧
      (m'.memory.globals.get? g = m.memory.globals.get? g ↔
        ∀ f, lastEntered tree g trail = some f → m.memory.globals.get? g = some (.function f)) := by
  obtain ⟨ann, htraceable⟩ := exists_traceable hparse hresolve h
  obtain ⟨n, hi⟩ := hcall.call
  obtain ⟨m₁, hs, ht⟩ : ∃ m₁, m.step = (.ok .more, m₁) ∧ Machine.Trail m₁ trail m' := by
    cases hcall.run with
    | cons hs ht => exact ⟨_, hs, ht⟩
  have hstart : m₁.memory.globals.get? g = m.memory.globals.get? g := by
    obtain ⟨-, i, hi', he⟩ := Machine.effect_of_step hs
    obtain rfl := Option.some.inj (hi.symm.trans hi')
    exact he.globals_eq (by simp)
  have hend := htraceable.globals_of_trail ht (hm.step hs) hg hquiet
  rw [hstart] at hend
  cases hlast : lastEntered tree g trail with
  | none =>
    rw [hlast] at hend
    exact ⟨fun _ hf => (by cases hf), fun _ _ hf => (by cases hf), fun _ => hend⟩
  | some f =>
    rw [hlast] at hend
    have hnow : m'.memory.globals.get? g = some (.function f) := hend
    refine ⟨fun f' hf' => Option.some.inj hf' ▸ hnow, fun heq f' hf' => ?_, fun hbefore => ?_⟩
    · exact Option.some.inj hf' ▸ heq.symm.trans hnow
    · exact hnow.trans (hbefore f rfl).symm

/-- A function whose name is given another value, called through another variable. -/
def sampleAlias : Program where
  code := #[.jump 5, .makeFunction 1 0, .store 0, .push (.num (.ofNat 1)), .ret, .makeFunction 1 0, .dup,
    .store 0, .pop, .load 0, .dup, .store 1, .pop, .push (.num (.ofNat 5)), .dup, .store 0, .pop, .load 1,
    .call 0, .pop, .load 0, .halt]
  names := (IdMap.empty.insert 0 "f").insert 1 "g"

/-- The tree of this program. -/
def sampleAliasTree : List (Expr Symbol) :=
  [.function ⟨"f", 0⟩ [] [] (.literal (.num (.ofNat 1))), .declare ⟨"g", 1⟩ (.var ⟨"f", 0⟩),
    .assign ⟨"f", 0⟩ (.literal (.num (.ofNat 5))), .call ⟨"g", 1⟩ [], .var ⟨"f", 0⟩]

theorem sampleAlias_compiled : ∃ source,
    Source.parse "def f() { return 1; } var g = f; f = 5; g(); f" = .ok source ∧
      resolve source = .ok sampleAliasTree ∧ ofTree sampleAliasTree = .ok sampleAlias :=
  ⟨[.function "f" [] [] (.literal (.num (.ofNat 1))), .declare "g" (.var "f"),
    .assign "f" (.literal (.num (.ofNat 5))), .call "g" [], .var "f"], rfl, rfl, rfl⟩

/-- In its call the function stores itself, and nothing else is stored. -/
theorem sampleAlias_returns : ∃ m trail m', Machine.Reachable sampleAlias m ∧ m.Returns trail m' ∧
    m.memory.globals.get? 0 = some (.num (.ofNat 5)) ∧
    (∀ x ∈ trail, x.current? = some (.store 0) →
      ∃ s ∈ functionSites sampleAliasTree, s.InPrologue x.ip) ∧
    lastEntered sampleAliasTree 0 trail = some ⟨1, 0⟩ ∧
    m'.memory.globals.get? 0 = some (.function ⟨1, 0⟩) := by
  have hsite : ∃ s ∈ functionSites sampleAliasTree, s.InPrologue 2 :=
    ⟨_, List.mem_cons_self, by decide, by decide⟩
  refine ⟨_, _, _, ⟨{}, 14, .of_after rfl⟩,
    ⟨⟨0, rfl⟩, .cons rfl (.cons rfl (.cons rfl (.cons rfl (.cons rfl (.nil _))))), ?_, rfl⟩, rfl, ?_, rfl, rfl⟩
  · iterate 4 refine List.forall_mem_cons.mpr ⟨Nat.zero_lt_one, ?_⟩
    exact List.forall_mem_nil _
  · refine List.forall_mem_cons.mpr ⟨fun h => (by cases h), List.forall_mem_cons.mpr ⟨fun _ => hsite, ?_⟩⟩
    iterate 2 refine List.forall_mem_cons.mpr ⟨fun h => (by cases h), ?_⟩
    exact List.forall_mem_nil _

theorem globals_of_call_alias : ∃ m trail m', Machine.Reachable sampleAlias m ∧ m.Returns trail m' ∧
    m'.memory.globals.get? 0 = some (.function ⟨1, 0⟩) ∧
    m'.memory.globals.get? 0 ≠ m.memory.globals.get? 0 := by
  obtain ⟨source, hparse, hresolve, hcompile⟩ := sampleAlias_compiled
  obtain ⟨m, trail, m', hm, hreturns, hbefore, hquiet, hlast, -⟩ := sampleAlias_returns
  obtain ⟨hafter, hkept⟩ := globals_of_call hparse hresolve hcompile hm hreturns (by decide) hquiet
  refine ⟨m, trail, m', hm, hreturns, hafter _ hlast, fun hsame => ?_⟩
  have hfunction := hkept.mp hsame _ hlast
  rw [hbefore] at hfunction
  cases hfunction

/-- A call may change a global that no statement stores in the course of it. -/
theorem exists_call_changing_global : ¬∀ (src : String) (source : List Source.Surface)
    (tree : List (Expr Symbol)) (p : Program) (m m' : Machine) (trail : List Machine) (g : Nat),
    Source.parse src = .ok source → resolve source = .ok tree → ofTree tree = .ok p →
    Machine.Reachable p m → m.Returns trail m' → g ∈ outsideIds tree →
    (∀ x ∈ trail, x.current? = some (.store g) → ∃ s ∈ functionSites tree, s.InPrologue x.ip) →
    m'.memory.globals.get? g = m.memory.globals.get? g := by
  intro hkeeps
  obtain ⟨source, hparse, hresolve, hcompile⟩ := sampleAlias_compiled
  obtain ⟨m, trail, m', hm, hreturns, hbefore, hquiet, -, hafter⟩ := sampleAlias_returns
  have hsame := hkeeps _ _ _ _ _ _ _ 0 hparse hresolve hcompile hm hreturns (by decide) hquiet
  rw [hbefore, hafter] at hsame
  cases hsame

end Program

end ExactScript
