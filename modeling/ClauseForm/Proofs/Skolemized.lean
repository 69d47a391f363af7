import ClauseForm.Proofs.NormalForm
import ClauseForm.Proofs.Semantics
import ClauseForm.Skolemized

/-! Witnesses can be chosen so that formulas stay true, and formulas with witnesses say no less. -/

namespace ClauseForm

section FreshWitness

variable {symbols after : SymbolTable} {scope : List Variable} {term : Term}

/-- A witness is a constant where nothing is in scope, and an application to the scope elsewhere. -/
theorem freshWitness_cases (made : symbols.freshWitness scope = (term, after)) :
    after = symbols.freshSkolem.2 ∧
      (scope = [] ∧ term = .const symbols.freshSkolem.1.constant ∨
        term = .app { symbols.freshSkolem.1.function with arity := scope.length }
          (scope.map .var)) := by
  -- Both forms come from one new Skolem symbol.
  by_cases empty : scope.isEmpty = true
  · simp only [SymbolTable.freshWitness, if_pos empty, Prod.mk.injEq] at made
    exact ⟨made.2.symm, Or.inl ⟨List.isEmpty_iff.mp empty, made.1.symm⟩⟩
  · simp only [SymbolTable.freshWitness, if_neg empty, Prod.mk.injEq] at made
    exact ⟨made.2.symm, Or.inr made.1.symm⟩

/-- Making a witness keeps the name of every symbol. -/
theorem freshWitness_grows (made : symbols.freshWitness scope = (term, after)) :
    symbols.Grows after := by
  rw [(freshWitness_cases made).1]
  exact symbols.grows_freshSkolem

/-- The variables of a witness are those in scope. -/
theorem freshWitness_vars (made : symbols.freshWitness scope = (term, after)) :
    term.vars = scope := by
  -- A constant has no variables, and an application has those in scope.
  rcases (freshWitness_cases made).2 with ⟨empty, rfl⟩ | rfl
  · rw [empty, Term.vars_const]
  · simp [List.flatMap_map]

/-- A witness over known variables is known. -/
theorem freshWitness_known (made : symbols.freshWitness scope = (term, after))
    (known : ∀ x ∈ scope, symbols.Knows x) : term.Known after := by
  -- The new symbol is known from now on, and the variables were known before.
  have grows := freshWitness_grows made
  obtain ⟨rfl, ⟨_, rfl⟩ | rfl⟩ := freshWitness_cases made
  · exact symbols.freshSkolem_new.1.2
  · refine (Term.known_app _ _ _).mpr ⟨symbols.freshSkolem_new.2.2, fun t member => ?_⟩
    obtain ⟨x, inside, rfl⟩ := List.mem_map.mp member
    exact grows.knows (known x inside)

/-- The new symbol of a witness can be given any dependence on the variables in scope. -/
theorem freshWitness_meaning {m : Structure} (made : symbols.freshWitness scope = (term, after))
    (first : Meanings m.Domain) (choice : List m.Domain → m.Domain) :
    ∃ second : Meanings m.Domain, first.DifferOnNew symbols after second ∧
      ∀ values, term.value (m.reinterpret second) values = choice (scope.map values) := by
  classical
  obtain ⟨rfl, ⟨rfl, rfl⟩ | rfl⟩ := freshWitness_cases made
  · -- A constant stands for what is chosen where there is nothing to depend on.
    refine ⟨{ first with
      constant := fun c => if c = symbols.freshSkolem.1.constant then choice []
        else first.constant c }, ⟨fun c old => if_neg ?_, fun _ _ => rfl⟩, fun values => ?_⟩
    · rintro rfl
      exact old symbols.freshSkolem_new.1
    · exact if_pos rfl
  · -- A function maps the values of the variables in scope to what is chosen for them.
    refine ⟨{ first with
      function := fun f => if f = { symbols.freshSkolem.1.function with arity := scope.length }
        then choice else first.function f }, ⟨fun _ _ => rfl, fun f old => if_neg ?_⟩,
      fun values => ?_⟩
    · rintro rfl
      exact old symbols.freshSkolem_new.2
    · rw [Term.value_app, List.map_map]
      exact congrFun (if_pos rfl) _

end FreshWitness

/-- A variable is in scope if it was before or has been added. -/
theorem mem_extendScope {scope : List Variable} {x y : Variable} :
    y ∈ extendScope scope x ↔ y ∈ scope ∨ y = x := by
  -- A variable that is listed already is not listed again.
  rw [extendScope]
  split
  · rename_i listed
    exact ⟨Or.inl, fun inside => inside.elim (fun inside => inside) fun same => same ▸ listed⟩
  · rw [List.mem_append, List.mem_singleton]

namespace Formula

/--
How the existential quantifiers in front of a formula give way to witnesses from the outside in.
The symbols and the formula in the end are those that come last.
-/
inductive Skolemizes :
    SymbolTable → List Variable → Formula → SymbolTable → Formula → Prop
  | existential {symbols after final : SymbolTable} {scope : List Variable} {x : Variable}
      {f g : Formula} {term : Term} (made : symbols.freshWitness scope = (term, after))
      (rest : Skolemizes after scope (f.substitute x term) final g) :
    Skolemizes symbols scope (.quantified .existential x f) final g
  | universal {symbols final : SymbolTable} {scope : List Variable} {x : Variable} {f g : Formula}
      (rest : Skolemizes symbols (extendScope scope x) f final g) :
    Skolemizes symbols scope (.quantified .universal x f) final (.quantified .universal x g)
  | done {symbols : SymbolTable} {scope : List Variable} {f : Formula}
      (plain : f.isQuantified = false) : Skolemizes symbols scope f symbols f

/-- The function that replaces existential quantifiers goes through these steps. -/
theorem skolemizes (f : Formula) (scope : List Variable) (symbols : SymbolTable) :
    Skolemizes symbols scope f (f.skolemizeIn scope symbols).symbols
      (f.skolemizeIn scope symbols).formula := by
  -- The cases of the function are the steps.
  fun_induction skolemizeIn f scope symbols with
  | case1 x f scope symbols term after made rest ih => exact .existential made ih
  | case2 x f scope symbols rest ih => exact .universal ih
  | case3 f scope symbols existential universal =>
    refine .done ?_
    cases f with
    | quantified q x f =>
      cases q with
      | existential => exact (existential x f rfl).elim
      | universal => exact (universal x f rfl).elim
    | _ => rfl

namespace Skolemizes

variable {f g : Formula} {scope : List Variable} {symbols final : SymbolTable}
  (steps : Skolemizes symbols scope f final g)

include steps

/-- Replacing existential quantifiers by witnesses keeps the name of every symbol. -/
theorem grows : symbols.Grows final := by
  -- Only the making of a witness changes the table.
  induction steps with
  | existential made _ ih => exact (freshWitness_grows made).trans ih
  | universal _ ih => exact ih
  | done plain => exact .refl _

/-- Witnesses over known variables keep a formula known. -/
theorem known (known : f.Known symbols) (inScope : ∀ x ∈ scope, symbols.Knows x) :
    g.Known final := by
  -- A witness is known once it has been made.
  induction steps with
  | existential made _ ih =>
    have grows := freshWitness_grows made
    exact ih ((known.2.grows grows).substitute (freshWitness_known made inScope))
      fun y inside => grows.knows (inScope y inside)
  | universal rest ih =>
    refine ⟨rest.grows.knows known.1, ih known.2 fun y inside => ?_⟩
    rcases mem_extendScope.mp inside with inside | rfl
    · exact inScope y inside
    · exact known.1
  | done plain => exact known

/-- The quantifiers that are left are some of those that were there. -/
theorem binders_sublist : g.binders.Sublist f.binders := by
  -- A step leaves out one quantifier or none.
  induction steps with
  | existential made _ ih =>
    rw [binders_substitute] at ih
    exact ih.trans (List.sublist_cons_self _ _)
  | universal _ ih => exact ih.cons_cons _
  | done plain => exact .refl _

/-- Negation normal form is kept. -/
theorem isNegationNormal (normal : f.isNegationNormal = true) : g.isNegationNormal = true := by
  -- Neither a term for a variable nor a quantifier in front matters for the form.
  induction steps with
  | existential made _ ih => exact ih ((sameShape_substitute _ _ _).isNegationNormal ▸ normal)
  | universal _ ih => exact ih normal
  | done plain => exact normal

/-- Prenex form is kept, and all existential quantifiers of a prenex formula are replaced. -/
theorem isPrenex (prenex : f.isPrenex = true) : g.isPrenex = true ∧ g.isSkolemized = true := by
  -- Only the quantifiers in front are changed.
  induction steps with
  | existential made _ ih => exact ih ((sameShape_substitute _ _ _).isPrenex ▸ prenex)
  | universal _ ih =>
    obtain ⟨below, skolemized⟩ := ih prenex
    refine ⟨below, ?_⟩
    simpa [isSkolemized, binders] using skolemized
  | @done _ _ f plain =>
    -- A prenex formula that does not begin with a quantifier has none at all.
    refine ⟨prenex, isSkolemized_of_isQuantifierFree ?_⟩
    cases f with
    | atom a => rfl
    | not f => exact prenex
    | binary op l r => exact prenex
    | quantified q x f => cases plain

/-- Variables that are free in the end were free before or in scope. -/
theorem mem_free {z : Variable} (free : z ∈ g.freeVariables) :
    z ∈ f.freeVariables ∨ z ∈ scope := by
  -- Witnesses may only bring in variables that are in scope.
  induction steps with
  | existential made _ ih =>
    rcases ih free with free | inside
    · -- A witness brings in the variables in scope only.
      rcases mem_free_substitute free with old | part
      · exact Or.inl (mem_free_quantified.mpr old)
      · exact Or.inr (freshWitness_vars made ▸ part)
    · exact Or.inr inside
  | universal _ ih =>
    obtain ⟨free, unbound⟩ := mem_free_quantified.mp free
    rcases ih free with old | inside
    · exact Or.inl (mem_free_quantified.mpr ⟨old, unbound⟩)
    · exact (mem_extendScope.mp inside).elim Or.inr fun same => absurd same unbound
  | done plain => exact Or.inl free

/-- Variables stay apart if none in scope is bound. -/
theorem apart (apart : f.Apart) (outside : ∀ x ∈ scope, x ∉ f.boundVariables) : g.Apart := by
  -- What is bound was bound before, and what is free was free before or is in scope.
  have fewer := steps.binders_sublist.map Prod.snd
  refine ⟨fewer.nodup apart.distinct, fun x bound free => ?_⟩
  have bound : x ∈ f.boundVariables := fewer.mem bound
  rcases steps.mem_free free with old | inside
  · exact apart.unfree x bound old
  · exact outside x inside bound

/-- A formula holds wherever it holds with terms for its existential variables. -/
theorem holds_of {m : Structure} {values : Variable → m.Domain}
    (distinct : f.boundVariables.Nodup) (outside : ∀ x ∈ scope, x ∉ f.boundVariables)
    (holds : g.Holds m values) : f.Holds m values := by
  -- Quantifiers are put back from the inside out.
  induction steps generalizing values with
  | @existential _ _ _ scope x f g term made _ ih =>
    rw [boundVariables, binders_substitute] at ih
    obtain ⟨unbound, distinct⟩ := List.nodup_cons.mp (bound_quantified ▸ distinct)
    simp only [bound_quantified, List.mem_cons, not_or] at outside
    have held := ih distinct (fun y inside => (outside y inside).2) holds
    -- The value of the witness is an element that the quantifier asks for.
    refine ⟨term.value m values, (holds_substitute fun y part => ?_).mp held⟩
    exact (outside y (freshWitness_vars made ▸ part)).2
  | universal _ ih =>
    obtain ⟨unbound, distinct⟩ := List.nodup_cons.mp (bound_quantified ▸ distinct)
    simp only [bound_quantified, List.mem_cons, not_or] at outside
    -- Below a universal quantifier its variable is in scope, and it is not bound again.
    refine fun d => ih distinct (fun y inside => ?_) (holds d)
    rcases mem_extendScope.mp inside with inside | rfl
    · exact (outside y inside).2
    · exact unbound
  | done plain => exact holds

end Skolemizes

/-- Elements can be chosen by the values of the variables in scope where the others are fixed. -/
theorem exists_choice {m : Structure} (base : Variable → m.Domain) (scope : List Variable)
    (p : (Variable → m.Domain) → m.Domain → Prop) :
    ∃ choice : List m.Domain → m.Domain, ∀ values, (∀ y, y ∉ scope → values y = base y) →
      (∃ d, p values d) → p values (choice (scope.map values)) := by
  have := m.inhabited
  -- Two assignments with the same values in scope are the same.
  have one (ds : List m.Domain) : ∃ d, ∀ values, (∀ y, y ∉ scope → values y = base y) →
      scope.map values = ds → (∃ d, p values d) → p values d := by
    by_cases found : ∃ values, (∀ y, y ∉ scope → values y = base y) ∧
        scope.map values = ds ∧ ∃ d, p values d
    · obtain ⟨values, fixed, listed, d, chosen⟩ := found
      refine ⟨d, fun others same map _ => ?_⟩
      have equal : others = values := by
        funext y
        by_cases inside : y ∈ scope
        · exact List.map_inj_left.mp (map.trans listed.symm) y inside
        · rw [same y inside, fixed y inside]
      exact equal ▸ chosen
    · exact ⟨Classical.choice this, fun values fixed map some =>
        absurd ⟨values, fixed, map, some⟩ found⟩
  obtain ⟨choice, chosen⟩ := Classical.axiomOfChoice one
  exact ⟨choice, fun values fixed some => chosen _ values fixed rfl some⟩

/--
The new symbols can be given meanings that keep a formula true at all assignments that differ from
one of them in the variables in scope only.
-/
theorem Skolemizes.exists_meanings {f g : Formula} {scope : List Variable}
    {symbols final : SymbolTable} (steps : Skolemizes symbols scope f final g) {m : Structure}
    (known : f.Known symbols) (inScope : ∀ x ∈ scope, symbols.Knows x)
    (distinct : f.boundVariables.Nodup) (outside : ∀ x ∈ scope, x ∉ f.boundVariables)
    (base : Variable → m.Domain) (first : Meanings m.Domain) :
    ∃ second : Meanings m.Domain, first.DifferOnNew symbols final second ∧
      ∀ values, (∀ y, y ∉ scope → values y = base y) → f.Holds (m.reinterpret first) values →
        g.Holds (m.reinterpret second) values := by
  -- The induction is on the steps, and later witnesses are chosen after the first one.
  induction steps generalizing first with
  | @existential _ _ _ scope x f g term made rest ih =>
    have grows := freshWitness_grows made
    rw [boundVariables, binders_substitute] at ih
    obtain ⟨unbound, distinct⟩ := List.nodup_cons.mp (bound_quantified ▸ distinct)
    simp only [bound_quantified, List.mem_cons, not_or] at outside
    -- The witness takes the value of an element that the quantifier asks for.
    obtain ⟨choice, chosen⟩ := exists_choice (m := m) base scope fun values d =>
      f.Holds (m.reinterpret first) (assign values x d)
    obtain ⟨middle, differ, value⟩ := freshWitness_meaning made first choice
    -- The rest of the prefix is treated with that meaning of the witness.
    obtain ⟨second, further, keeps⟩ := ih
      ((known.2.grows grows).substitute (freshWitness_known made inScope))
      (fun y inside => grows.knows (inScope y inside)) distinct
      (fun y inside => (outside y inside).2) middle
    refine ⟨second, differ.trans further grows rest.grows,
      fun values fixed holds => keeps values fixed ?_⟩
    rw [holds_substitute fun y part => (outside y (freshWitness_vars made ▸ part)).2, value,
      holds_reinterpret differ.agree known.2]
    exact chosen values fixed holds
  | @universal _ _ scope x f g _ ih =>
    obtain ⟨unbound, distinct⟩ := List.nodup_cons.mp (bound_quantified ▸ distinct)
    simp only [bound_quantified, List.mem_cons, not_or] at outside
    obtain ⟨second, differ, keeps⟩ := ih known.2
      (fun y inside => (mem_extendScope.mp inside).elim (inScope y) fun same => same ▸ known.1)
      distinct
      (fun y inside => (mem_extendScope.mp inside).elim (fun old => (outside y old).2)
        fun same => same ▸ unbound) first
    refine ⟨second, differ, fun values fixed holds d =>
      keeps (assign values x d) (fun y unlisted => ?_) (holds d)⟩
    -- The variable passed is in scope below its quantifier.
    rw [mem_extendScope, not_or] at unlisted
    rw [assign_of_ne unlisted.2, fixed y unlisted.1]
  | done plain => exact ⟨first, .refl _ _ first, fun values _ holds => holds⟩

section Lists

variable {fs : List Formula} {symbols : SymbolTable}

/-- Witnesses for several formulas keep the name of every symbol. -/
theorem skolemizeAll_grows (fs : List Formula) (symbols : SymbolTable) :
    symbols.Grows (skolemizeAll fs symbols).2 := by
  -- The table that one formula leaves is the one that the next finds.
  induction fs generalizing symbols with
  | nil => exact .refl symbols
  | cons f fs ih => exact (f.skolemizes [] symbols).grows.trans (ih _)

/-- Each formula gets its witnesses at some time between the first and the last table. -/
theorem skolemizeAll_spec (fs : List Formula) (symbols : SymbolTable) :
    List.Forall₂ (fun f done => ∃ before, symbols.Grows before ∧
      Skolemizes before [] f done.symbols done.formula ∧
      done.symbols.Grows (skolemizeAll fs symbols).2) fs (skolemizeAll fs symbols).1 := by
  -- The table is handed on from each formula to the next one.
  induction fs generalizing symbols with
  | nil => exact .nil
  | cons f fs ih =>
    have first := f.skolemizes [] symbols
    refine .cons ⟨symbols, .refl symbols, first, skolemizeAll_grows fs _⟩ ((ih _).imp ?_)
    rintro g done ⟨before, past, steps, future⟩
    exact ⟨before, first.grows.trans past, steps, future⟩

/-- Closed formulas that are true stay so together with suitable meanings of the new symbols. -/
theorem skolemizeAll_meanings {m : Structure} (known : ∀ f ∈ fs, f.Known symbols)
    (closed : ∀ f ∈ fs, f.freeVariables = []) (apart : ∀ f ∈ fs, f.Apart)
    (first : Meanings m.Domain) (holds : ∀ f ∈ fs, f.TrueIn (m.reinterpret first)) :
    ∃ second : Meanings m.Domain,
      first.DifferOnNew symbols (skolemizeAll fs symbols).2 second ∧
      ∀ done ∈ (skolemizeAll fs symbols).1, done.formula.TrueIn (m.reinterpret second) := by
  -- The witnesses of one formula are given meanings before those of the others.
  induction fs generalizing symbols first with
  | nil => exact ⟨first, .refl _ _ first, by simp [skolemizeAll]⟩
  | cons f fs ih =>
    simp only [List.mem_cons, forall_eq_or_imp] at known closed apart holds
    have steps := f.skolemizes [] symbols
    have := m.inhabited
    let base : Variable → m.Domain := fun _ => Classical.choice this
    -- The first formula has no free variable, and so it is enough to look at one assignment.
    obtain ⟨middle, differ, keeps⟩ :=
      steps.exists_meanings known.1 (by simp) apart.1.distinct (by simp) base first
    have unfree : (f.skolemizeIn [] symbols).formula.freeVariables = [] := by
      refine List.eq_nil_iff_forall_not_mem.mpr fun z free => ?_
      rcases steps.mem_free free with old | inside
      · exact List.not_mem_nil (closed.1 ▸ old)
      · exact List.not_mem_nil inside
    have begun : (f.skolemizeIn [] symbols).formula.TrueIn (m.reinterpret middle) :=
      trueIn_of_closed unfree (keeps base (fun _ _ => rfl) (holds.1 base))
    -- Its witnesses do not occur in the other formulas, nor theirs in it.
    obtain ⟨second, further, rest⟩ := ih (fun g listed => (known.2 g listed).grows steps.grows)
      closed.2 apart.2 middle fun g listed =>
        (trueIn_reinterpret differ.agree (known.2 g listed)).mpr (holds.2 g listed)
    refine ⟨second, differ.trans further steps.grows (skolemizeAll_grows fs _), ?_⟩
    refine List.forall_mem_cons.mpr ⟨?_, rest⟩
    exact (trueIn_reinterpret further.agree (steps.known known.1 (by simp))).mpr begun

end Lists

end Formula

end ClauseForm
