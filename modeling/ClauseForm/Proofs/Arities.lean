import ClauseForm.Proofs.Instances
import ClauseForm.Proofs.NamedForms

/-! Symbols keep as many arguments as their arities say when formulas are turned into clauses. -/

namespace ClauseForm

section Replacing

variable {values : Variable → Term} (parts : ∀ x, (values x).hasFittingArities = true)

include parts

/-- Terms in place of variables leave every symbol with its arguments. -/
theorem Term.hasFittingArities_bind {t : Term} (fits : t.hasFittingArities = true) :
    (t.bind values).hasFittingArities = true := by
  -- An application has as many arguments as before.
  induction t with
  | var x => exact parts x
  | const c => rfl
  | app f args ih =>
    rw [hasFittingArities_app] at fits
    rw [bind_app, hasFittingArities_app, List.length_map]
    exact ⟨fits.1, List.forall_mem_map.mpr fun t listed => ih t listed (fits.2 t listed)⟩

/-- Terms in place of the variables of an atom leave every symbol with its arguments. -/
theorem Atom.hasFittingArities_bind {a : Atom} (fits : a.hasFittingArities = true) :
    (a.bind values).hasFittingArities = true := by
  -- The predicate keeps the number of its arguments.
  obtain ⟨arity, each⟩ := hasFittingArities_iff.mp fits
  have arguments : ∀ t ∈ a.args.map (Term.bind values), t.hasFittingArities = true :=
    List.forall_mem_map.mpr fun t listed => Term.hasFittingArities_bind parts (each t listed)
  exact hasFittingArities_iff.mpr ⟨arity.trans (List.length_map _).symm, arguments⟩

end Replacing

/-- A term that is not deep has no symbol that takes arguments. -/
theorem Term.hasFittingArities_of_flat {t : Term} (flat : t.depth ≤ 0) :
    t.hasFittingArities = true := by
  -- Only an application takes arguments, and it is deeper than that.
  cases t with
  | var | const => rfl
  | app f args =>
    have deep := (depth_app_le_iff.mp flat).1
    omega

/-- Variables and constants in place of variables leave every symbol with its arguments. -/
theorem Atom.Instance.hasFittingArities {a b : Atom} (related : a.Instance 0 b)
    (fits : a.hasFittingArities = true) : b.hasFittingArities = true := by
  -- The terms that such an instance puts in place are flat.
  obtain ⟨values, flat, rfl⟩ := related
  exact hasFittingArities_bind (fun x => Term.hasFittingArities_of_flat (flat x)) fits

/-- A witness is applied to as many variables as are in scope. -/
theorem hasFittingArities_freshWitness {symbols after : SymbolTable} {scope : List Variable}
    {term : Term} (made : symbols.freshWitness scope = (term, after)) :
    term.hasFittingArities = true := by
  -- A witness is a constant, or an application to the variables in scope.
  rcases (freshWitness_cases made).2 with ⟨-, rfl⟩ | rfl
  · rfl
  · -- The arity of the new function is set to the length of the scope.
    rw [Term.hasFittingArities_app, List.length_map]
    exact ⟨rfl, List.forall_mem_map.mpr fun x _ => rfl⟩

namespace Formula

variable {f g : Formula}

/-- The arities of a formula are those of its atoms. -/
theorem hasFittingArities_iff :
    f.hasFittingArities = true ↔ ∀ a ∈ f.atoms, a.hasFittingArities = true := by
  -- Symbols with arguments occur in atoms only.
  induction f with
  | atom a => simp [hasFittingArities, atoms]
  | not f ih => exact ih
  | binary op l r left right =>
    simp only [hasFittingArities, Bool.and_eq_true, atoms, List.forall_mem_append, left, right]
  | quantified q x f ih => exact ih

/-- Replacing a variable by a term that fits leaves every symbol with its arguments. -/
theorem hasFittingArities_substitute {x : Variable} {value : Term}
    (fits : f.hasFittingArities = true) (part : value.hasFittingArities = true) :
    (f.substitute x value).hasFittingArities = true := by
  rw [hasFittingArities_iff] at fits ⊢
  intro a member
  -- Below a quantifier over the variable itself an atom may have stayed as it was.
  obtain ⟨b, source, rfl | rfl⟩ := exists_of_mem_atoms_substitute member
  · exact fits a source
  · refine Atom.hasFittingArities_bind (fun y => ?_) (fits b source)
    -- The variable itself gives way to the term, and all others stay.
    by_cases same : y = x
    · rwa [same, assign_same]
    · rw [assign_of_ne same]
      rfl

/-- Symbols that are given out as witnesses have the arities that their uses need. -/
theorem Skolemizes.hasFittingArities {scope : List Variable} {symbols final : SymbolTable}
    (steps : Skolemizes symbols scope f final g) (fits : f.hasFittingArities = true) :
    g.hasFittingArities = true := by
  -- Each existential quantifier puts one witness in place.
  induction steps with
  | existential made _ ih =>
    exact ih (hasFittingArities_substitute fits (hasFittingArities_freshWitness made))
  | universal _ ih => exact ih fits
  | done => exact fits

end Formula

namespace Draft

variable {order : PrenexOrder} {d : Draft} {stage : Stage} {count : Nat}

/-- Every stage leaves all symbols with the arguments that their arities ask for. -/
theorem hasFittingArities_after (prepared : d.Prepared order stage.number)
    (fits : ∀ f ∈ d.formulas, f.hasFittingArities = true) :
    ∀ g ∈ (d.after order stage).formulas, g.hasFittingArities = true := by
  by_cases fifth : stage = .skolemization
  · -- Only here do terms with arguments take the place of variables.
    subst fifth
    have spec := Formula.skolemizeAll_spec d.formulas d.symbols
    refine List.forall_mem_map.mpr (forall_of_forall₂_right spec ?_)
    rintro f listed done ⟨before, past, steps, future⟩
    exact steps.hasFittingArities (fits f listed)
  · -- All other stages make instances that are as deep as before.
    have related := instances_after prepared
    rw [if_neg fifth] at related
    intro g listed
    rw [Formula.hasFittingArities_iff]
    -- An atom is an instance of one that was there before, and that one fits.
    intro b inside
    obtain ⟨a, source, made⟩ := related.made b (List.mem_flatMap.mpr ⟨g, listed, inside⟩)
    obtain ⟨f, member, part⟩ := List.mem_flatMap.mp source
    exact made.hasFittingArities (Formula.hasFittingArities_iff.mp (fits f member) a part)

/-- Any number of stages leaves all symbols with the arguments that their arities ask for. -/
theorem hasFittingArities_afterFirst (known : ∀ f ∈ d.formulas, f.Known d.symbols)
    (fits : ∀ f ∈ d.formulas, f.hasFittingArities = true)
    (within : count ≤ Stage.formulaStages.length) :
    ∀ g ∈ (d.afterFirst order count).formulas, g.hasFittingArities = true :=
  prepared_induct known within
    (motive := fun _ e => ∀ g ∈ e.formulas, g.hasFittingArities = true) fits
    fun _ _ prepared before => hasFittingArities_after prepared before

end Draft

/-- The clauses of a run have fitting arities if its formulas have. -/
theorem hasFittingArities_clauses {config : Config} {clock : Clock} {formulas : List Formula}
    {symbols : SymbolTable} {sink : Sink} {result : Normalized}
    (known : ∀ f ∈ formulas, f.Known symbols)
    (fits : ∀ f ∈ formulas, f.hasFittingArities = true)
    (succeeded : (normalize config clock formulas symbols sink).result = .ok result) :
    ∀ c ∈ result.clauses, ∀ a ∈ c.atoms, a.hasFittingArities = true := by
  -- The formulas in the end have passed through eight stages.
  have staged : ∀ g ∈ result.formulas, g.hasFittingArities = true := by
    rw [formulas_normalize succeeded]
    exact Draft.hasFittingArities_afterFirst (d := { formulas, symbols }) known fits (by decide)
  intro c listed a inside
  -- Every atom of a clause stands in the formula that the clause comes from.
  have source := (mem_atoms_extractClauses (normalize_ok succeeded).1).mp
    (List.mem_flatMap.mpr ⟨c, listed, inside⟩)
  obtain ⟨g, member, part⟩ := List.mem_flatMap.mp source
  exact Formula.hasFittingArities_iff.mp (staged g member) a part

end ClauseForm
