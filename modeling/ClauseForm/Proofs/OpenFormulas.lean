import ClauseForm.Proofs.Closure
import ClauseForm.Proofs.Satisfiability

/-! Clauses of formulas with free variables beside those of the same formulas closed. -/

namespace ClauseForm

/-- Clauses that are all true in one structure. -/
def Clause.Satisfiable (cs : List Clause) : Prop := ∃ m : Structure, ∀ c ∈ cs, c.TrueIn m

/-- Negation normal form of a formula with its variables kept apart, from which quantifiers move. -/
def Formula.standardForm (f : Formula) (symbols : SymbolTable) : Formula × Naming :=
  f.pushNegation.standardize symbols

namespace Formula

variable {f : Formula} {symbols : SymbolTable}

/-- The standard form is the negation normal form with other bound variables. -/
theorem standardForm_renamed (known : f.Known symbols) :
    Renamed (f.standardForm symbols).2.symbols f.pushNegation (f.standardForm symbols).1 :=
  standardize_renamed (known.signed true)

/-- The standard form keeps its variables apart. -/
theorem standardForm_apart (known : f.Known symbols) : (f.standardForm symbols).1.Apart :=
  standardize_apart (known.signed true)

/-- The standard form is in negation normal form. -/
theorem isNegationNormal_standardForm (known : f.Known symbols) :
    (f.standardForm symbols).1.isNegationNormal = true :=
  (standardForm_renamed known).shape.isNegationNormal ▸ f.isNegationNormal_pushNegation

/-- The standard form has the free variables of the formula. -/
theorem mem_free_standardForm (known : f.Known symbols) {z : Variable} :
    z ∈ (f.standardForm symbols).1.freeVariables ↔ z ∈ f.freeVariables :=
  ((standardForm_renamed known).free z).trans (mem_free_signed true)

/-- No variable that is free in the formula is bound in its standard form. -/
theorem standardForm_unbound (known : f.Known symbols) {y : Variable}
    (free : y ∈ f.freeVariables) : y ∉ (f.standardForm symbols).1.boundVariables :=
  fun bound => (standardForm_apart known).unfree y bound ((mem_free_standardForm known).mpr free)

end Formula

namespace Draft

variable {order : PrenexOrder} {d : Draft}

/-- Once existential quantifiers have given way to witnesses, stages keep what is true. -/
theorem trueIn_afterFirst_iff (known : ∀ f ∈ d.formulas, f.Known d.symbols) {m : Structure}
    {count : Nat} (late : 5 ≤ count) (within : count ≤ Stage.formulaStages.length) :
    (∀ g ∈ (d.afterFirst order count).formulas, g.TrueIn m) ↔
      ∀ g ∈ (d.afterFirst order 5).formulas, g.TrueIn m := by
  -- Each further stage is sound, and loses nothing either.
  induction count, late using Nat.le_induction with
  | base => exact Iff.rfl
  | succ count late ih =>
    have number := Stage.number_formulaStages within
    have prepared : (d.afterFirst order count).Prepared order Stage.formulaStages[count].number :=
      number ▸ prepared_afterFirst known (by omega)
    have ready : (d.afterFirst order count).Ready order Stage.formulaStages[count].number :=
      ⟨fun early => by omega, fun early => by omega⟩
    -- The stage that makes witnesses is the fifth one.
    have other : Stage.formulaStages[count] ≠ .skolemization := by
      intro same
      rw [same] at number
      have fifth : 5 = count + 1 := number
      omega
    rw [afterFirst_succ within, ← ih (by omega)]
    exact ⟨trueIn_of_after prepared, trueIn_after prepared ready other⟩

/-- What the first five stages make of one formula. -/
theorem formulas_afterFirst_five (order : PrenexOrder) (f : Formula) (symbols : SymbolTable) :
    (afterFirst order { formulas := [f], symbols } 5).formulas =
      [(((f.standardForm symbols).1.toPrenex order).skolemize
        (f.standardForm symbols).2.symbols).formula] := by
  -- Moving negations inwards makes the same of a formula with its implications written out.
  have normal : f.eliminateImplications.pushNegation = f.pushNegation :=
    f.signed_eliminateImplications true
  rw [Formula.standardForm, ← normal]
  rfl

end Draft

section Clauses

variable {config : Config} {clock : Clock} {f : Formula} {symbols : SymbolTable} {sink : Sink}
  {result : Normalized} {ys : List Variable}

/-- The clauses of a formula are true where its form with witnesses is. -/
theorem trueIn_clauses_iff (known : f.Known symbols)
    (succeeded : (normalize config clock [f] symbols sink).result = .ok result) {m : Structure} :
    (∀ c ∈ result.clauses, c.TrueIn m) ↔
      (((f.standardForm symbols).1.toPrenex config.prenexOrder).skolemize
        (f.standardForm symbols).2.symbols).formula.TrueIn m := by
  -- From the fifth stage on, what is true stays true and nothing else becomes so.
  have extracted := (normalize_ok succeeded).1
  have same := formulas_normalize succeeded
  have listed : ∀ g ∈ [f], g.Known symbols := by simpa using known
  rw [Formula.trueIn_extractClauses extracted, same,
    Draft.trueIn_afterFirst_iff listed (by decide) (by decide), Draft.formulas_afterFirst_five,
    List.forall_mem_singleton]

/--
The clauses of a formula are satisfiable just if its prenex form is, with universal quantifiers over
the free variables below all others.
-/
theorem satisfiable_clauses_iff (known : f.Known symbols) (distinct : ys.Nodup)
    (free : ∀ y, y ∈ ys ↔ y ∈ f.freeVariables)
    (succeeded : (normalize config clock [f] symbols sink).result = .ok result) :
    Clause.Satisfiable result.clauses ↔ ∃ m : Structure,
      ((f.standardForm symbols).1.toPrenexOver config.prenexOrder ys).TrueIn m := by
  -- The prenex form with further quantifiers is closed and keeps its variables apart.
  have renamed := Formula.standardForm_renamed known
  have apart := Formula.standardForm_apart known
  have same : ∀ z, z ∈ ys ↔ z ∈ (f.standardForm symbols).1.freeVariables :=
    fun z => (free z).trans (Formula.mem_free_standardForm known).symm
  have unbound : ∀ y ∈ ys, y ∉ (f.standardForm symbols).1.boundVariables :=
    fun y inside => Formula.standardForm_unbound known ((free y).mp inside)
  have listed : ∀ y ∈ ys, (f.standardForm symbols).2.symbols.Knows y :=
    fun y inside => renamed.known.free y ((same y).mp inside)
  have covers := fun z => (same z).mpr
  -- The free variables are read as universal once the witnesses have been made.
  calc Clause.Satisfiable result.clauses
      ↔ ∃ m : Structure, (((f.standardForm symbols).1.toPrenex config.prenexOrder).skolemize
          (f.standardForm symbols).2.symbols).formula.TrueIn m :=
        exists_congr fun _ => trueIn_clauses_iff known succeeded
    _ ↔ ∃ m : Structure,
          (((f.standardForm symbols).1.toPrenexOver config.prenexOrder ys).skolemize
            (f.standardForm symbols).2.symbols).formula.TrueIn m :=
        exists_congr fun _ => (Formula.trueIn_skolemize_toPrenexOver apart unbound).symm
    _ ↔ ∃ m : Structure,
          ((f.standardForm symbols).1.toPrenexOver config.prenexOrder ys).TrueIn m :=
        Formula.exists_trueIn_skolemize (renamed.known.toPrenexOver listed)
          (Formula.closed_toPrenexOver covers) (apart.toPrenexOver distinct covers unbound)

/-- The clauses of a closed formula are satisfiable just if its prenex form is. -/
theorem satisfiable_clauses_forAll_iff (known : f.Known symbols) (distinct : ys.Nodup)
    (free : ∀ y, y ∈ ys ↔ y ∈ f.freeVariables)
    (succeeded : (normalize config clock [Formula.forAll ys f] symbols sink).result = .ok result) :
    Clause.Satisfiable result.clauses ↔ ∃ m : Structure,
      ((Formula.forAll ys (f.standardForm symbols).1).toPrenex config.prenexOrder).TrueIn m := by
  -- A closure has no free variable left.
  have closed : ∀ y, y ∈ [] ↔ y ∈ (Formula.forAll ys f).freeVariables := by
    rw [Formula.closed_forAll fun z => (free z).mpr]
    exact fun y => Iff.rfl
  have named : (Formula.forAll ys f).Known symbols :=
    known.forAll fun y listed => known.free y ((free y).mp listed)
  -- The closure is standardized to the closure of the standard form.
  have standard : ((Formula.forAll ys f).standardForm symbols).1 =
      Formula.forAll ys (f.standardForm symbols).1 := by
    rw [Formula.standardForm, Formula.pushNegation_forAll]
    refine Formula.standardize_forAll distinct (fun y => ?_) symbols
    exact (free y).trans (Formula.mem_free_signed true).symm
  rw [satisfiable_clauses_iff named List.nodup_nil closed succeeded, standard,
    Formula.toPrenexOver_nil]

end Clauses

/--
Without limits a formula and its universal closure are both made into clauses. Those of the closure
are satisfiable if those of the formula are. The converse holds if existential quantifiers are put
first, or if in negation normal form none of them has a free variable of the formula in its scope.
-/
theorem normalize_closure {config : Config} (clock : Clock) {f : Formula} {symbols : SymbolTable}
    {sink : Sink} {ys : List Variable} (known : f.Known symbols) (distinct : ys.Nodup)
    (free : ∀ y, y ∈ ys ↔ y ∈ f.freeVariables) (unlimited : config.maxClauses = 0)
    (untimed : config.timeoutMs = none) (reliable : sink.NeverFails) :
    ∃ opened closed : Normalized,
      (normalize config clock [f] symbols sink).result = .ok opened ∧
      (normalize config clock [Formula.forAll ys f] symbols sink).result = .ok closed ∧
      (Clause.Satisfiable opened.clauses → Clause.Satisfiable closed.clauses) ∧
      (config.prenexOrder = .existentialsFirst ∨ f.pushNegation.existentialsAvoid ys = true →
        Clause.Satisfiable closed.clauses → Clause.Satisfiable opened.clauses) := by
  -- Neither a limit nor the sink can stop either of the two runs.
  have within (count : Nat) : config.budget.isExceeded count = false :=
    Budget.isExceeded_unlimited unlimited
  have named : (Formula.forAll ys f).Known symbols :=
    known.forAll fun y listed => known.free y ((free y).mp listed)
  obtain ⟨opened, opens⟩ : ∃ result,
      (normalize config clock [f] symbols sink).result = .ok result :=
    exists_normalize (List.forall_mem_singleton.mpr known) untimed reliable (within _)
  obtain ⟨closed, closes⟩ : ∃ result,
      (normalize config clock [Formula.forAll ys f] symbols sink).result = .ok result :=
    exists_normalize (List.forall_mem_singleton.mpr named) untimed reliable (within _)
  refine ⟨opened, closed, opens, closes, ?_⟩
  -- The two prenex forms differ only in where the universal quantifiers stand.
  rw [satisfiable_clauses_iff known distinct free opens,
    satisfiable_clauses_forAll_iff known distinct free closes]
  refine ⟨fun ⟨m, holds⟩ => ⟨m, Formula.trueIn_toPrenex_forAll holds⟩, ?_⟩
  rintro independent ⟨m, holds⟩
  have unbound : ∀ y ∈ ys, y ∉ (f.standardForm symbols).1.boundVariables :=
    fun y inside => Formula.standardForm_unbound known ((free y).mp inside)
  -- The new names of bound variables bring no other variable into a scope.
  have avoids : f.pushNegation.existentialsAvoid ys = true →
      (f.standardForm symbols).1.existentialsAvoid ys = true :=
    Formula.existentialsAvoid_claimBinders _ (known.signed true) (.refl _) .id
      fun z _ inside => inside
  exact ⟨m, Formula.trueIn_toPrenexOver (Formula.isNegationNormal_standardForm known)
    (Formula.standardForm_apart known) unbound (independent.imp_right avoids) holds⟩

section Properties

/-- Two variables and a property of elements. -/
def propertySymbols : SymbolTable :=
  (((SymbolTable.empty.intern .var "x").2.intern .var "y").2.intern .pred "P").2

/-- What a term stands for has the property. -/
def property (t : Term) : Atom := { predicate := { id := 0, arity := 1 }, args := [t] }

/-- The value of the free variable has the property, or some element has not. -/
def covered : Formula :=
  .or (.atom (property (.var ⟨1⟩)))
    (.quantified .existential ⟨0⟩ (.not (.atom (property (.var ⟨0⟩)))))

/-- With its free variable outside the existential quantifier, it says as much as its closure. -/
theorem normalize_closure_covered : ∃ opened closed : Normalized,
    (normalize { prenexOrder := .preserve } (.still 0) [covered] propertySymbols
      .discarding).result = .ok opened ∧
    (normalize { prenexOrder := .preserve } (.still 0) [Formula.forAll [⟨1⟩] covered]
      propertySymbols .discarding).result = .ok closed ∧
    (Clause.Satisfiable opened.clauses ↔ Clause.Satisfiable closed.clauses) := by
  -- The closure binds the one free variable of the formula.
  have free : ∀ y, y ∈ [(⟨1⟩ : Variable)] ↔ y ∈ covered.freeVariables := by
    have listed : covered.freeVariables = [⟨1⟩] := by decide
    exact fun y => listed ▸ Iff.rfl
  have known : covered.Known propertySymbols := by decide +kernel
  have untimed : ({ prenexOrder := .preserve } : Config).timeoutMs = none := rfl
  have reliable : Sink.discarding.NeverFails := Sink.neverFails_of_isRoomy rfl
  obtain ⟨opened, closed, opens, closes, forth, back⟩ :=
    normalize_closure (.still 0) known (List.nodup_singleton _) free rfl untimed reliable
  exact ⟨opened, closed, opens, closes, forth, back (Or.inr (by decide))⟩

/-- Some element has the property just if the value of the free variable has not. -/
def opposed : Formula :=
  .quantified .existential ⟨0⟩
    (.iff (.atom (property (.var ⟨0⟩))) (.not (.atom (property (.var ⟨1⟩)))))

/-- Two clauses that give the property to what a term stands for or to the value of a variable. -/
def opposition (t : Term) : List Clause :=
  [false, true].map fun positive =>
    { literals := [t, .var ⟨1⟩].map fun t => { positive, atom := property t } }

/-- Such clauses are true where the property never belongs to both or to neither. -/
theorem trueIn_opposition {m : Structure} {t : Term} :
    (∀ c ∈ opposition t, c.TrueIn m) ↔
      ∀ values, (property t).Holds m values ↔ ¬ (property (.var ⟨1⟩)).Holds m values := by
  -- One clause excludes that it belongs to both, and the other that it belongs to neither.
  simp only [opposition, List.map_cons, List.map_nil, List.forall_mem_cons, List.not_mem_nil,
    false_implies, implies_true, and_true, Clause.TrueIn, Clause.Holds, List.exists_mem_cons_iff,
    Literal.Holds, false_and, exists_false, or_false, if_true, Bool.false_eq_true, if_false,
    ← forall_and]
  exact forall_congr' fun values => by tauto

/-- Two elements, one with a property, and a function that takes each of them to the other. -/
def opposites : Structure where
  Domain := Bool
  inhabited := ⟨true⟩
  constant _ := true
  function _ args := args.any (! ·)
  predicate _ args := args.all id = true

/-- No constant is opposed to every element, and so the clauses of the closure say less. -/
theorem normalize_closure_opposed :
    opposed.Known propertySymbols ∧ opposed.freeVariables = [⟨1⟩] ∧
    ∃ opened closed : Normalized,
      (normalize { prenexOrder := .preserve } (.still 0) [opposed] propertySymbols
        .discarding).result = .ok opened ∧
      (normalize { prenexOrder := .preserve } (.still 0) [Formula.forAll [⟨1⟩] opposed]
        propertySymbols .discarding).result = .ok closed ∧
      ¬ Clause.Satisfiable opened.clauses ∧ Clause.Satisfiable closed.clauses := by
  -- The clauses of both runs are computed.
  have first : (normalize { prenexOrder := .preserve } (.still 0) [opposed] propertySymbols
      .discarding).result.toOption.any (·.clauses = opposition (.const ⟨0⟩)) = true := by
    decide +kernel
  have second : (normalize { prenexOrder := .preserve } (.still 0)
      [Formula.forAll [⟨1⟩] opposed] propertySymbols .discarding).result.toOption.any
        (·.clauses = opposition (.app { id := 0, arity := 1 } [.var ⟨1⟩])) = true := by
    decide +kernel
  obtain ⟨opened, opens, constant⟩ := exists_ok_of_any first
  obtain ⟨closed, closes, function⟩ := exists_ok_of_any second
  rw [decide_eq_true_eq] at constant function
  refine ⟨by decide +kernel, by decide, opened, closed, opens, closes, ?_, ?_⟩
  · rw [constant]
    rintro ⟨m, holds⟩
    -- The variable may have the value of the constant itself.
    exact iff_not_self (trueIn_opposition.mp holds fun _ => m.constant ⟨0⟩)
  · rw [function]
    -- Whatever the variable stands for, the function has another value.
    refine ⟨opposites, trueIn_opposition.mpr fun (values : Variable → Bool) => ?_⟩
    show [[values ⟨1⟩].any (! ·)].all id = true ↔ ¬ [values ⟨1⟩].all id = true
    cases values ⟨1⟩ <;> simp

end Properties

end ClauseForm
