import ClauseForm.Proofs.Soundness

/-! The clauses of a run can be counted beforehand, and the limit stops exactly those with more. -/

namespace ClauseForm

/--
Where neither time nor the sink stops a run over known formulas, it makes exactly the clauses that
can be counted beforehand, the same as without a limit, or fails if they are more than the limit.
-/
theorem normalize_counted (config : Config) (clock : Clock) {formulas : List Formula}
    {symbols : SymbolTable} {sink : Sink} (known : ∀ f ∈ formulas, f.Known symbols)
    (untimed : config.timeoutMs = none) (reliable : sink.NeverFails) :
    (config.maxClauses = 0 ∨ Formula.clauseTotal formulas ≤ config.maxClauses →
      ∃ result unlimited,
        (normalize config clock formulas symbols sink).result = .ok result ∧
        (normalize { config with maxClauses := 0 } clock formulas symbols sink).result =
          .ok unlimited ∧
        result.clauses.length = Formula.clauseTotal formulas ∧
        result.formulas = unlimited.formulas ∧ result.clauses = unlimited.clauses) ∧
    (0 < config.maxClauses → config.maxClauses < Formula.clauseTotal formulas →
      (normalize config clock formulas symbols sink).result =
        .error (.clauseLimitExceeded .distribution config.maxClauses)) := by
  -- The limit is compared with the count, on which neither of the two runs has any influence.
  constructor
  · intro within
    have allowed : config.budget.isExceeded (Formula.clauseTotal formulas) = false := by
      rw [← Bool.not_eq_true, Budget.isExceeded_iff]
      show ¬ (0 < config.maxClauses ∧ config.maxClauses < _)
      omega
    obtain ⟨result, succeeded⟩ : ∃ result,
        (normalize config clock formulas symbols sink).result = .ok result :=
      exists_normalize known untimed reliable allowed
    -- Without a limit no number of clauses is refused.
    obtain ⟨unlimited, free⟩ : ∃ unlimited,
        (normalize { config with maxClauses := 0 } clock formulas symbols sink).result =
          .ok unlimited :=
      exists_normalize known untimed reliable (Budget.isExceeded_unlimited rfl)
    obtain ⟨same, clauses⟩ := normalize_unique free succeeded rfl
    exact ⟨result, unlimited, succeeded, free, length_clauses known succeeded, same, clauses⟩
  · -- More clauses than a limit that there is stop the run.
    intro limited more
    exact normalize_exceeded known untimed reliable (Budget.isExceeded_iff.mpr ⟨limited, more⟩)

/-- An equivalence of equivalences, each side of which has two clauses, and its negation four. -/
def nestedEquivalence : Formula :=
  .iff (.iff (less ⟨0⟩ ⟨1⟩) (less ⟨1⟩ ⟨0⟩)) (.iff (less ⟨0⟩ ⟨0⟩) (less ⟨1⟩ ⟨1⟩))

/-- It has sixteen clauses, which a limit of sixteen admits and a limit of fifteen does not. -/
theorem normalize_counted_nestedEquivalence :
    (∃ result, (normalize { maxClauses := 16 } (.still 0) [nestedEquivalence] comparisonSymbols
      .discarding).result = .ok result ∧ result.clauses.length = 16) ∧
    (normalize { maxClauses := 15 } (.still 0) [nestedEquivalence] comparisonSymbols
      .discarding).result = .error (.clauseLimitExceeded .distribution 15) := by
  have known : ∀ f ∈ [nestedEquivalence], f.Known comparisonSymbols := by decide +kernel
  have reliable : Sink.discarding.NeverFails := Sink.neverFails_of_isRoomy rfl
  constructor
  · -- Sixteen clauses are as many as the limit admits.
    have counted := normalize_counted { maxClauses := 16 } (.still 0) known rfl reliable
    obtain ⟨result, _, succeeded, _, length, _⟩ := counted.1 (Or.inr (by decide))
    exact ⟨result, succeeded, length⟩
  · -- One less is admitted here.
    have counted := normalize_counted { maxClauses := 15 } (.still 0) known rfl reliable
    exact counted.2 (by decide) (by decide)

end ClauseForm
