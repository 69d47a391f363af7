import ClauseForm.Proofs.Soundness

/-! Nothing but its limits and its sink stops a run, and no stage undoes what others have done. -/

namespace ClauseForm

/--
Without limits, and with a sink that never fails, a run over known formulas succeeds. What each
stage makes has the normal forms of all stages up to it.
-/
theorem normalize_completes (config : Config) (clock : Clock) {formulas : List Formula}
    {symbols : SymbolTable} {sink : Sink} (known : ∀ f ∈ formulas, f.Known symbols)
    (unlimited : config.maxClauses = 0) (untimed : config.timeoutMs = none)
    (reliable : sink.NeverFails) :
    (∃ result, (normalize config clock formulas symbols sink).result = .ok result) ∧
      ∀ count ≤ Stage.formulaStages.length, ∃ p : Progress,
        Progress.advanceFirst config clock { formulas, symbols, sink } count = .ok p ∧
        ∀ stage : Stage, stage.number ≤ count →
          stage.holdsAfter config.prenexOrder p.formulas = true := by
  -- Nothing is above a limit that is not set.
  have within (count : Nat) : config.budget.isExceeded count = false :=
    Budget.isExceeded_unlimited unlimited
  refine ⟨exists_normalize known untimed reliable (within _), fun count stages => ?_⟩
  obtain ⟨p, run, _⟩ : ∃ p, Progress.advanceFirst config clock { formulas, symbols, sink } count =
      .ok p ∧ p.sink.NeverFails :=
    Progress.exists_advanceFirst known untimed reliable stages (Or.inr (within _))
  -- A run makes what the stages make, which is prepared for the stage that follows.
  have prepared : p.draft.Prepared config.prenexOrder (count + 1) := by
    rw [Progress.advanceFirst_ok stages run]
    exact Draft.prepared_afterFirst known stages
  exact ⟨p, run, fun stage early => prepared.forms stage (Nat.lt_succ_of_le early)⟩

/-- A run that is traced, checked and profiled all the way comes to its end. -/
theorem normalize_completes_traced :
    (∃ result, (normalize { trace := true, checkInvariants := true, profiling := true } (.still 0)
      [unbounded, .not unbounded] comparisonSymbols (.recording [])).result = .ok result) ∧
      ∀ count ≤ Stage.formulaStages.length, ∃ p : Progress,
        Progress.advanceFirst { trace := true, checkInvariants := true, profiling := true }
          (.still 0) { formulas := [unbounded, .not unbounded], symbols := comparisonSymbols
                       sink := .recording [] } count = .ok p ∧
        ∀ stage : Stage, stage.number ≤ count →
          stage.holdsAfter .existentialsFirst p.formulas = true :=
  normalize_completes _ _ (by decide +kernel) rfl rfl (Sink.neverFails_of_isRoomy rfl)

end ClauseForm
