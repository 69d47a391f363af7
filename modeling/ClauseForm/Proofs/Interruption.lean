import ClauseForm.Proofs.Run
import ClauseForm.Proofs.Threads

/-! However a run ends, it leaves the symbols that the stages it has come to have given out. -/

namespace ClauseForm

namespace Progress

/-- Where an attempt to go on has come to, whether it has succeeded or failed. -/
def reached : Except Failure Progress → Progress
  | .ok p => p
  | .error failure => failure.progress

variable {config : Config} {clock : Clock} {stage : Stage} {p : Progress}

/-- A second step that leaves the symbols alone leaves those that the first has come to. -/
theorem symbols_reached_bind {attempt : Except Failure Progress}
    {next : Progress → Except Failure Progress}
    (each : ∀ p, (reached (next p)).symbols = p.symbols) :
    (reached (attempt >>= next)).symbols = (reached attempt).symbols := by
  -- A failure is kept, so that the second step is not reached.
  cases attempt with
  | error failure => rfl
  | ok p => exact each p

/-- Distribution leaves the symbols alone, even if it fails. -/
theorem symbols_distribute : (reached (p.distribute config clock)).symbols = p.symbols := by
  unfold distribute takeDistributed
  split
  · rfl
  · -- Too many clauses in total are reported, and nothing else is done.
    dsimp only
    split <;> rfl

/-- The work of a stage gives out the same symbols whether it succeeds or fails. -/
theorem symbols_perform : (reached (p.perform config clock stage)).symbols =
    (p.draft.after config.prenexOrder stage).symbols := by
  -- Only distribution can fail, and it gives out none.
  cases stage with
  | distribution => exact symbols_distribute
  | _ => rfl

/-- Tracing leaves the symbols alone, even if the sink refuses a section. -/
theorem symbols_trace {lines? : Option (List String)} :
    (reached (p.trace config stage lines?)).symbols = p.symbols := by
  -- Whatever the sink answers, only the sections differ.
  unfold trace
  split
  · split
    · rfl
    · dsimp only
      split <;> rfl
  · rfl

/-- The conclusion of a stage leaves the symbols alone, even if a check fails. -/
theorem symbols_conclude : (reached (p.conclude config clock stage)).symbols = p.symbols := by
  unfold conclude
  refine (symbols_reached_bind fun traced => ?_).trans symbols_trace
  -- Whatever the checks find, the table is handed on.
  split
  · rfl
  · split
    · rfl
    · split <;> rfl

/-- A stage gives out the same symbols whether it succeeds or fails. -/
theorem symbols_advance : (reached (p.advance config clock stage)).symbols =
    (p.draft.after config.prenexOrder stage).symbols :=
  (symbols_reached_bind fun _ => symbols_conclude).trans symbols_perform

variable {start : Progress} {count : Nat}

/-- A run through the first stages leaves the symbols that some number of them gives out. -/
theorem exists_symbols_advanceFirst (within : count ≤ Stage.formulaStages.length) :
    ∃ done ≤ count, (reached (start.advanceFirst config clock count)).symbols =
      (start.draft.afterFirst config.prenexOrder done).symbols := by
  -- Either the run stopped before the last stage, or this stage is the next to be counted.
  induction count with
  | zero => exact ⟨0, le_rfl, rfl⟩
  | succ count ih =>
    rw [advanceFirst_succ within]
    cases before : start.advanceFirst config clock count with
    | error failure =>
      -- A run that has stopped before stays where it is.
      obtain ⟨done, early, left⟩ := ih (by omega)
      rw [before] at left
      exact ⟨done, by omega, left⟩
    | ok p =>
      refine ⟨count + 1, le_rfl, ?_⟩
      rw [Draft.afterFirst_succ within, ← advanceFirst_ok (by omega) before]
      exact symbols_advance

/-- A last step that leaves the symbols alone leaves those that the run has come to. -/
theorem symbols_outcome_bind {attempt : Except Failure Progress}
    {next : Progress → Except Failure (Normalized × Progress)}
    (each : ∀ p, (outcome (next p)).symbols = p.symbols) :
    (outcome (attempt >>= next)).symbols = (reached attempt).symbols := by
  -- A failure is kept, so that the last step is not reached.
  cases attempt with
  | error failure => rfl
  | ok p => exact each p

/-- Extraction leaves the symbols alone, whether it succeeds or fails. -/
theorem symbols_extract (p : Progress) :
    (outcome (p.extract config clock start)).symbols = p.symbols := by
  unfold extract
  split
  · rfl
  · -- Only tracing the clauses may still stop the run.
    exact (symbols_outcome_bind fun _ => rfl).trans symbols_trace

end Progress

section Whole

variable {config : Config} {clock : Clock} {formulas : List Formula} {symbols : SymbolTable}
  {sink : Sink}

/-- A run leaves the symbols that it has come to in its first eight stages. -/
theorem symbols_normalize_eq : (normalize config clock formulas symbols sink).symbols =
    (Progress.reached
      (Progress.advanceFirst config clock { formulas, symbols, sink } 8)).symbols := by
  -- Extraction gives out nothing, however it ends.
  rw [normalize_eq]
  exact Progress.symbols_outcome_bind Progress.symbols_extract

/-- However a run ends, it leaves the symbols that some number of its stages gives out. -/
theorem exists_symbols_normalize (config : Config) (clock : Clock) (formulas : List Formula)
    (symbols : SymbolTable) (sink : Sink) : ∃ done ≤ Stage.formulaStages.length,
      (normalize config clock formulas symbols sink).symbols =
        (Draft.afterFirst config.prenexOrder { formulas, symbols } done).symbols := by
  rw [symbols_normalize_eq]
  exact Progress.exists_symbols_advanceFirst le_rfl

/-- However a run ends, it has changed the table by calls to its supplies alone. -/
theorem supplied_normalize (config : Config) (clock : Clock) (formulas : List Formula)
    (symbols : SymbolTable) (sink : Sink) :
    symbols.Supplied (normalize config clock formulas symbols sink).symbols := by
  obtain ⟨done, within, left⟩ := exists_symbols_normalize config clock formulas symbols sink
  -- Each of the stages changes the table by calls to its supplies.
  rw [left]
  exact Draft.supplied_afterFirst config.prenexOrder { formulas, symbols } within

/--
A run over known formulas that neither time nor the sink stops leaves the symbols that its stages
give out, even if there are too many clauses.
-/
theorem symbols_normalize (known : ∀ f ∈ formulas, f.Known symbols)
    (untimed : config.timeoutMs = none) (reliable : sink.NeverFails) :
    (normalize config clock formulas symbols sink).symbols =
      (Draft.afterFirst config.prenexOrder { formulas, symbols } 8).symbols := by
  -- The stages before distribution succeed, and a last one leaves the same however it ends.
  have within : 7 < Stage.formulaStages.length := by decide
  obtain ⟨p, before, _⟩ : ∃ p, Progress.advanceFirst config clock { formulas, symbols, sink } 7 =
      .ok p ∧ p.sink.NeverFails :=
    Progress.exists_advanceFirst known untimed reliable (by decide) (Or.inl (by decide))
  have came : p.draft = Draft.afterFirst config.prenexOrder { formulas, symbols } 7 :=
    Progress.advanceFirst_ok (by decide) before
  rw [symbols_normalize_eq, Progress.advanceFirst_succ within, before,
    Draft.afterFirst_succ within, ← came]
  exact Progress.symbols_advance

end Whole

end ClauseForm
