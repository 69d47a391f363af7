import ClauseForm.Proofs.Interruption
import ClauseForm.Proofs.Soundness

/-! What is observed of a run, and how long it may take, does not change what it makes. -/

namespace ClauseForm

/-- Two attempts are the same, unless the first of them fails for a cause of the kind given. -/
def SameUnless {α ε : Type} (cause : ε → Prop) (attempt other : Except ε α) : Prop :=
  attempt = other ∨ ∃ e, attempt = .error e ∧ cause e

namespace SameUnless

variable {α β ε : Type} {cause : ε → Prop}

/-- An attempt is the same as itself. -/
theorem refl (attempt : Except ε α) : SameUnless cause attempt attempt := Or.inl rfl

/-- Steps that are the same unless a cause stops them are so one after the other. -/
theorem bind {first second : Except ε α} {next after : α → Except ε β}
    (same : SameUnless cause first second) (each : ∀ a, SameUnless cause (next a) (after a)) :
    SameUnless cause (first >>= next) (second >>= after) := by
  rcases same with rfl | ⟨e, rfl, caused⟩
  · -- An error of both comes through, and a success is what both go on with.
    cases first with
    | error e => exact .refl _
    | ok a => exact each a
  · -- A cause that stops the first step stops both of them.
    exact Or.inr ⟨e, rfl, caused⟩

/-- A loop whose steps are the same unless a cause stops them is so itself. -/
theorem foldlM {State Item : Type} {step other : State → Item → Except ε State}
    (each : ∀ s a, SameUnless cause (step s a) (other s a)) (items : List Item) (s : State) :
    SameUnless cause (items.foldlM step s) (items.foldlM other s) := by
  -- The steps for the first item are followed by the loop over the others.
  induction items generalizing s with
  | nil => exact .refl _
  | cons a items ih => exact (each s a).bind ih

end SameUnless

/-- The budget with no deadline. -/
def Budget.endless (budget : Budget) : Budget := { budget with deadline := none }

/-- The settings with no timeout. -/
def Config.endless (config : Config) : Config := { config with timeoutMs := none }

section Late

variable {budget : Budget}

/-- Without a deadline the look at the time passes, unless the deadline has passed. -/
theorem Budget.checkTime_endless {Place : Type} (elapsed : Place → Nat) (place : Place) :
    SameUnless (· = .late) (budget.checkTime elapsed place)
      (budget.endless.checkTime elapsed place) := by
  -- Only a deadline that has passed makes a difference.
  unfold checkTime
  split
  · exact Or.inr ⟨.late, rfl, rfl⟩
  · exact .refl _

/-- Without a deadline a formula is distributed as with one, unless that has passed. -/
theorem Formula.toConjunctiveWithin_endless (f : Formula) (elapsed : List Side → Nat) :
    SameUnless (· = .late) (f.toConjunctiveWithin budget elapsed)
      (f.toConjunctiveWithin budget.endless elapsed) := by
  -- The steps differ in nothing but the look at the time.
  fun_induction toConjunctive f generalizing elapsed with
  | case1 l r left right =>
    simp only [toConjunctiveWithin_and]
    exact (budget.checkTime_endless _ _).bind fun _ =>
      (left _).bind fun _ => (right _).bind fun _ => .refl _
  | case2 l r left right =>
    simp only [toConjunctiveWithin_or]
    exact (budget.checkTime_endless _ _).bind fun _ =>
      (left _).bind fun _ => (right _).bind fun _ => .refl _
  | case3 f conjunction disjunction =>
    simp only [toConjunctiveWithin_leaf conjunction disjunction]
    exact (budget.checkTime_endless _ _).bind fun _ => .refl _

namespace Progress

/-- Without a deadline a list is distributed as with one, unless that has passed. -/
theorem distributeAll_endless (clock : Clock) (index : Nat) (fs : List Formula) :
    SameUnless (· = .late) (distributeAll budget clock index fs)
      (distributeAll budget.endless clock index fs) := by
  -- The formulas are distributed one after the other, and the first to be late ends the list.
  induction fs generalizing index with
  | nil => exact .refl _
  | cons f fs ih =>
    simp only [distributeAll_cons]
    exact (f.toConjunctiveWithin_endless _).bind fun _ => (ih _).bind fun _ => .refl _

end Progress

end Late

/-- A failure that blames the time. -/
def Failure.IsTimeout (failure : Failure) : Prop := ∃ stage, failure.error = .timeout stage

namespace Progress

variable {config : Config} {clock : Clock}

/-- Distribution is the same as without a timeout, or it ends in the timeout. -/
theorem distribute_endless (p : Progress) :
    SameUnless Failure.IsTimeout (p.distribute config clock)
      (p.distribute config.endless clock) := by
  have all : SameUnless (· = .late) (distributeAll config.budget clock 0 p.formulas)
      (distributeAll config.endless.budget clock 0 p.formulas) :=
    distributeAll_endless clock 0 p.formulas
  unfold distribute
  rcases all with same | ⟨_, late, rfl⟩
  · -- The count in total does not look at the time.
    rw [← same]
    exact .refl _
  · -- What is late is reported as a timeout in this stage.
    rw [late]
    exact Or.inr ⟨_, rfl, .distribution, rfl⟩

/-- The work of a stage is the same as without a timeout, or it ends in the timeout. -/
theorem perform_endless (p : Progress) (stage : Stage) :
    SameUnless Failure.IsTimeout (p.perform config clock stage)
      (p.perform config.endless clock stage) := by
  -- Only distribution looks at the time.
  cases stage with
  | distribution => exact p.distribute_endless
  | _ => exact .refl _

/-- The conclusion of a stage is the same as without a timeout, or it ends in the timeout. -/
theorem conclude_endless (p : Progress) (stage : Stage) :
    SameUnless Failure.IsTimeout (p.conclude config clock stage)
      (p.conclude config.endless clock stage) := by
  unfold conclude
  refine (SameUnless.refl _).bind fun traced => ?_
  -- A normal form that does not hold is found before the time is looked at.
  split
  · rename_i violated
    exact Or.inl (if_pos violated).symm
  · rename_i upheld
    split
    · exact Or.inr ⟨_, rfl, stage, rfl⟩
    · exact Or.inl (if_neg upheld).symm

/-- A stage is the same as without a timeout, or it ends in the timeout. -/
theorem advance_endless (p : Progress) (stage : Stage) :
    SameUnless Failure.IsTimeout (p.advance config clock stage)
      (p.advance config.endless clock stage) :=
  (p.perform_endless stage).bind fun p => p.conclude_endless stage

end Progress

section Whole

variable {config other : Config} {clock time : Clock} {formulas : List Formula}
  {symbols : SymbolTable} {sink trace : Sink}

/-- A run leaves behind the same as without a timeout, or it ends in a timeout. -/
theorem normalize_endless (config : Config) (clock : Clock) (formulas : List Formula)
    (symbols : SymbolTable) (sink : Sink) :
    normalize config clock formulas symbols sink =
        normalize config.endless clock formulas symbols sink ∨
      ∃ stage, (normalize config clock formulas symbols sink).result = .error (.timeout stage) := by
  let start : Progress := { formulas, symbols, sink }
  have whole : SameUnless Failure.IsTimeout
      (Stage.formulaStages.foldlM (Progress.advance config clock) start >>=
        fun p => p.extract config clock start)
      (Stage.formulaStages.foldlM (Progress.advance config.endless clock) start >>=
        fun p => p.extract config.endless clock start) :=
    -- Extraction does not look at the time.
    (SameUnless.foldlM Progress.advance_endless Stage.formulaStages start).bind fun _ => .refl _
  rcases whole with same | ⟨failure, failed, stage, late⟩
  · -- The stages leave the same, and so does what follows them.
    exact Or.inl (congrArg Progress.outcome same)
  · refine Or.inr ⟨stage, ?_⟩
    have left : normalize config clock formulas symbols sink = Progress.outcome (.error failure) :=
      congrArg Progress.outcome failed
    rw [left, ← late]
    rfl

/--
Two runs agree if they fail for the same reason or make the same formulas and clauses, and leave the
same symbols.
-/
structure Outcome.Agrees (first second : Outcome) : Prop where
  result : (first.result.map fun made => (made.formulas, made.clauses)) =
    second.result.map fun made => (made.formulas, made.clauses)
  symbols : first.symbols = second.symbols

/-- Without a timeout, clocks, sinks, tracing, checks and profiles have no part in the result. -/
theorem normalize_agrees_untimed (known : ∀ f ∈ formulas, f.Known symbols)
    (order : config.prenexOrder = other.prenexOrder) (limit : config.maxClauses = other.maxClauses)
    (untimed : config.timeoutMs = none) (endless : other.timeoutMs = none)
    (reliable : sink.NeverFails) (steady : trace.NeverFails) :
    (normalize config clock formulas symbols sink).Agrees
      (normalize other time formulas symbols trace) where
  result := by
    have budgets : config.budget = other.budget := by
      rw [Config.budget, Config.budget, untimed, endless, limit]
    -- How both runs end is known from the formulas alone.
    cases count : config.budget.isExceeded (Formula.clauseTotal formulas) with
    | false =>
      obtain ⟨first, one⟩ : ∃ first,
          (normalize config clock formulas symbols sink).result = .ok first :=
        exists_normalize known untimed reliable count
      obtain ⟨second, two⟩ : ∃ second,
          (normalize other time formulas symbols trace).result = .ok second :=
        exists_normalize known endless steady (budgets ▸ count)
      obtain ⟨same, alike⟩ := normalize_unique one two order.symm
      rw [one, two]
      simp only [Except.map, same, alike]
    | true =>
      rw [normalize_exceeded known untimed reliable count,
        normalize_exceeded known endless steady (budgets ▸ count), limit]
  symbols := by
    -- Distribution, where a limit may stop the run, gives out no symbols.
    rw [symbols_normalize known untimed reliable, symbols_normalize known endless steady, order]

/--
Without a timeout it does not matter what is traced, checked or counted, nor which sink takes the
trace if it never fails, nor how long anything takes. A run with a timeout agrees with all runs
without one as well, or it ends in the timeout. Whatever the formulas and the sink are, nothing but
the timeout tells it from the same run without one.
-/
theorem normalize_observed (config other : Config) (clock time : Clock)
    (known : ∀ f ∈ formulas, f.Known symbols)
    (order : config.prenexOrder = other.prenexOrder) (limit : config.maxClauses = other.maxClauses)
    (untimed : other.timeoutMs = none) (reliable : sink.NeverFails) (steady : trace.NeverFails) :
    (config.timeoutMs = none → (normalize config clock formulas symbols sink).Agrees
      (normalize other time formulas symbols trace)) ∧
    ((normalize config clock formulas symbols sink).Agrees
        (normalize other time formulas symbols trace) ∨
      ∃ stage, (normalize config clock formulas symbols sink).result = .error (.timeout stage)) ∧
    ∀ (fs : List Formula) (table : SymbolTable) (observer : Sink),
      normalize config clock fs table observer = normalize config.endless clock fs table observer ∨
        ∃ stage, (normalize config clock fs table observer).result = .error (.timeout stage) := by
  refine ⟨fun free => normalize_agrees_untimed known order limit free untimed reliable steady, ?_,
    fun fs table observer => normalize_endless config clock fs table observer⟩
  -- Without its timeout the run agrees with the other one.
  refine (normalize_endless config clock formulas symbols sink).imp_left fun same => ?_
  rw [same]
  exact normalize_agrees_untimed known order limit rfl untimed reliable steady

/-- Settings that trace, check and profile a run, which has a millisecond to come to its end. -/
def observing : Config where
  trace := true
  checkInvariants := true
  profiling := true
  timeoutMs := some 1

/-- A run that is observed in every way makes what it makes where nothing is observed. -/
theorem normalize_observed_traced :
    (normalize observing (.still 7) [unbounded] comparisonSymbols (.recording [])).Agrees
      (normalize {} (.still 0) [unbounded] comparisonSymbols .discarding) := by
  -- Nothing that is observed can stop the run, which has the time that it needs.
  have known : ∀ f ∈ [unbounded], f.Known comparisonSymbols := by decide +kernel
  have made : (normalize observing (.still 7) [unbounded] comparisonSymbols
      (.recording [])).result.toOption.any (fun _ => true) = true := by
    decide +kernel
  have reliable : (Sink.recording []).NeverFails := Sink.neverFails_of_isRoomy rfl
  have steady : Sink.discarding.NeverFails := Sink.neverFails_of_isRoomy rfl
  obtain ⟨_, agrees | ⟨stage, late⟩, _⟩ :=
    normalize_observed observing {} (.still 7) (.still 0) known rfl rfl rfl reliable steady
  · exact agrees
  · -- The run succeeds, so that it has not ended in the timeout.
    rw [late] at made
    cases made

end Whole

end ClauseForm
