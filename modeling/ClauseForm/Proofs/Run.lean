import ClauseForm.Proofs.Extraction
import ClauseForm.Proofs.Limits
import ClauseForm.Proofs.Stages

/-! A run does the work of its stages, and nothing but its limits and its sink can stop it. -/

namespace ClauseForm

namespace Sink

/-- The sink after several sections. -/
def receiveAll (sections : List (Stage × List String)) (sink : Sink) : Sink :=
  sections.foldl (fun sink part => (sink.receive part.1 part.2).1) sink

/-- A sink that takes every section, whatever it has been handed before. -/
def NeverFails (sink : Sink) : Prop :=
  ∀ sections stage lines, ((sink.receiveAll sections).receive stage lines).2 = none

variable {sink : Sink} {stage : Stage} {lines : List String}

/-- A sink that never fails takes the next section. -/
theorem NeverFails.takes (reliable : sink.NeverFails) : (sink.receive stage lines).2 = none :=
  reliable [] stage lines

/-- A sink that never fails does not begin to. -/
theorem NeverFails.receive (reliable : sink.NeverFails) :
    (sink.receive stage lines).1.NeverFails :=
  fun sections => reliable ((stage, lines) :: sections)

/-- Sinks that keep nothing or have room for everything. -/
def isRoomy : Sink → Bool
  | .discarding | .recording _ | .writing none _ => true
  | .writing (some _) _ | .other .. => false

/-- A roomy sink takes a section and stays roomy. -/
theorem isRoomy_receive (roomy : sink.isRoomy = true) :
    (sink.receive stage lines).2 = none ∧ (sink.receive stage lines).1.isRoomy = true := by
  -- Nothing is refused where nothing is kept or there is no capacity.
  cases sink with
  | discarding => exact ⟨rfl, rfl⟩
  | recording sections => exact ⟨rfl, rfl⟩
  | writing capacity written =>
    cases capacity with
    | none => exact ⟨rfl, rfl⟩
    | some capacity => cases roomy
  | other refusal handed => cases roomy

/-- Roomy sinks never fail. -/
theorem neverFails_of_isRoomy (roomy : sink.isRoomy = true) : sink.NeverFails := by
  intro sections stage lines
  -- One section after the other leaves the sink roomy.
  induction sections generalizing sink with
  | nil => exact (isRoomy_receive roomy).1
  | cons part sections ih => exact ih (isRoomy_receive roomy).2

end Sink

namespace Progress

/-- The formulas that a run has come to, and the symbols known there. -/
def draft (p : Progress) : Draft := { formulas := p.formulas, symbols := p.symbols }

variable {config : Config} {clock : Clock} {stage : Stage} {p p' : Progress}

section Succeeded

/-- Where the work of a stage succeeds, it is what nothing has stopped. -/
theorem perform_ok (done : p.perform config clock stage = .ok p') :
    p'.draft = p.draft.after config.prenexOrder stage := by
  -- Only distribution can fail.
  cases stage with
  | distribution =>
    rw [distribute_ok done]
    rfl
  | _ =>
    cases done
    rfl

/-- Tracing changes neither formulas nor symbols. -/
theorem trace_ok {lines? : Option (List String)} (done : p.trace config stage lines? = .ok p') :
    p'.draft = p.draft := by
  -- Only the sink is changed.
  unfold trace at done
  split at done
  · split at done
    · cases done
    · dsimp only at done
      split at done
      · cases done
        rfl
      · cases done
  · cases done
    rfl

/-- What a conclusion that succeeds has traced is what it hands on, but for one report. -/
theorem exists_traced (done : p.conclude config clock stage = .ok p') : ∃ traced,
    (p.finish clock stage).trace config stage (p.formulas.mapM (Formula.text? p.symbols)) =
      .ok traced ∧ p'.draft = traced.draft ∧ p'.sink = traced.sink := by
  -- After the trace only checks are made, and a report.
  obtain ⟨traced, first, rest⟩ := bind_eq_ok.mp done
  refine ⟨traced, first, ?_⟩
  split at rest
  · cases rest
  · split at rest
    · cases rest
    · split at rest
      · cases rest
        exact ⟨rfl, rfl⟩
      · cases rest
        exact ⟨rfl, rfl⟩

/-- The conclusion of a stage changes neither formulas nor symbols. -/
theorem conclude_ok (done : p.conclude config clock stage = .ok p') : p'.draft = p.draft := by
  -- What is noted about a stage leaves its formulas alone.
  obtain ⟨traced, first, same, _⟩ := exists_traced done
  rw [same, trace_ok first]
  rfl

/-- A stage that succeeds has done its work. -/
theorem advance_ok (done : p.advance config clock stage = .ok p') :
    p'.draft = p.draft.after config.prenexOrder stage := by
  -- The work of the stage comes first, and its conclusion changes nothing.
  obtain ⟨worked, first, rest⟩ := bind_eq_ok.mp done
  rw [conclude_ok rest, perform_ok first]

end Succeeded

section Succeeding

variable (untimed : config.timeoutMs = none) (reliable : p.sink.NeverFails)

include reliable

/-- Tracing succeeds where all symbols have names. -/
theorem exists_trace {lines? : Option (List String)} (named : lines?.isSome) :
    ∃ p', p.trace config stage lines? = .ok p' ∧ p'.sink.NeverFails := by
  -- The lines exist, and the sink takes them.
  obtain ⟨lines, rfl⟩ := Option.isSome_iff_exists.mp named
  unfold trace
  split
  · simp only [reliable.takes]
    exact ⟨_, rfl, reliable.receive⟩
  · exact ⟨p, rfl, reliable⟩

include untimed

/-- The conclusion of a stage succeeds where its normal form holds. -/
theorem exists_conclude (known : ∀ f ∈ p.formulas, f.Known p.symbols)
    (holds : stage.holdsAfter config.prenexOrder p.formulas = true) :
    ∃ p', p.conclude config clock stage = .ok p' ∧ p'.sink.NeverFails := by
  have named : (p.formulas.mapM (Formula.text? p.symbols)).isSome :=
    isSome_mapM fun f listed => (known f listed).text
  have reliable : (p.finish clock stage).sink.NeverFails := reliable
  obtain ⟨traced, first, still⟩ : ∃ traced, (p.finish clock stage).trace config stage
      (p.formulas.mapM (Formula.text? p.symbols)) = .ok traced ∧ traced.sink.NeverFails :=
    exists_trace reliable named
  have same : traced.draft = (p.finish clock stage).draft := trace_ok first
  have formulas : traced.formulas = p.formulas := congrArg Draft.formulas same
  have intime : config.budget.isLate clock.finished stage = false :=
    Budget.isLate_untimed (deadline_budget untimed)
  -- Neither check finds a reason to fail.
  have upheld : (config.checkInvariants &&
      !stage.holdsAfter config.prenexOrder traced.formulas) = false := by
    rw [formulas, holds, Bool.not_true, Bool.and_false]
  by_cases last : stage = .skolemization
  · refine ⟨traced.report (.skolemSymbols traced.skolemSymbols), ?_, still⟩
    refine bind_eq_ok.mpr ⟨traced, first, ?_⟩
    simp only [upheld, intime, Bool.false_eq_true, if_false, if_pos last]
  · refine ⟨traced, bind_eq_ok.mpr ⟨traced, first, ?_⟩, still⟩
    simp only [upheld, intime, Bool.false_eq_true, if_false, if_neg last]

/-- The work of a stage succeeds unless there are too many clauses to be distributed. -/
theorem exists_perform (within : stage = .distribution → config.budget.isExceeded
      (Formula.conjunctTotal (p.formulas.map Formula.toConjunctive)) = false) :
    ∃ p', p.perform config clock stage = .ok p' ∧ p'.sink.NeverFails := by
  -- Only distribution looks at a limit.
  cases stage with
  | distribution => exact ⟨_, distribute_within untimed (within rfl), reliable⟩
  | _ => exact ⟨_, rfl, reliable⟩

/-- A stage succeeds on a prepared draft unless there are too many clauses to be distributed. -/
theorem exists_advance (prepared : p.draft.Prepared config.prenexOrder stage.number)
    (within : stage = .distribution → config.budget.isExceeded
      (Formula.conjunctTotal (p.formulas.map Formula.toConjunctive)) = false) :
    ∃ p', p.advance config clock stage = .ok p' ∧ p'.sink.NeverFails := by
  obtain ⟨worked, first, still⟩ := exists_perform untimed reliable within
  have next := Draft.prepared_after prepared
  rw [← perform_ok first] at next
  -- The work has established the normal form that is checked.
  have holds := next.forms stage (Nat.lt_succ_self _)
  obtain ⟨done, rest, reliable⟩ := exists_conclude untimed still next.known holds
  exact ⟨done, bind_eq_ok.mpr ⟨worked, first, rest⟩, reliable⟩

end Succeeding

/-- A run through the first stages. -/
def advanceFirst (config : Config) (clock : Clock) (start : Progress) (count : Nat) :
    Except Failure Progress :=
  (Stage.formulaStages.take count).foldlM (advance config clock) start

variable {start : Progress} {count : Nat}

/-- One stage more is run after the others. -/
theorem advanceFirst_succ (within : count < Stage.formulaStages.length) :
    start.advanceFirst config clock (count + 1) = start.advanceFirst config clock count >>=
      fun p => p.advance config clock Stage.formulaStages[count] := by
  -- The stages that come first are extended at the end.
  simp only [advanceFirst, List.take_succ_eq_append_getElem within, List.foldlM_append,
    List.foldlM_cons, List.foldlM_nil, bind_pure]

/-- A run that has come through some stages has done their work and nothing else. -/
theorem advanceFirst_ok (within : count ≤ Stage.formulaStages.length)
    (done : start.advanceFirst config clock count = .ok p) :
    p.draft = start.draft.afterFirst config.prenexOrder count := by
  -- The last stage works on what the run has come to before.
  induction count generalizing p with
  | zero =>
    cases done
    rfl
  | succ count ih =>
    rw [advanceFirst_succ within] at done
    obtain ⟨before, first, last⟩ := bind_eq_ok.mp done
    rw [Draft.afterFirst_succ within, ← ih (by omega) first, advance_ok last]

/-- A run that comes to a stage finds known formulas prepared for it. -/
theorem prepared_advanceFirst (known : ∀ f ∈ start.formulas, f.Known start.symbols)
    (within : count < Stage.formulaStages.length)
    (done : start.advanceFirst config clock count = .ok p) :
    p.draft.Prepared config.prenexOrder Stage.formulaStages[count].number := by
  -- The run has done the work of the stages before.
  rw [advanceFirst_ok (Nat.le_of_lt within) done, Stage.number_formulaStages within]
  exact Draft.prepared_afterFirst known (Nat.le_of_lt within)

/-- Where a run comes to be distributed, its clauses are as many as those of its beginning. -/
theorem conjunctTotal_advanceFirst (known : ∀ f ∈ start.formulas, f.Known start.symbols)
    (done : start.advanceFirst config clock 7 = .ok p) :
    Formula.conjunctTotal (p.formulas.map Formula.toConjunctive) =
      Formula.clauseTotal start.formulas := by
  -- The number of clauses is kept by all stages up to there.
  have within : 7 < Stage.formulaStages.length := by decide
  have prepared : p.draft.Prepared config.prenexOrder Stage.distribution.number :=
    prepared_advanceFirst known within done
  have same := advanceFirst_ok (Nat.le_of_lt within) done
  calc Formula.conjunctTotal (p.draft.formulas.map Formula.toConjunctive)
      = Formula.clauseTotal p.draft.formulas := Draft.conjunctTotal_distribution prepared
    _ = Formula.clauseTotal (start.draft.afterFirst config.prenexOrder 7).formulas := by rw [same]
    _ = Formula.clauseTotal start.formulas :=
        Draft.clauseTotal_afterFirst known (Nat.le_of_lt within)

/-- A run through known formulas comes through all stages before distribution. -/
theorem exists_advanceFirst (known : ∀ f ∈ start.formulas, f.Known start.symbols)
    (untimed : config.timeoutMs = none) (reliable : start.sink.NeverFails)
    (within : count ≤ Stage.formulaStages.length)
    (limit : count < 8 ∨ config.budget.isExceeded (Formula.clauseTotal start.formulas) = false) :
    ∃ p, start.advanceFirst config clock count = .ok p ∧ p.sink.NeverFails := by
  induction count with
  | zero => exact ⟨start, rfl, reliable⟩
  | succ count ih =>
    obtain ⟨before, first, still⟩ := ih (by omega) (limit.imp_left (by omega))
    have prepared := prepared_advanceFirst known within first
    -- Only the last of the stages looks at the limit.
    have unexceeded : Stage.formulaStages[count] = .distribution → config.budget.isExceeded
        (Formula.conjunctTotal (before.formulas.map Formula.toConjunctive)) = false := by
      intro distribution
      have number := Stage.number_formulaStages within
      rw [distribution] at number
      obtain rfl : count = 7 := Nat.succ.inj number.symm
      rw [conjunctTotal_advanceFirst known first]
      exact limit.resolve_left (by omega)
    obtain ⟨p, last, reliable⟩ := exists_advance untimed still prepared unexceeded
    exact ⟨p, (advanceFirst_succ within).trans (bind_eq_ok.mpr ⟨before, first, last⟩), reliable⟩

section Extracting

variable {result : Normalized}

/-- Extraction takes the clauses out of the formulas that a run has come to. -/
theorem extract_ok (done : p.extract config clock start = .ok (result, p')) :
    Formula.extractClauses p.formulas = .ok result.clauses ∧ result.formulas = p.formulas ∧
      p'.symbols = p.symbols := by
  -- The trace of the clauses comes in between and changes only the sink.
  unfold extract at done
  split at done
  · cases done
  · rename_i clauses made
    obtain ⟨traced, first, rest⟩ := bind_eq_ok.mp done
    have same := trace_ok first
    cases rest
    exact ⟨made, congrArg Draft.formulas same, congrArg Draft.symbols same⟩

/-- Extraction succeeds on known formulas in conjunctive normal form. -/
theorem exists_extract (reliable : p.sink.NeverFails)
    (known : ∀ f ∈ p.formulas, f.Known p.symbols)
    (conjunctive : ∀ f ∈ p.formulas, f.isConjunctive = true) :
    ∃ made, p.extract config clock start = .ok made := by
  -- The clauses exist because of the normal form, and their lines because of the table.
  obtain ⟨clauses, made⟩ := Formula.exists_extractClauses conjunctive
  have named : (clauses.mapM (Clause.text? p.symbols)).isSome :=
    isSome_mapM fun c listed => (Formula.known_extractClauses known made c listed).text
  have reliable : (p.report (.flattened p.formulas.length clauses.length)).sink.NeverFails :=
    reliable
  obtain ⟨traced, first, _⟩ : ∃ traced, (p.report (.flattened p.formulas.length
      clauses.length)).trace config .clauseExtraction (clauses.mapM (Clause.text? p.symbols)) =
        .ok traced ∧ traced.sink.NeverFails :=
    exists_trace reliable named
  unfold extract
  rw [made]
  exact ⟨_, bind_eq_ok.mpr ⟨traced, first, rfl⟩⟩

end Extracting

end Progress

section Whole

variable {config : Config} {clock : Clock} {formulas : List Formula} {symbols : SymbolTable}
  {sink : Sink} {result : Normalized}

/-- A whole run goes through all eight stages on formulas before it extracts clauses. -/
theorem normalize_eq (config : Config) (clock : Clock) (formulas : List Formula)
    (symbols : SymbolTable) (sink : Sink) : normalize config clock formulas symbols sink =
      Progress.outcome (Progress.advanceFirst config clock { formulas, symbols, sink } 8 >>=
        fun p => p.extract config clock { formulas, symbols, sink }) := rfl

/-- A run that succeeds has come through its stages and taken clauses out of what they leave. -/
theorem exists_of_normalize
    (succeeded : (normalize config clock formulas symbols sink).result = .ok result) : ∃ p p',
      Progress.advanceFirst config clock { formulas, symbols, sink } 8 = .ok p ∧
      p.extract config clock { formulas, symbols, sink } = .ok (result, p') ∧
      normalize config clock formulas symbols sink = Progress.outcome (.ok (result, p')) := by
  -- A run that has failed has no result.
  rw [normalize_eq] at succeeded ⊢
  cases run : Progress.advanceFirst config clock { formulas, symbols, sink } 8 >>=
      fun p => p.extract config clock { formulas, symbols, sink } with
  | error failure =>
    rw [run] at succeeded
    cases succeeded
  | ok made =>
    obtain ⟨same, p'⟩ := made
    rw [run] at succeeded
    obtain rfl : same = result := Except.ok.inj succeeded
    obtain ⟨p, first, last⟩ := bind_eq_ok.mp run
    exact ⟨p, p', first, last, rfl⟩

/-- A run that succeeds has done the work of all stages, and its clauses are those of the result. -/
theorem normalize_ok
    (succeeded : (normalize config clock formulas symbols sink).result = .ok result) :
    Formula.extractClauses result.formulas = .ok result.clauses ∧
      Draft.mk result.formulas (normalize config clock formulas symbols sink).symbols =
        Draft.afterFirst config.prenexOrder { formulas, symbols } 8 := by
  -- Extraction leaves the formulas and the table.
  obtain ⟨p, p', first, last, ended⟩ := exists_of_normalize succeeded
  obtain ⟨clauses, kept, table⟩ := Progress.extract_ok last
  have came := Progress.advanceFirst_ok (by decide) first
  constructor
  · rw [kept]
    exact clauses
  · rw [ended]
    show Draft.mk result.formulas p'.symbols =
      (Progress.draft { formulas, symbols, sink }).afterFirst config.prenexOrder 8
    rw [← came, kept, table]
    rfl

/-- The formulas of a run that succeeds are those that its eight stages make. -/
theorem formulas_normalize
    (succeeded : (normalize config clock formulas symbols sink).result = .ok result) :
    result.formulas = (Draft.afterFirst config.prenexOrder { formulas, symbols } 8).formulas :=
  congrArg Draft.formulas (normalize_ok succeeded).2

/-- Runs that put quantifiers in the same order make the same of formulas, if they succeed. -/
theorem normalize_unique {other : Config} {time : Clock} {trace : Sink} {made : Normalized}
    (succeeded : (normalize config clock formulas symbols sink).result = .ok result)
    (again : (normalize other time formulas symbols trace).result = .ok made)
    (order : other.prenexOrder = config.prenexOrder) :
    made.formulas = result.formulas ∧ made.clauses = result.clauses := by
  -- Both results are what the stages make, whatever else happens in the runs.
  obtain ⟨clauses, first⟩ := normalize_ok succeeded
  obtain ⟨others, second⟩ := normalize_ok again
  rw [order, ← first] at second
  have same : made.formulas = result.formulas := congrArg Draft.formulas second
  rw [same, clauses] at others
  exact ⟨same, (Except.ok.inj others).symm⟩

/-- What a run makes of known formulas is known in the end, and in all normal forms. -/
theorem prepared_normalize (known : ∀ f ∈ formulas, f.Known symbols)
    (succeeded : (normalize config clock formulas symbols sink).result = .ok result) :
    (Draft.mk result.formulas (normalize config clock formulas symbols sink).symbols).Prepared
      config.prenexOrder 9 := by
  rw [(normalize_ok succeeded).2]
  exact Draft.prepared_afterFirst known (by decide)

/-- The clauses to be counted of what a run makes are those of its formulas. -/
theorem clauseTotal_normalize (known : ∀ f ∈ formulas, f.Known symbols)
    (succeeded : (normalize config clock formulas symbols sink).result = .ok result) :
    Formula.clauseTotal result.formulas = Formula.clauseTotal formulas := by
  -- The stages keep the number of clauses.
  have total : Formula.clauseTotal (Draft.afterFirst config.prenexOrder { formulas, symbols }
    8).formulas = Formula.clauseTotal formulas := Draft.clauseTotal_afterFirst known (by decide)
  rwa [← (normalize_ok succeeded).2] at total

/-- A run that succeeds makes as many clauses as its formulas have. -/
theorem length_clauses (known : ∀ f ∈ formulas, f.Known symbols)
    (succeeded : (normalize config clock formulas symbols sink).result = .ok result) :
    result.clauses.length = Formula.clauseTotal formulas := by
  -- The result is in conjunctive normal form, where each conjunct is a clause.
  have conjunctive : ∀ f ∈ result.formulas, f.isConjunctive = true :=
    (prepared_normalize known succeeded).forms.conjunctive (by decide)
  calc result.clauses.length
      = Formula.conjunctTotal result.formulas :=
        Formula.length_extractClauses (normalize_ok succeeded).1
    _ = Formula.clauseTotal result.formulas := Formula.conjunctTotal_of_isConjunctive conjunctive
    _ = Formula.clauseTotal formulas := clauseTotal_normalize known succeeded

/-- A run over known formulas that succeeds has no more clauses than its limit admits. -/
theorem isExceeded_of_normalize (known : ∀ f ∈ formulas, f.Known symbols)
    (succeeded : (normalize config clock formulas symbols sink).result = .ok result) :
    config.budget.isExceeded (Formula.clauseTotal formulas) = false := by
  -- The run has come through its last stage on formulas, which counts the clauses.
  obtain ⟨p, _, whole, _⟩ := exists_of_normalize succeeded
  rw [Progress.advanceFirst_succ (by decide)] at whole
  obtain ⟨before, first, last⟩ := bind_eq_ok.mp whole
  obtain ⟨distributed, done, _⟩ := bind_eq_ok.mp last
  have total := Progress.isExceeded_of_distribute done
  rwa [Progress.conjunctTotal_advanceFirst known first] at total

/-- A run succeeds on known formulas where neither time nor clauses nor the sink run out. -/
theorem exists_normalize (known : ∀ f ∈ formulas, f.Known symbols)
    (untimed : config.timeoutMs = none) (reliable : sink.NeverFails)
    (within : config.budget.isExceeded (Formula.clauseTotal formulas) = false) :
    ∃ result, (normalize config clock formulas symbols sink).result = .ok result := by
  -- The run comes through all stages, which leave a conjunctive normal form.
  obtain ⟨p, run, still⟩ : ∃ p, Progress.advanceFirst config clock { formulas, symbols, sink } 8 =
      .ok p ∧ p.sink.NeverFails :=
    Progress.exists_advanceFirst known untimed reliable (by decide) (Or.inr within)
  have prepared : p.draft.Prepared config.prenexOrder 9 := by
    rw [Progress.advanceFirst_ok (by decide) run]
    exact Draft.prepared_afterFirst known (by decide)
  obtain ⟨⟨result, p'⟩, last⟩ : ∃ made, p.extract config clock { formulas, symbols, sink } =
      .ok made :=
    Progress.exists_extract still prepared.known (prepared.forms.conjunctive (by decide))
  refine ⟨result, ?_⟩
  rw [normalize_eq, bind_eq_ok.mpr ⟨p, run, last⟩]
  rfl

/-- Where there are more clauses than the limit admits, a run ends when they are distributed. -/
theorem exists_exceeded (clock : Clock) (known : ∀ f ∈ formulas, f.Known symbols)
    (untimed : config.timeoutMs = none) (reliable : sink.NeverFails)
    (exceeded : config.budget.isExceeded (Formula.clauseTotal formulas) = true) : ∃ p failure,
      Progress.advanceFirst config clock { formulas, symbols, sink } 7 = .ok p ∧
      p.perform config clock .distribution = .error failure ∧
      failure.error = .clauseLimitExceeded .distribution config.maxClauses ∧
      normalize config clock formulas symbols sink = Progress.outcome (.error failure) := by
  obtain ⟨p, run, _⟩ : ∃ p, Progress.advanceFirst config clock { formulas, symbols, sink } 7 =
      .ok p ∧ p.sink.NeverFails :=
    Progress.exists_advanceFirst known untimed reliable (by decide) (Or.inl (by decide))
  rw [← Progress.conjunctTotal_advanceFirst known run] at exceeded
  -- Every stage before distribution succeeds.
  obtain ⟨left, failed⟩ : ∃ left, p.perform config clock .distribution = .error
      { error := .clauseLimitExceeded .distribution config.maxClauses, progress := left } :=
    Progress.distribute_exceeded untimed exceeded
  have last : p.advance config clock .distribution = .error _ :=
    bind_eq_error.mpr (Or.inl failed)
  have whole : Progress.advanceFirst config clock { formulas, symbols, sink } 8 = .error _ :=
    (Progress.advanceFirst_succ (by decide)).trans (bind_eq_error.mpr (Or.inr ⟨p, run, last⟩))
  refine ⟨p, _, run, failed, rfl, ?_⟩
  rw [normalize_eq, bind_eq_error.mpr (Or.inl whole)]

/-- A run over known formulas fails at the limit where there are more clauses. -/
theorem normalize_exceeded (known : ∀ f ∈ formulas, f.Known symbols)
    (untimed : config.timeoutMs = none) (reliable : sink.NeverFails)
    (exceeded : config.budget.isExceeded (Formula.clauseTotal formulas) = true) :
    (normalize config clock formulas symbols sink).result =
      .error (.clauseLimitExceeded .distribution config.maxClauses) := by
  -- The failure is that of the stage.
  obtain ⟨p, failure, _, _, same, ended⟩ := exists_exceeded clock known untimed reliable exceeded
  rw [ended]
  exact congrArg Except.error same

end Whole

end ClauseForm
