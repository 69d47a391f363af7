import ClauseForm.Config
import ClauseForm.Error
import ClauseForm.Event
import ClauseForm.Extraction
import ClauseForm.Inspection
import ClauseForm.Negation
import ClauseForm.NormalForm
import ClauseForm.Profile
import ClauseForm.Sink
import ClauseForm.Skolemized
import ClauseForm.Standardized

/-! A run takes formulas through all stages, and reports, traces, checks and times each of them. -/

namespace ClauseForm

/-- Nanoseconds since the start of a run at every place where the time is looked at. -/
structure Clock where
  started : Stage → Nat
  /-- When distribution enters a node, given by the index of its formula and its place therein. -/
  entering : Nat → List Side → Nat
  finished : Stage → Nat

/-- The clock that shows one time everywhere. -/
def Clock.still (time : Nat) : Clock :=
  { started := fun _ => time, entering := fun _ _ => time, finished := fun _ => time }

/-- How far a run has come. -/
structure Progress where
  formulas : List Formula
  symbols : SymbolTable
  sink : Sink
  reports : List Report := []
  stageTimes : List (Stage × Nat) := []
  /-- How many Skolem symbols were made. -/
  skolemSymbols : Nat := 0

/-- A run that failed, with what it left behind. -/
structure Failure where
  error : Error
  progress : Progress

/-- Report of a renaming. -/
def Renaming.report (r : Renaming) : Report :=
  { event := .renamed r.quantifier r.old r.new, symbols := r.symbols }

/-- Report of a witness. -/
def Witness.report (w : Witness) : Report :=
  { event := .witnessed w.bound w.term, symbols := w.symbols }

/-- The event that a run with a limit reports if distribution exceeds its budget. -/
def Overrun.event (limit : Nat) : Overrun → Event
  | .late => .lateDuring .distribution
  | .tooMany count => .tooManyClauses count limit

namespace Progress

/-- Takes further reports. -/
def note (p : Progress) (reports : List Report) : Progress :=
  { p with reports := p.reports ++ reports }

/-- Reports an event that happens where the run stands. -/
def report (p : Progress) (event : Event) : Progress :=
  p.note [{ event, symbols := p.symbols }]

/-- Fails where the run stands. -/
def fail {α : Type} (p : Progress) (error : Error) : Except Failure α :=
  .error { error, progress := p }

/-- Fails where the run stands, after reporting why. -/
def failReporting {α : Type} (p : Progress) (event : Event) (error : Error) : Except Failure α :=
  (p.report event).fail error

/--
Distributes the formulas of a list one after the other, the first of which has an index. The time is
asked for whenever a node is entered.
-/
def distributeAllAsking {m : Type → Type} [Monad m] (budget : Budget)
    (entering : Nat → List Side → m Nat) : Nat → List Formula → ExceptT Overrun m (List Formula)
  | _, [] => return []
  | index, f :: fs => do
    let f ← f.toConjunctiveAsking budget (entering index)
    let fs ← distributeAllAsking budget entering (index + 1) fs
    return f :: fs

/-- Distributes the formulas of a list at the times that a clock shows. -/
def distributeAll (budget : Budget) (clock : Clock) (index : Nat) (fs : List Formula) :
    Except Overrun (List Formula) :=
  let entering := fun index path => pure (clock.entering index path)
  Id.run (distributeAllAsking budget entering index fs).run

/-- Takes formulas that have been distributed, and counts their clauses in total before. -/
def takeDistributed (config : Config) (p : Progress) :
    Except Overrun (List Formula) → Except Failure Progress
  | .error overrun =>
    p.failReporting (overrun.event config.maxClauses) (overrun.error config.maxClauses)
  | .ok fs =>
    let total := Formula.conjunctTotal fs
    if config.budget.isExceeded total then
      p.failReporting (.tooManyInTotal total config.maxClauses)
        (.clauseLimitExceeded .distribution config.maxClauses)
    else .ok { p with formulas := fs }

/-- Distributes all formulas, and counts their clauses in total afterwards. -/
def distribute (config : Config) (clock : Clock) (p : Progress) : Except Failure Progress :=
  p.takeDistributed config (distributeAll config.budget clock 0 p.formulas)

/-- Does the work of one stage. Clause extraction leaves the formulas as they are. -/
def perform (config : Config) (clock : Clock) (p : Progress) : Stage → Except Failure Progress
  | .implicationElimination =>
    .ok { p with formulas := p.formulas.map Formula.eliminateImplications }
  | .negationNormalForm => .ok { p with formulas := p.formulas.map Formula.pushNegation }
  | .standardization =>
    let (fs, symbols, renamings) := Formula.standardizeAll p.formulas p.symbols
    .ok ({ p with formulas := fs, symbols }.note (renamings.map Renaming.report))
  | .prenex => .ok { p with formulas := p.formulas.map (Formula.toPrenex config.prenexOrder) }
  | .skolemization =>
    let (done, symbols) := Formula.skolemizeAll p.formulas p.symbols
    let reports := (done.flatMap Skolemized.witnesses).map Witness.report
    .ok ({ p with
      formulas := done.map Skolemized.formula
      symbols
      skolemSymbols := symbols.count .const - p.symbols.count .const }.note reports)
  | .renaming =>
    let (fs, naming) := Formula.renameAcross p.formulas p.symbols
    .ok ({ p with formulas := fs, symbols := naming.symbols }.note
      (naming.renamings.map Renaming.report))
  | .universalStripping => .ok { p with formulas := p.formulas.map Formula.stripUniversals }
  | .distribution => p.distribute config clock
  | .clauseExtraction => .ok p

/-- Reports that the work of a stage is done, and notes its time. -/
def finish (clock : Clock) (stage : Stage) (p : Progress) : Progress :=
  let time := clock.finished stage - clock.started stage
  { p with stageTimes := Profile.noteTime stage time p.stageTimes }.report (.stageDone stage)

/-- Shows lines to the sink where the run is traced. -/
def trace (config : Config) (stage : Stage) (lines? : Option (List String)) (p : Progress) :
    Except Failure Progress :=
  if config.trace then
    match lines? with
    | none => p.fail .unknownSymbol
    | some lines =>
      let (sink, refused) := p.sink.receive stage lines
      let p := { p with sink }
      match refused with
      | none => .ok p
      | some cause => p.fail (.access cause)
  else .ok p

/-- Traces and checks what a stage has made, and looks at the time. -/
def conclude (config : Config) (clock : Clock) (stage : Stage) (p : Progress) :
    Except Failure Progress := do
  let p := p.finish clock stage
  let p ← p.trace config stage (p.formulas.mapM (Formula.text? p.symbols))
  if config.checkInvariants && !stage.holdsAfter config.prenexOrder p.formulas then
    p.fail (.invariantViolated stage)
  else if config.budget.isLate clock.finished stage then
    p.failReporting (.lateDuring stage) (.timeout stage)
  else if stage = .skolemization then
    .ok (p.report (.skolemSymbols p.skolemSymbols))
  else .ok p

/-- Takes the run through one stage. -/
def advance (config : Config) (clock : Clock) (p : Progress) (stage : Stage) :
    Except Failure Progress := do
  conclude config clock stage (← p.perform config clock stage)

end Progress

/-- The result of a run that succeeds. -/
structure Normalized where
  /-- The formulas in conjunctive normal form. -/
  formulas : List Formula
  clauses : List Clause
  profile : Option Profile

/-- What a run leaves behind, whether it succeeds or fails. -/
structure Outcome where
  result : Except Error Normalized
  symbols : SymbolTable
  sink : Sink
  reports : List Report

namespace Progress

/-- Takes the clauses out of the formulas, traces them, and sums up the run. -/
def extract (config : Config) (clock : Clock) (p start : Progress) :
    Except Failure (Normalized × Progress) := do
  match Formula.extractClauses p.formulas with
  | .error operand => p.fail (.notClausal operand.inspect)
  | .ok clauses =>
    let p := p.report (.flattened p.formulas.length clauses.length)
    let p ← p.trace config .clauseExtraction (clauses.mapM (Clause.text? p.symbols))
    let p := p.finish clock .clauseExtraction
    let profile : Profile :=
      { totalTime := clock.finished .clauseExtraction
        stageTimes := p.stageTimes
        inputFormulas := start.formulas.length
        freshVariables := p.symbols.count .var - start.symbols.count .var
        skolemSymbols := p.skolemSymbols }
    let result : Normalized :=
      { formulas := p.formulas
        clauses
        profile := if config.profiling then some (profile.countClauses clauses) else none }
    return (result, p.report (.normalized p.formulas.length clauses.length))

/-- The outcome of a run that came to its end or failed on the way. -/
def outcome : Except Failure (Normalized × Progress) → Outcome
  | .ok (result, p) =>
    { result := .ok result, symbols := p.symbols, sink := p.sink, reports := p.reports }
  | .error failure =>
    { result := .error failure.error
      symbols := failure.progress.symbols
      sink := failure.progress.sink
      reports := failure.progress.reports }

end Progress

/-- Normalizes formulas into clauses. -/
def normalize (config : Config) (clock : Clock) (formulas : List Formula) (symbols : SymbolTable)
    (sink : Sink) : Outcome :=
  let start : Progress := { formulas, symbols, sink }
  Progress.outcome do
    let p ← Stage.formulaStages.foldlM (Progress.advance config clock) start
    p.extract config clock start

end ClauseForm
