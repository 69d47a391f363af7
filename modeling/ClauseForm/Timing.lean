import ClauseForm.Pipeline

/-! A run may ask for the time as it passes, where no clock tells beforehand what it will be. -/

namespace ClauseForm

variable {m : Type → Type} [Monad m]

namespace Progress

/-- Does the work of one stage. Distribution is the only one to ask for the time on its way. -/
def performAsking (config : Config) (elapsed : m Nat) (p : Progress) (stage : Stage) :
    ExceptT Failure m Progress :=
  if stage = .distribution then do
    let distributed ← (distributeAllAsking config.budget (fun _ _ => elapsed) 0 p.formulas).run
    p.takeDistributed config distributed
  else p.perform config (.still 0) stage

/-- Takes the run through one stage, and asks for the time before and after its work. -/
def advanceAsking (config : Config) (elapsed : m Nat) (p : Progress) (stage : Stage) :
    ExceptT Failure m Progress := do
  let started ← elapsed
  let p ← p.performAsking config elapsed stage
  let finished ← elapsed
  p.conclude config { Clock.still finished with started := fun _ => started } stage

end Progress

/-- Normalizes formulas into clauses, and asks for the time since the start of the run. -/
def normalizeAsking (config : Config) (elapsed : m Nat) (formulas : List Formula)
    (symbols : SymbolTable) (sink : Sink) : m Outcome := do
  let start : Progress := { formulas, symbols, sink }
  let ended ← ExceptT.run do
    let p ← Stage.formulaStages.foldlM (Progress.advanceAsking config elapsed) start
    let finished ← elapsed
    p.extract config (.still finished) start
  return Progress.outcome ended

end ClauseForm
