import ClauseForm.Conjunctive
import ClauseForm.Prenex

/-! Settings of a normalization run. -/

namespace ClauseForm

/-- Settings of a normalization run, each with the value it has unless it is set. -/
structure Config where
  /-- Whether the sink is shown what each stage makes. -/
  trace : Bool := false
  prenexOrder : PrenexOrder := .existentialsFirst
  /-- How many clauses may arise, where zero sets no limit. -/
  maxClauses : Nat := 0
  /-- Milliseconds after which the run is given up. -/
  timeoutMs : Option Nat := none
  /-- Whether the normal form that each stage establishes is checked. -/
  checkInvariants : Bool := false
  /-- Whether the run counts what it does. -/
  profiling : Bool := false
  deriving DecidableEq

/-- The limits that the settings put on a run. -/
def Config.budget (config : Config) : Budget :=
  { deadline := config.timeoutMs.map (· * 1000000), maxClauses := config.maxClauses }

end ClauseForm
