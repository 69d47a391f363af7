import ClauseForm.Clause
import ClauseForm.Stage

/-! A profile holds the times and counts of one run. -/

namespace ClauseForm

/-- Times in nanoseconds and counts of one run. -/
structure Profile where
  totalTime : Nat := 0
  stageTimes : List (Stage × Nat) := []
  inputFormulas : Nat := 0
  /-- How many variables were made. -/
  freshVariables : Nat := 0
  skolemSymbols : Nat := 0
  clauses : Nat := 0
  maxClauseLength : Nat := 0
  /-- The most different variables in one clause. -/
  maxClauseVariables : Nat := 0
  maxTermDepth : Nat := 0
  tautologies : Nat := 0
  deriving DecidableEq

namespace Profile

/-- Notes the time of a stage in place of an earlier note, or else at the end. -/
def noteTime (stage : Stage) (time : Nat) : List (Stage × Nat) → List (Stage × Nat)
  | [] => [(stage, time)]
  | (other, old) :: rest =>
    if other = stage then (stage, time) :: rest else (other, old) :: noteTime stage time rest

/-- The largest measure of a clause, zero where there is none. -/
def largest (measure : Clause → Nat) (cs : List Clause) : Nat := (cs.map measure).foldl max 0

/-- Adds what can be read off the clauses of a run. -/
def countClauses (profile : Profile) (cs : List Clause) : Profile :=
  { profile with
    clauses := cs.length
    maxClauseLength := largest Clause.length cs
    maxClauseVariables := largest Clause.variableCount cs
    maxTermDepth := largest Clause.depth cs
    tautologies := cs.countP Clause.isTautology }

end Profile

end ClauseForm
