import ClauseForm.Named.Resolution
import ClauseForm.Stage

/-! Events are what a run reports about its course. -/

namespace ClauseForm

/-- How much an event matters. -/
inductive Level where
  | warn
  | info
  | debug
  | trace
  deriving DecidableEq

/-- What may happen in the course of a run. -/
inductive Event where
  | stageDone (stage : Stage)
  | renamed (q : Quantifier) (x y : Variable)
  | witnessed (x : Variable) (witness : Term)
  | skolemSymbols (count : Nat)
  | lateDuring (stage : Stage)
  | tooManyClauses (count limit : Nat)
  | tooManyInTotal (count limit : Nat)
  | flattened (formulas clauses : Nat)
  | normalized (formulas clauses : Nat)

namespace Event

/-- How much an event matters. -/
def level : Event → Level
  | .lateDuring _ | .tooManyClauses .. | .tooManyInTotal .. => .warn
  | .normalized .. => .info
  | .stageDone _ | .witnessed .. | .skolemSymbols _ | .flattened .. => .debug
  | .renamed .. => .trace

/-- Part of a run that an event belongs to. -/
def topic : Event → String
  | .stageDone _ | .skolemSymbols _ | .lateDuring _ | .tooManyInTotal .. => "pipeline"
  | .renamed .. => "standardize"
  | .witnessed .. => "skolem"
  | .tooManyClauses .. => "distribute"
  | .flattened .. => "clauses"
  | .normalized .. => "normalize"

/-- Message of an event, unless a symbol has no name. -/
def message? (table : SymbolTable) : Event → Option String
  | .stageDone stage =>
    some ("Stage " ++ toString stage.number ++ " (" ++ stage.heading ++ ")")
  | .renamed q x y => do
    return Named.word q ++ " " ++ (← table.name? x) ++ " renamed to " ++ (← table.name? y)
  | .witnessed x witness => do
    return "some " ++ (← table.name? x) ++ " replaced by " ++ (← witness.text? table)
  | .skolemSymbols count => some (toString count ++ " skolem symbols introduced")
  | .lateDuring stage => some ("Timeout reached during " ++ stage.heading)
  | .tooManyClauses count limit =>
    some ("Distribution would produce " ++ toString count ++ " clauses, limit is " ++
      toString limit)
  | .tooManyInTotal count limit =>
    some (toString count ++ " clauses in total, limit is " ++ toString limit)
  | .flattened formulas clauses =>
    some (toString formulas ++ " formulas flattened into " ++ toString clauses ++ " clauses")
  | .normalized formulas clauses =>
    some ("Normalized " ++ toString formulas ++ " formulas into " ++ toString clauses ++
      " clauses")

end Event

/-- Word for a level in front of an event. -/
def Level.word : Level → String
  | .warn => "WARN"
  | .info => "INFO"
  | .debug => "DEBUG"
  | .trace => "TRACE"

/-- An event, and the symbols known when it happened. -/
structure Report where
  event : Event
  symbols : SymbolTable

/-- One line for a report, unless a symbol had no name when the event happened. -/
def Report.line? (report : Report) : Option String :=
  (report.event.message? report.symbols).map fun message =>
    report.event.level.word ++ " " ++ report.event.topic ++ ": " ++ message

end ClauseForm
