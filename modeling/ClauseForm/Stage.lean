/-! Normalization is a fixed sequence of nine stages. -/

namespace ClauseForm

/-- The stages of normalization in their order. -/
inductive Stage where
  | implicationElimination
  | negationNormalForm
  | standardization
  | prenex
  | skolemization
  | renaming
  | universalStripping
  | distribution
  | clauseExtraction
  deriving DecidableEq

namespace Stage

/-- The stages that turn formulas into formulas. -/
def formulaStages : List Stage :=
  [.implicationElimination, .negationNormalForm, .standardization, .prenex, .skolemization,
    .renaming, .universalStripping, .distribution]

/-- All stages in their order. -/
def all : List Stage := formulaStages ++ [.clauseExtraction]

/-- Place of a stage, counted from one. -/
def number : Stage → Nat
  | .implicationElimination => 1
  | .negationNormalForm => 2
  | .standardization => 3
  | .prenex => 4
  | .skolemization => 5
  | .renaming => 6
  | .universalStripping => 7
  | .distribution => 8
  | .clauseExtraction => 9

/-- Words for a stage in headings and messages. -/
def heading : Stage → String
  | .implicationElimination => "eliminating implication"
  | .negationNormalForm => "moving negation inwards"
  | .standardization => "standardizing variables"
  | .prenex => "prenex form"
  | .skolemization => "skolemization"
  | .renaming => "renaming variables"
  | .universalStripping => "eliminating universal quantifiers"
  | .distribution => "conjunctive normal form"
  | .clauseExtraction => "converting to clause"

/-- Word for a stage in documents. -/
def key : Stage → String
  | .implicationElimination => "implication_elimination"
  | .negationNormalForm => "negation_normal_form"
  | .standardization => "standardization"
  | .prenex => "prenex"
  | .skolemization => "skolemization"
  | .renaming => "renaming"
  | .universalStripping => "universal_stripping"
  | .distribution => "distribution"
  | .clauseExtraction => "clause_extraction"

end Stage

end ClauseForm
