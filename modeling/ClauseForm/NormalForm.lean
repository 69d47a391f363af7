import ClauseForm.Prenex
import ClauseForm.Stage

/-! Each stage of normalization establishes a normal form, which can be checked on its output. -/

namespace ClauseForm

namespace Formula

/-- No implication and no equivalence occurs. -/
def isImplicationFree : Formula → Bool
  | .atom _ => true
  | .not f => f.isImplicationFree
  | .and l r | .or l r => l.isImplicationFree && r.isImplicationFree
  | .implies .. | .iff .. => false
  | .quantified _ _ f => f.isImplicationFree

/-- Negation normal form: no implication or equivalence occurs, and only atoms are negated. -/
def isNegationNormal : Formula → Bool
  | .atom _ => true
  | .not (.atom _) => true
  | .not _ => false
  | .and l r | .or l r => l.isNegationNormal && r.isNegationNormal
  | .implies .. | .iff .. => false
  | .quantified _ _ f => f.isNegationNormal

/-- Whether the variables differ from each other and from those seen before. -/
def areNew : (seen xs : List Variable) → Bool
  | _, [] => true
  | seen, x :: xs => x ∉ seen && areNew (x :: seen) xs

/-- No variable is bound twice or both bound and free. -/
def hasUniqueBinders (f : Formula) : Bool := areNew f.freeVariables (f.binders.map (·.2))

/-- All quantifiers stand in front. -/
def isPrenex (f : Formula) : Bool := !f.matrix.hasQuantifier

/-- All quantifiers stand in front, the existential ones before the universal ones. -/
def isExistentialsFirst (f : Formula) : Bool :=
  f.isPrenex && ((f.binders.map (·.1)).dropWhile (· == .existential)).all (· == .universal)

/-- No existential quantifier occurs. -/
def isSkolemized (f : Formula) : Bool := f.binders.all (·.1 == .universal)

/-- No quantifier occurs. -/
def isQuantifierFree (f : Formula) : Bool := !f.hasQuantifier

/-- A disjunction of literals. -/
def isDisjunction : Formula → Bool
  | .atom _ => true
  | .not (.atom _) => true
  | .or l r => l.isDisjunction && r.isDisjunction
  | _ => false

/-- Conjunctive normal form: a conjunction of disjunctions of literals. -/
def isConjunctive : Formula → Bool
  | .atom _ => true
  | .not (.atom _) => true
  | .and l r => l.isConjunctive && r.isConjunctive
  | .or l r => l.isDisjunction && r.isDisjunction
  | _ => false

/-- No variable is bound by two universal quantifiers of the list. -/
def areUniversalsUnique (fs : List Formula) : Bool :=
  areNew [] (((fs.flatMap binders).filter (·.1 == .universal)).map (·.2))

end Formula

/-- Whether formulas have the form that a stage leaves them in. -/
def Stage.holdsAfter (order : PrenexOrder) (fs : List Formula) : Stage → Bool
  | .implicationElimination => fs.all Formula.isImplicationFree
  | .negationNormalForm => fs.all Formula.isNegationNormal
  | .standardization => fs.all Formula.hasUniqueBinders
  | .prenex =>
    match order with
    | .existentialsFirst => fs.all Formula.isExistentialsFirst
    | .preserve => fs.all Formula.isPrenex
  | .skolemization => fs.all Formula.isSkolemized
  | .renaming => Formula.areUniversalsUnique fs
  | .universalStripping => fs.all Formula.isQuantifierFree
  | .distribution => fs.all Formula.isConjunctive
  | .clauseExtraction => true

end ClauseForm
