import ClauseForm.Clause

/-! Formulas in conjunctive normal form are taken apart into clauses. -/

namespace ClauseForm

namespace Formula

/-- The formulas that the outer conjunctions join, from left to right. -/
def conjuncts : Formula → List Formula
  | .and l r => l.conjuncts ++ r.conjuncts
  | f => [f]

/-- The literals that the outer disjunctions join, or the first of their operands that is none. -/
def literals : Formula → Except Formula (List Literal)
  | .or l r => do return (← l.literals) ++ (← r.literals)
  | .atom a => .ok [{ positive := true, atom := a }]
  | .not (.atom a) => .ok [{ positive := false, atom := a }]
  | f => .error f

/-- One clause for each conjunct of each formula, or the first operand that is no literal. -/
def extractClauses (fs : List Formula) : Except Formula (List Clause) :=
  (fs.flatMap conjuncts).mapM fun f => f.literals.map Clause.mk

end Formula

end ClauseForm
