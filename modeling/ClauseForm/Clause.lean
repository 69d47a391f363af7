import ClauseForm.Formula

/-! Clauses are disjunctions of literals, and a list of clauses is read as their conjunction. -/

namespace ClauseForm

/-- An atom that is affirmed or denied. -/
structure Literal where
  positive : Bool
  atom : Atom
  deriving DecidableEq

/-- The literal that affirms what this one denies. -/
def Literal.complement (l : Literal) : Literal := { l with positive := !l.positive }

/-- The literal as a formula. -/
def Literal.formula (l : Literal) : Formula :=
  if l.positive then .atom l.atom else .not (.atom l.atom)

/-- A disjunction of literals, false when it has none. -/
structure Clause where
  literals : List Literal
  deriving DecidableEq

namespace Clause

/-- Whether the clause has no literal. -/
def isEmpty (c : Clause) : Bool := c.literals.isEmpty

/-- How many literals the clause has. -/
def length (c : Clause) : Nat := c.literals.length

/-- A unit clause has exactly one literal. -/
def isUnit (c : Clause) : Bool := c.length == 1

/-- A tautology holds an atom and its denial. -/
def isTautology (c : Clause) : Bool := c.literals.any (·.complement ∈ c.literals)

/-- Variables in the order in which they occur, repeats kept. -/
def vars (c : Clause) : List Variable := c.literals.flatMap (·.atom.vars)

/-- How many different variables occur. -/
def variableCount (c : Clause) : Nat := c.vars.eraseDups.length

/-- How many function symbols lie above each other at most. -/
def depth (c : Clause) : Nat :=
  ((c.literals.flatMap (·.atom.args)).map Term.depth).foldl max 0

end Clause

end ClauseForm
