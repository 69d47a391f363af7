import ClauseForm.Formula

/-! Quantifiers are moved to the front of a formula, or left out. -/

namespace ClauseForm

/-- The order of the quantifiers in front of a prenex formula. -/
inductive PrenexOrder where
  | existentialsFirst
  | preserve
  deriving DecidableEq

/-- Puts quantifiers into the order asked for, and keeps it within equal quantifiers. -/
def PrenexOrder.arrange (order : PrenexOrder) (binders : List (Quantifier × Variable)) :
    List (Quantifier × Variable) :=
  match order with
  | .existentialsFirst =>
    binders.filter (·.1 == .existential) ++ binders.filter (·.1 == .universal)
  | .preserve => binders

namespace Formula

/-- Moves all quantifiers to the front. -/
def toPrenex (order : PrenexOrder) (f : Formula) : Formula :=
  quantify (order.arrange f.binders) (f.dropBinders fun _ => true)

/-- Leaves out all universal quantifiers. -/
def stripUniversals (f : Formula) : Formula := f.dropBinders (· == .universal)

end Formula

end ClauseForm
