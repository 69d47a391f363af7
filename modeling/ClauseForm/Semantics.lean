import ClauseForm.Clause

/-! Structures give symbols a meaning, and formulas and clauses are true or false in them. -/

namespace ClauseForm

/-- A domain with at least one element, and a meaning in it for each symbol. -/
structure Structure where
  Domain : Type
  inhabited : Nonempty Domain
  constant : Constant → Domain
  function : FunctionSymbol → List Domain → Domain
  predicate : PredicateSymbol → List Domain → Prop

namespace Term

/-- Element that a term stands for. -/
def value (m : Structure) (values : Variable → m.Domain) : Term → m.Domain :=
  fold values m.constant m.function

/-- A variable has the value that it stands for. -/
@[simp] theorem value_var (m : Structure) (values : Variable → m.Domain) (x : Variable) :
    (var x).value m values = values x := rfl

/-- A constant has the value that the structure gives it. -/
@[simp] theorem value_const (m : Structure) (values : Variable → m.Domain) (c : Constant) :
    (const c).value m values = m.constant c := rfl

/-- An application has the value of its function at the values of its arguments. -/
@[simp] theorem value_app (m : Structure) (values : Variable → m.Domain) (f : FunctionSymbol)
    (args : List Term) :
    (app f args).value m values = m.function f (args.map (value m values)) := by
  -- The arguments are evaluated one by one.
  simp [value, fold, foldAll_eq_map]

end Term

/-- Whether an atom is true. -/
def Atom.Holds (m : Structure) (values : Variable → m.Domain) (a : Atom) : Prop :=
  m.predicate a.predicate (a.args.map (Term.value m values))

/-- What a connective makes of two propositions. -/
def Connective.Joins : Connective → Prop → Prop → Prop
  | .and, p, q => p ∧ q
  | .or, p, q => p ∨ q
  | .implies, p, q => p → q
  | .iff, p, q => p ↔ q

/-- What a quantifier says about a domain. -/
def Quantifier.Ranges {Domain : Type} : Quantifier → (Domain → Prop) → Prop
  | .universal, p => ∀ d, p d
  | .existential, p => ∃ d, p d

/-- Whether a formula is true. -/
def Formula.Holds (m : Structure) : Formula → (Variable → m.Domain) → Prop
  | .atom a, values => a.Holds m values
  | .not f, values => ¬ f.Holds m values
  | .binary op l r, values => op.Joins (l.Holds m values) (r.Holds m values)
  | .quantified q x f, values => q.Ranges fun d => f.Holds m (assign values x d)

/-- Whether a literal is true. -/
def Literal.Holds (m : Structure) (values : Variable → m.Domain) (l : Literal) : Prop :=
  if l.positive then l.atom.Holds m values else ¬ l.atom.Holds m values

/-- Whether some literal of a clause is true. -/
def Clause.Holds (m : Structure) (values : Variable → m.Domain) (c : Clause) : Prop :=
  ∃ l ∈ c.literals, l.Holds m values

end ClauseForm
