import ClauseForm.Formula
import ClauseForm.SymbolTable

/-! Existential quantifiers in front of a formula give way to terms that name their witnesses. -/

namespace ClauseForm

/-- A new Skolem symbol applied to the variables in scope, or as a constant where there is none. -/
def SymbolTable.freshWitness (symbols : SymbolTable) (scope : List Variable) :
    Term × SymbolTable :=
  let (sk, symbols) := symbols.freshSkolem
  if scope.isEmpty then (.const sk.constant, symbols)
  else (.app { sk.function with arity := scope.length } (scope.map .var), symbols)

/-- The scope of a further universal quantifier, which lists each variable once. -/
def extendScope (scope : List Variable) (x : Variable) : List Variable :=
  if x ∈ scope then scope else scope ++ [x]

/-- A term that took the place of a bound variable, and the symbols known once it was made. -/
structure Witness where
  bound : Variable
  term : Term
  symbols : SymbolTable

/-- What is left when existential quantifiers have been replaced by witnesses. -/
structure Skolemized where
  formula : Formula
  /-- Variables of the universal quantifiers passed. -/
  scope : List Variable
  /-- Witnesses made, in their order. -/
  witnesses : List Witness
  symbols : SymbolTable

namespace Formula

/--
Replaces the existential quantifiers in front of a formula from the outside in. A witness depends
on the variables in scope, which grow by each universal quantifier passed.
-/
def skolemizeIn : Formula → List Variable → SymbolTable → Skolemized
  | .quantified .existential x f, scope, symbols =>
    let (term, symbols) := symbols.freshWitness scope
    let rest := (f.substitute x term).skolemizeIn scope symbols
    { rest with witnesses := { bound := x, term, symbols } :: rest.witnesses }
  | .quantified .universal x f, scope, symbols =>
    let rest := f.skolemizeIn (extendScope scope x) symbols
    { rest with formula := .quantified .universal x rest.formula }
  | f, scope, symbols => { formula := f, scope, witnesses := [], symbols }
termination_by f => f.size
decreasing_by all_goals simp [size]

/-- Replaces the existential quantifiers in front of a formula. -/
def skolemize (f : Formula) (symbols : SymbolTable) : Skolemized := f.skolemizeIn [] symbols

/-- Replaces the existential quantifiers in front of each formula, one formula after the other. -/
def skolemizeAll : List Formula → SymbolTable → List Skolemized × SymbolTable
  | [], symbols => ([], symbols)
  | f :: fs, symbols =>
    let done := f.skolemize symbols
    let (rest, symbols) := skolemizeAll fs done.symbols
    (done :: rest, symbols)

end Formula

end ClauseForm
