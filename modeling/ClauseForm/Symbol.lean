/-! Symbols are numbered within one of four kinds, and those that take arguments carry an arity. -/

namespace ClauseForm

/-- The four kinds of symbol that occur in formulas. -/
inductive Kind where
  | var
  | const
  | func
  | pred
  deriving DecidableEq

/-- Letter written before the number of a symbol of this kind. -/
def Kind.letter : Kind → String
  | .var => "V"
  | .const => "C"
  | .func => "F"
  | .pred => "P"

/-- A symbol is known by its number among the symbols of its kind. -/
structure Symbol (kind : Kind) where
  id : Nat
  deriving DecidableEq

instance {kind : Kind} : LawfulBEq (Symbol kind) := inferInstance

/-- Variables range over the domain and may be bound by a quantifier. -/
abbrev Variable := Symbol .var

/-- Gives one variable another value and all others the value they had. -/
def assign {α : Type} (values : Variable → α) (x : Variable) (value : α) : Variable → α :=
  fun y => if y = x then value else values y

/-- Constants name one element of the domain. -/
abbrev Constant := Symbol .const

/-- A function symbol states how many arguments it takes. -/
structure FunctionSymbol extends Symbol .func where
  arity : Nat
  deriving DecidableEq

/-- A predicate symbol states how many arguments it takes. -/
structure PredicateSymbol extends Symbol .pred where
  arity : Nat
  deriving DecidableEq

/-- Numbered text of a symbol, readable without any table of names. -/
def Symbol.numbered {kind : Kind} (symbol : Symbol kind) : String :=
  kind.letter ++ toString symbol.id

end ClauseForm
