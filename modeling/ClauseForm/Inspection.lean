import ClauseForm.Clause
import ClauseForm.Stage

/-! Inspection texts spell out how a value is built, constructor by constructor. -/

namespace ClauseForm

namespace Inspection

/-- A constructor with its arguments in parentheses. -/
def node (name : String) (args : List String) : String :=
  name ++ "(" ++ String.intercalate ", " args ++ ")"

/-- A record with its fields in braces. -/
def record (name : String) (fields : List (String × String)) : String :=
  name ++ " \x7b " ++
    String.intercalate ", " (fields.map fun field => field.1 ++ ": " ++ field.2) ++ " \x7d"

/-- A list in brackets. -/
def list (items : List String) : String := "[" ++ String.intercalate ", " items ++ "]"

end Inspection

open Inspection

/-- Word for a kind of symbol. -/
def Kind.word : Kind → String
  | .var => "Variable"
  | .const => "Constant"
  | .func => "Function"
  | .pred => "Predicate"

/-- The number of a symbol, marked with its kind. -/
def Symbol.inspectId {kind : Kind} (s : Symbol kind) : String :=
  node (kind.word ++ "Id") [toString s.id]

/-- Inspection text of a symbol without arity. -/
def Symbol.inspect {kind : Kind} (s : Symbol kind) : String :=
  record kind.word [("id", s.inspectId)]

/-- Inspection text of a symbol with an arity. -/
def Symbol.inspectWithArity {kind : Kind} (s : Symbol kind) (arity : Nat) : String :=
  record (kind.word ++ "Symbol") [("id", s.inspectId), ("arity", toString arity)]

/-- Inspection text of a function symbol. -/
def FunctionSymbol.inspect (f : FunctionSymbol) : String := f.inspectWithArity f.arity

/-- Inspection text of a predicate symbol. -/
def PredicateSymbol.inspect (p : PredicateSymbol) : String := p.inspectWithArity p.arity

/-- Inspection text of a term. -/
def Term.inspect : Term → String :=
  fold (fun x => node "Variable" [x.inspect]) (fun c => node "Constant" [c.inspect])
    fun f args => node "Function" [f.inspect, list args]

/-- Inspection text of an atom. -/
def Atom.inspect (a : Atom) : String :=
  record "Atom" [("predicate", a.predicate.inspect), ("args", list (a.args.map Term.inspect))]

/-- Inspection text of a quantifier. -/
def Quantifier.inspect : Quantifier → String
  | .universal => "Forall"
  | .existential => "Exists"

/-- Inspection text of a connective. -/
def Connective.inspect : Connective → String
  | .and => "And"
  | .or => "Or"
  | .implies => "Implies"
  | .iff => "Iff"

/-- Inspection text of a formula. -/
def Formula.inspect : Formula → String
  | .atom a => node "Atom" [a.inspect]
  | .not f => node "Not" [f.inspect]
  | .binary op l r => node op.inspect [l.inspect, r.inspect]
  | .quantified q x f => node "Quantified" [q.inspect, x.inspect, f.inspect]

/-- Inspection text of a literal. -/
def Literal.inspect (l : Literal) : String :=
  record "Literal" [("predicate", l.atom.predicate.inspect),
    ("args", list (l.atom.args.map Term.inspect)), ("polarity", toString l.positive)]

/-- Inspection text of a clause. -/
def Clause.inspect (c : Clause) : String :=
  record "Clause" [("literals", list (c.literals.map Literal.inspect))]

/-- Inspection text of a set of clauses. -/
def Clause.inspectAll (cs : List Clause) : String :=
  record "ClauseSet" [("clauses", list (cs.map Clause.inspect))]

/-- Inspection text of a stage. -/
def Stage.inspect : Stage → String
  | .implicationElimination => "ImplicationElimination"
  | .negationNormalForm => "NegationNormalForm"
  | .standardization => "Standardization"
  | .prenex => "Prenex"
  | .skolemization => "Skolemization"
  | .renaming => "Renaming"
  | .universalStripping => "UniversalStripping"
  | .distribution => "Distribution"
  | .clauseExtraction => "ClauseExtraction"

end ClauseForm
