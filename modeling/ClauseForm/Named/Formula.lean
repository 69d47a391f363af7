import ClauseForm.Formula

/-! Formulas written with names instead of symbols, and how they are shown as text. -/

namespace ClauseForm.Named

/-- A term written with names. -/
inductive Term where
  | var (name : String)
  | const (name : String)
  | app (name : String) (args : List Term)

namespace Term

mutual

/-- Whether two terms are the same, decided from the outside in. -/
def decEq : (s t : Term) → Decidable (s = t)
  | .var x, .var y => decidable_of_iff (x = y) (by simp)
  | .const c, .const d => decidable_of_iff (c = d) (by simp)
  | .app f ss, .app g ts =>
    have := decEqAll ss ts
    decidable_of_iff (f = g ∧ ss = ts) (by simp)
  | .var _, .const _ | .var _, .app .. | .const _, .var _ => isFalse nofun
  | .const _, .app .. | .app .., .var _ | .app .., .const _ => isFalse nofun

/-- Whether two lists of terms are the same, decided from left to right. -/
def decEqAll : (ss ts : List Term) → Decidable (ss = ts)
  | [], [] => isTrue rfl
  | [], _ :: _ | _ :: _, [] => isFalse nofun
  | s :: ss, t :: ts =>
    have := decEq s t
    have := decEqAll ss ts
    decidable_of_iff (s = t ∧ ss = ts) (by simp)

end

instance : DecidableEq Term := decEq

mutual

/-- Replaces variables, constants and applications by what the functions given make of them. -/
def fold {α : Type} (var const : String → α) (app : String → List α → α) : Term → α
  | .var x => var x
  | .const c => const c
  | .app f args => app f (foldAll var const app args)

/-- The fold of every term of a list. -/
def foldAll {α : Type} (var const : String → α) (app : String → List α → α) : List Term → List α
  | [] => []
  | t :: ts => t.fold var const app :: foldAll var const app ts

end

/-- Folding a list of terms folds each of them. -/
theorem foldAll_eq_map {α : Type} (var const : String → α) (app : String → List α → α)
    (ts : List Term) : foldAll var const app ts = ts.map (fold var const app) := by
  -- The two recursions over the list are the same.
  induction ts with
  | nil => rfl
  | cons t ts ih => simp [foldAll, ih]

/-- A property of terms holds if it passes from the arguments of an application to the whole. -/
@[elab_as_elim, induction_eliminator]
theorem induct {motive : Term → Prop} (var : ∀ x, motive (.var x)) (const : ∀ c, motive (.const c))
    (app : ∀ f args, (∀ t ∈ args, motive t) → motive (.app f args)) (t : Term) : motive t :=
  -- Every argument is smaller than the application.
  match t with
  | .var x => var x
  | .const c => const c
  | .app f args => app f args fun t _ => induct var const app t

end Term

/-- A predicate name applied to terms. -/
structure Atom where
  predicate : String
  args : List Term
  deriving DecidableEq

/-- A formula written with names. -/
inductive Formula where
  | atom (a : Atom)
  | not (f : Formula)
  | binary (op : Connective) (l r : Formula)
  | quantified (q : Quantifier) (name : String) (body : Formula)
  deriving DecidableEq

/-- An atom that is affirmed or denied. -/
structure Literal where
  positive : Bool
  atom : Atom
  deriving DecidableEq

/-- A disjunction of literals. -/
structure Clause where
  literals : List Literal
  deriving DecidableEq

/-- A name with its arguments in parentheses, which are left out where there is none. -/
def applied (name : String) (args : List String) : String :=
  if args.isEmpty then name else name ++ "(" ++ String.intercalate "," args ++ ")"

/-- Text of a term. -/
def Term.text : Term → String := fold id id applied

/-- Text of an atom. -/
def Atom.text (a : Atom) : String := applied a.predicate (a.args.map Term.text)

/-- Sign of a connective between its operands. -/
def sign : Connective → String
  | .and => "&"
  | .or => "|"
  | .implies => "->"
  | .iff => "<->"

/-- Word for a quantifier in front of its variable. -/
def word : Quantifier → String
  | .universal => "all"
  | .existential => "some"

/-- Text of a formula, with every binary connective in parentheses. -/
def Formula.text : Formula → String
  | .atom a => a.text
  | .not f => "-" ++ f.text
  | .binary op l r => "(" ++ l.text ++ " " ++ sign op ++ " " ++ r.text ++ ")"
  | .quantified q name f => word q ++ " " ++ name ++ "." ++ f.text

/-- Text of a literal. -/
def Literal.text (l : Literal) : String := if l.positive then l.atom.text else "-" ++ l.atom.text

/-- The text of a clause joins those of its literals, and the empty clause has a sign of its own. -/
def Clause.text (c : Clause) : String :=
  if c.literals.isEmpty then "⊥" else String.intercalate " | " (c.literals.map Literal.text)

end ClauseForm.Named
