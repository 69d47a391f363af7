import ClauseForm.Term

/-! Formulas of first-order logic, their variables, and replacement of variables by terms. -/

namespace ClauseForm

/-- A quantifier speaks about all elements of the domain or about some element. -/
inductive Quantifier where
  | universal
  | existential
  deriving DecidableEq

/-- The other quantifier, which takes this one's place below a negation. -/
def Quantifier.dual : Quantifier → Quantifier
  | .universal => .existential
  | .existential => .universal

/-- The connectives that join two formulas. -/
inductive Connective where
  | and
  | or
  | implies
  | iff
  deriving DecidableEq

/-- A predicate symbol applied to terms. -/
structure Atom where
  predicate : PredicateSymbol
  args : List Term
  deriving DecidableEq

namespace Atom

/-- Variables in the order in which they occur, repeats kept. -/
def vars (a : Atom) : List Variable := a.args.flatMap Term.vars

/-- Puts a term in place of every variable. -/
def bind (values : Variable → Term) (a : Atom) : Atom :=
  { a with args := a.args.map (Term.bind values) }

/-- Puts a term in place of one variable. -/
def substitute (x : Variable) (value : Term) (a : Atom) : Atom :=
  { a with args := a.args.map fun t => t.substitute x value }

/-- Puts another variable in place of every variable. -/
def rename (names : Variable → Variable) : Atom → Atom :=
  bind fun x => .var (names x)

end Atom

/-- A formula of first-order logic. -/
inductive Formula where
  | atom (a : Atom)
  | not (f : Formula)
  | binary (op : Connective) (l r : Formula)
  | quantified (q : Quantifier) (x : Variable) (body : Formula)
  deriving DecidableEq

namespace Formula

/-- Conjunction of two formulas. -/
@[match_pattern] abbrev and (l r : Formula) : Formula := .binary .and l r

/-- Disjunction of two formulas. -/
@[match_pattern] abbrev or (l r : Formula) : Formula := .binary .or l r

/-- Implication from the left formula to the right one. -/
@[match_pattern] abbrev implies (l r : Formula) : Formula := .binary .implies l r

/-- Equivalence of two formulas. -/
@[match_pattern] abbrev iff (l r : Formula) : Formula := .binary .iff l r

/-- How many nodes the formula has. -/
def size : Formula → Nat
  | .atom _ => 1
  | .not f => f.size + 1
  | .binary _ l r => l.size + r.size + 1
  | .quantified _ _ f => f.size + 1

/-- Variables that occur outside the scope of every quantifier over them, each listed once. -/
def freeVariables : Formula → List Variable
  | .atom a => a.vars.eraseDups
  | .not f => f.freeVariables
  | .binary _ l r =>
    l.freeVariables ++ r.freeVariables.filter (· ∉ l.freeVariables)
  | .quantified _ x f => f.freeVariables.filter (· ≠ x)

/-- A closed formula has no free variable. -/
def isClosed (f : Formula) : Bool := f.freeVariables.isEmpty

/-- Quantifiers and the variables they bind, each before its scope, and from left to right. -/
def binders : Formula → List (Quantifier × Variable)
  | .atom _ => []
  | .not f => f.binders
  | .binary _ l r => l.binders ++ r.binders
  | .quantified q x f => (q, x) :: f.binders

/-- Whether any quantifier occurs. -/
def hasQuantifier : Formula → Bool
  | .atom _ => false
  | .not f => f.hasQuantifier
  | .binary _ l r => l.hasQuantifier || r.hasQuantifier
  | .quantified .. => true

/-- A literal is an atom or the negation of an atom. -/
def isLiteral : Formula → Bool
  | .atom _ | .not (.atom _) => true
  | _ => false

/-- Whether the outermost node is a quantifier. -/
def isQuantified : Formula → Bool
  | .quantified .. => true
  | _ => false

/-- The formula below the quantifiers that stand in front of it. -/
def matrix : Formula → Formula
  | .quantified _ _ f => f.matrix
  | f => f

/--
Puts a term in place of the free occurrences of a variable. Nothing keeps a quantifier from
binding the variables of the term.
-/
def substitute (x : Variable) (value : Term) : Formula → Formula
  | .atom a => .atom (a.substitute x value)
  | .not f => .not (f.substitute x value)
  | .binary op l r => .binary op (l.substitute x value) (r.substitute x value)
  | .quantified q y f => .quantified q y (if y = x then f else f.substitute x value)

/-- Gives another variable to the outermost quantifier and all that it binds. -/
def renameBound (y : Variable) : Formula → Formula
  | .quantified q x f => .quantified q y (f.substitute x (.var y))
  | f => f

/-- Puts quantifiers in front of a formula, the first one outermost. -/
def quantify (binders : List (Quantifier × Variable)) (f : Formula) : Formula :=
  binders.foldr (fun b f => .quantified b.1 b.2 f) f

/-- Leaves out the quantifiers chosen and keeps their scopes. -/
def dropBinders (dropped : Quantifier → Bool) : Formula → Formula
  | .atom a => .atom a
  | .not f => .not (f.dropBinders dropped)
  | .binary op l r => .binary op (l.dropBinders dropped) (r.dropBinders dropped)
  | .quantified q x f =>
    if dropped q then f.dropBinders dropped else .quantified q x (f.dropBinders dropped)

/-- Replacement keeps the number of nodes. -/
@[simp] theorem size_substitute (x : Variable) (value : Term) (f : Formula) :
    (f.substitute x value).size = f.size := by
  -- Only arguments of atoms change.
  induction f with
  | atom a => rfl
  | not f ih => simp [substitute, size, ih]
  | binary op l r left right => simp [substitute, size, left, right]
  | quantified q y f ih =>
    simp only [substitute, size]
    split <;> simp [ih]

end Formula

end ClauseForm
