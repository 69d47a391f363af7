import ClauseForm.Formula
import ClauseForm.SymbolTable

/-! Bound variables are renamed so that no variable is bound twice. -/

namespace ClauseForm

/-- A quantifier that was given a new variable, and the symbols known once it had it. -/
structure Renaming where
  quantifier : Quantifier
  old : Variable
  new : Variable
  symbols : SymbolTable

/-- Variables that may not be bound again, and the table that supplies new ones. -/
structure Naming where
  taken : List Variable
  symbols : SymbolTable
  /-- Renamings made so far, in their order. -/
  renamings : List Renaming := []

/-- A variable for a quantifier: the one asked for unless it is taken, else a new one. -/
def Naming.claim (naming : Naming) (q : Quantifier) (x : Variable) : Variable × Naming :=
  if x ∈ naming.taken then
    let (y, symbols) := naming.symbols.freshVariable
    (y, { taken := y :: naming.taken
          symbols
          renamings := naming.renamings ++ [{ quantifier := q, old := x, new := y, symbols }] })
  else (x, { naming with taken := x :: naming.taken })

/-- A variable for a quantifier, which keeps the one it has unless it is chosen to claim one. -/
def Naming.settle (naming : Naming) (claims : Quantifier → Bool) (q : Quantifier) (x : Variable) :
    Variable × Naming :=
  if claims q then naming.claim q x else (x, naming)

namespace Formula

/--
Lets the quantifiers chosen claim the variables they bind, each before its scope and from left to
right, and renames all other variables as given.
-/
def claimBinders (claims : Quantifier → Bool) :
    Formula → (Variable → Variable) → Naming → Formula × Naming
  | .atom a, names, naming => (.atom (a.rename names), naming)
  | .not f, names, naming =>
    let (f, naming) := f.claimBinders claims names naming
    (.not f, naming)
  | .binary op l r, names, naming =>
    let (l, naming) := l.claimBinders claims names naming
    let (r, naming) := r.claimBinders claims names naming
    (.binary op l r, naming)
  | .quantified q x f, names, naming =>
    let (y, naming) := naming.settle claims q x
    let (f, naming) := f.claimBinders claims (assign names x y) naming
    (.quantified q y f, naming)

/-- Gives each quantifier a variable that is not taken when its turn comes. -/
def standardizeVariables (f : Formula) (naming : Naming) : Formula × Naming :=
  f.claimBinders (fun _ => true) id naming

/-- Gives each quantifier a variable of its own that is not free in the formula either. -/
def standardize (f : Formula) (symbols : SymbolTable) : Formula × Naming :=
  f.standardizeVariables { taken := f.freeVariables, symbols }

/-- Standardizes formulas one after the other, each by itself, and lists all renamings. -/
def standardizeAll :
    List Formula → SymbolTable → List Formula × SymbolTable × List Renaming
  | [], symbols => ([], symbols, [])
  | f :: fs, symbols =>
    let (f, naming) := f.standardize symbols
    let (fs, symbols, renamings) := standardizeAll fs naming.symbols
    (f :: fs, symbols, naming.renamings ++ renamings)

/-- Lets the universal quantifiers of all formulas claim their variables from one supply. -/
def claimUniversals : List Formula → Naming → List Formula × Naming
  | [], naming => ([], naming)
  | f :: fs, naming =>
    let (f, naming) := f.claimBinders (· == .universal) id naming
    let (fs, naming) := claimUniversals fs naming
    (f :: fs, naming)

/-- Gives each universal quantifier of a list of formulas a variable of its own. -/
def renameAcross (fs : List Formula) (symbols : SymbolTable) : List Formula × Naming :=
  claimUniversals fs { taken := [], symbols }

end Formula

end ClauseForm
