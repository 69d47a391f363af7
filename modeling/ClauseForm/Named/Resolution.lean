import ClauseForm.Clause
import ClauseForm.SymbolTable
import ClauseForm.Named.Formula

/-! A symbol table turns named formulas into formulas over symbols and gives back their names. -/

namespace ClauseForm

namespace Named

mutual

/-- Interns the name of a function before those of its arguments, which count as its arity. -/
def Term.intern : Term → SymbolTable → ClauseForm.Term × SymbolTable
  | .var name, table =>
    let (x, table) := table.intern .var name
    (.var x, table)
  | .const name, table =>
    let (c, table) := table.intern .const name
    (.const c, table)
  | .app name args, table =>
    let (f, table) := table.intern .func name
    let (args, table) := Term.internAll args table
    (.app { f with arity := args.length } args, table)

/-- Interns the names of terms from left to right. -/
def Term.internAll : List Term → SymbolTable → List ClauseForm.Term × SymbolTable
  | [], table => ([], table)
  | t :: ts, table =>
    let (t, table) := t.intern table
    let (ts, table) := Term.internAll ts table
    (t :: ts, table)

end

/-- Interns the name of the predicate before those of its arguments, which count as its arity. -/
def Atom.intern (a : Atom) (table : SymbolTable) : ClauseForm.Atom × SymbolTable :=
  let (p, table) := table.intern .pred a.predicate
  let (args, table) := Term.internAll a.args table
  ({ predicate := { p with arity := args.length }, args }, table)

/-- Interns a bound name before its scope and the left side before the right one. -/
def Formula.intern : Formula → SymbolTable → ClauseForm.Formula × SymbolTable
  | .atom a, table =>
    let (a, table) := a.intern table
    (.atom a, table)
  | .not f, table =>
    let (f, table) := f.intern table
    (.not f, table)
  | .binary op l r, table =>
    let (l, table) := l.intern table
    let (r, table) := r.intern table
    (.binary op l r, table)
  | .quantified q name f, table =>
    let (x, table) := table.intern .var name
    let (f, table) := f.intern table
    (.quantified q x f, table)

/-- Interns formulas from left to right. -/
def Formula.internAll : List Formula → SymbolTable → List ClauseForm.Formula × SymbolTable
  | [], table => ([], table)
  | f :: fs, table =>
    let (f, table) := f.intern table
    let (fs, table) := Formula.internAll fs table
    (f :: fs, table)

end Named

/-- The term with names, unless a symbol has none. -/
def Term.named? (table : SymbolTable) : Term → Option Named.Term :=
  fold (fun x => (table.name? x).map .var) (fun c => (table.name? c).map .const) fun f args => do
    return .app (← table.name? f.toSymbol) (← args.mapM id)

/-- The atom with names, unless a symbol has none. -/
def Atom.named? (table : SymbolTable) (a : Atom) : Option Named.Atom := do
  let predicate ← table.name? a.predicate.toSymbol
  let args ← a.args.mapM (Term.named? table)
  return { predicate, args }

/-- The formula with names, unless a symbol has none. -/
def Formula.named? (table : SymbolTable) : Formula → Option Named.Formula
  | .atom a => (a.named? table).map .atom
  | .not f => (f.named? table).map .not
  | .binary op l r => do return .binary op (← l.named? table) (← r.named? table)
  | .quantified q x f => do return .quantified q (← table.name? x) (← f.named? table)

/-- The literal with names, unless a symbol has none. -/
def Literal.named? (table : SymbolTable) (l : Literal) : Option Named.Literal :=
  (l.atom.named? table).map fun atom => { positive := l.positive, atom }

/-- The clause with names, unless a symbol has none. -/
def Clause.named? (table : SymbolTable) (c : Clause) : Option Named.Clause :=
  (c.literals.mapM (Literal.named? table)).map Named.Clause.mk

/-- Text of a term, unless a symbol has no name. -/
def Term.text? (table : SymbolTable) (t : Term) : Option String :=
  (t.named? table).map Named.Term.text

/-- Text of an atom, unless a symbol has no name. -/
def Atom.text? (table : SymbolTable) (a : Atom) : Option String :=
  (a.named? table).map Named.Atom.text

/-- Text of a formula, unless a symbol has no name. -/
def Formula.text? (table : SymbolTable) (f : Formula) : Option String :=
  (f.named? table).map Named.Formula.text

/-- Text of a literal, unless a symbol has no name. -/
def Literal.text? (table : SymbolTable) (l : Literal) : Option String :=
  (l.named? table).map Named.Literal.text

/-- Text of a clause, unless a symbol has no name. -/
def Clause.text? (table : SymbolTable) (c : Clause) : Option String :=
  (c.named? table).map Named.Clause.text

end ClauseForm
