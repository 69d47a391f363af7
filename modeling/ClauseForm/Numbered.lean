import ClauseForm.Clause

/-! Numbered texts show symbols by kind and number, and every application with parentheses. -/

namespace ClauseForm

/-- A numbered symbol with its arguments in parentheses, which are there even when empty. -/
def numberedApplication (symbol : String) (args : List String) : String :=
  symbol ++ "(" ++ String.intercalate "," args ++ ")"

/-- Numbered text of a term. -/
def Term.numbered : Term → String :=
  fold Symbol.numbered Symbol.numbered fun f args => numberedApplication f.numbered args

/-- Numbered text of a literal. -/
def Literal.numbered (l : Literal) : String :=
  let atom := numberedApplication l.atom.predicate.numbered (l.atom.args.map Term.numbered)
  if l.positive then atom else "-" ++ atom

/-- Numbered text of a clause. -/
def Clause.numbered (c : Clause) : String :=
  if c.isEmpty then "⊥" else String.intercalate " | " (c.literals.map Literal.numbered)

end ClauseForm
