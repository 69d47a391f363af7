import ClauseForm.Inspection
import ClauseForm.Json.Decoder

/-! Documents in which formulas and clauses are written with the numbers of their symbols. -/

namespace ClauseForm

open Json

/-- Numbers of symbols lie below this bound in documents. -/
def idBound : Nat := Nat.pow 2 32

/-- Arities and limits lie below this bound in documents. -/
def sizeBound : Nat := Nat.pow 2 64

/-- A symbol as its number. -/
def Symbol.idToJson {kind : Kind} (s : Symbol kind) : Json := .nat s.id

/-- A symbol as an object. -/
def Symbol.toJson {kind : Kind} (s : Symbol kind) : Json := Json.fields [("id", s.idToJson)]

/-- A symbol with an arity as an object. -/
def Symbol.toJsonWithArity {kind : Kind} (s : Symbol kind) (arity : Nat) : Json :=
  Json.fields [("id", s.idToJson), ("arity", .nat arity)]

/-- A function symbol as an object. -/
def FunctionSymbol.toJson (f : FunctionSymbol) : Json := f.toJsonWithArity f.arity

/-- A predicate symbol as an object. -/
def PredicateSymbol.toJson (p : PredicateSymbol) : Json := p.toJsonWithArity p.arity

/-- A term as an object named for its constructor. -/
def Term.toJson : Term → Json :=
  fold (fun x => Json.fields [("Variable", x.toJson)])
    (fun c => Json.fields [("Constant", c.toJson)])
    fun f args => Json.fields [("Function", .array [f.toJson, .array args])]

/-- An atom as an object. -/
def Atom.toJson (a : Atom) : Json :=
  Json.fields [("predicate", a.predicate.toJson), ("args", .array (a.args.map Term.toJson))]

/-- A quantifier as the name of its constructor. -/
def Quantifier.toJson (q : Quantifier) : Json := .text q.inspect

/-- A formula as an object named for its constructor. -/
def Formula.toJson : Formula → Json
  | .atom a => Json.fields [("Atom", a.toJson)]
  | .not f => Json.fields [("Not", f.toJson)]
  | .binary op l r => Json.fields [(op.inspect, .array [l.toJson, r.toJson])]
  | .quantified q x f =>
    Json.fields [("Quantified", .array [q.toJson, x.toJson, f.toJson])]

/-- A literal as an object. -/
def Literal.toJson (l : Literal) : Json :=
  Json.fields [("predicate", l.atom.predicate.toJson),
    ("args", .array (l.atom.args.map Term.toJson)), ("polarity", .bool l.positive)]

/-- A clause as an object. -/
def Clause.toJson (c : Clause) : Json :=
  Json.fields [("literals", .array (c.literals.map Literal.toJson))]

/-- A set of clauses as an object. -/
def Clause.setToJson (cs : List Clause) : Json :=
  Json.fields [("clauses", .array (cs.map Clause.toJson))]

/-- Decodes the number of a symbol. -/
def Symbol.decodeId {kind : Kind} (j : Json) : Except ReadError (Symbol kind) :=
  (decodeBelow idBound j).map Symbol.mk

/-- Decodes a symbol. -/
def Symbol.decode {kind : Kind} : Nat → Decoder (Symbol kind) :=
  enter fun _ j => decodeOne "id" Symbol.decodeId skip j

/-- Decodes a symbol with its arity. -/
def Symbol.decodeWithArity {kind : Kind} : Nat → Decoder (Symbol kind × Nat) :=
  enter fun _ j => decodeTwo "id" Symbol.decodeId "arity" (decodeBelow sizeBound) none skip j

/-- Decodes a function symbol. -/
def FunctionSymbol.decode (room : Nat) (j : Json) : Except ReadError FunctionSymbol := do
  let (f, arity) : Symbol .func × Nat ← Symbol.decodeWithArity room j
  return { f with arity }

/-- Decodes a predicate symbol. -/
def PredicateSymbol.decode (room : Nat) (j : Json) : Except ReadError PredicateSymbol := do
  let (p, arity) : Symbol .pred × Nat ← Symbol.decodeWithArity room j
  return { p with arity }

/-- Refuses a name that stands alone though its variant holds something. -/
def refusePlain {α : Type} (_ : String) : Except ReadError α := .error .malformed

/-- Names of the constructors of terms. -/
def termNames : List String := ["Variable", "Constant", "Function"]

mutual

/-- Decodes a term. -/
def Term.decode : Nat → Decoder Term
  | 0, j => decodeVariant termNames 0 (fun _ _ => .error .malformed) refusePlain j
  | room + 1, j =>
    let content := fun name value =>
      match name with
      | "Variable" => (Symbol.decode room value).map .var
      | "Constant" => (Symbol.decode room value).map .const
      | _ => Term.decodeApplication room value
    decodeVariant termNames (room + 1) content refusePlain j

/-- Decodes a function symbol and its arguments. -/
def Term.decodeApplication : Nat → Decoder Term
  | room + 1, .array items =>
    (decodePair (FunctionSymbol.decode room) (Term.decodeAll room) items).map fun (f, args) =>
      .app f args
  | _, _ => .error .malformed

/-- Decodes an array of terms. -/
def Term.decodeAll : Nat → Decoder (List Term)
  | room + 1, .array items => items.mapM (Term.decode room)
  | _, _ => .error .malformed

end

/-- Decodes an atom. -/
def Atom.decode : Nat → Decoder Atom :=
  enter fun room j => do
    let (predicate, args) ←
      decodeTwo "predicate" (PredicateSymbol.decode room) "args" (Term.decodeAll room) none skip j
    return { predicate, args }

/-- The quantifiers by the names of their constructors. -/
def quantifierNames : List (String × Quantifier) :=
  [Quantifier.universal, .existential].map fun q => (q.inspect, q)

/-- Decodes a quantifier. -/
def Quantifier.decode (room : Nat) (j : Json) : Except ReadError Quantifier :=
  decodeWord quantifierNames room j

/-- Names of the constructors of formulas. -/
def formulaNames : List String := ["Atom", "Not", "And", "Or", "Implies", "Iff", "Quantified"]

mutual

/-- Decodes a formula. -/
def Formula.decode : Nat → Decoder Formula
  | 0, j => decodeVariant formulaNames 0 (fun _ _ => .error .malformed) refusePlain j
  | room + 1, j =>
    let content := fun name value =>
      match name with
      | "Atom" => (Atom.decode room value).map .atom
      | "Not" => (Formula.decode room value).map .not
      | "And" => Formula.decodeOperands .and room value
      | "Or" => Formula.decodeOperands .or room value
      | "Implies" => Formula.decodeOperands .implies room value
      | "Iff" => Formula.decodeOperands .iff room value
      | _ => Formula.decodeScope room value
    decodeVariant formulaNames (room + 1) content refusePlain j

/-- Decodes the operands of a connective. -/
def Formula.decodeOperands (op : Connective) : Nat → Decoder Formula
  | room + 1, .array items =>
    (decodePair (Formula.decode room) (Formula.decode room) items).map fun (l, r) => .binary op l r
  | _, _ => .error .malformed

/-- Decodes a quantifier, its variable and its scope. -/
def Formula.decodeScope : Nat → Decoder Formula
  | room + 1, .array items =>
    (decodeTriple (Quantifier.decode room) (Symbol.decode room) (Formula.decode room) items).map
      fun (q, x, f) => .quantified q x f
  | _, _ => .error .malformed

end

/-- The parts of a literal that have been read. -/
structure LiteralDraft where
  predicate : Option PredicateSymbol := none
  args : Option (List Term) := none
  polarity : Option Bool := none

/-- Decodes a literal. -/
def Literal.decode : Nat → Decoder Literal :=
  enter fun room j => do
    let fields : List (FieldDecoder LiteralDraft) :=
      [.of "predicate" false (·.predicate) (fun p draft => { draft with predicate := some p })
          (PredicateSymbol.decode room),
        .of "args" false (·.args) (fun args draft => { draft with args := some args })
          (Term.decodeAll room),
        .of "polarity" false (·.polarity) (fun b draft => { draft with polarity := some b })
          decodeBool]
    match ← decodeRecord fields skip {} j with
    | { predicate := some predicate, args := some args, polarity := some positive } =>
      return { positive, atom := { predicate, args } }
    | _ => .error .malformed

/-- Decodes a clause. -/
def Clause.decode : Nat → Decoder Clause :=
  enter fun room j => (decodeOne "literals" (decodeList Literal.decode room) skip j).map Clause.mk

/-- Decodes a set of clauses. -/
def Clause.decodeSet : Nat → Decoder (List Clause) :=
  enter fun room j => decodeOne "clauses" (decodeList Clause.decode room) skip j

end ClauseForm
