import ClauseForm.Json.Decoder
import ClauseForm.Named.Resolution

/-! Documents in which formulas and clauses are written with names. -/

namespace ClauseForm.Named

open Json

/-- A problem is a list of formulas read as their conjunction. -/
structure Problem where
  formulas : List Formula
  deriving DecidableEq

/-- A term as a tagged object. -/
def Term.toJson : Term → Json :=
  fold (fun x => Json.fields [(tagName, .text "variable"), ("name", .text x)])
    (fun c => Json.fields [(tagName, .text "constant"), ("name", .text c)])
    fun f args =>
      Json.fields [(tagName, .text "function"), ("name", .text f), ("args", .array args)]

/-- The members for an atom, where arguments are left out when there is none. -/
def Atom.members (a : Atom) : List (String × Json) :=
  ("predicate", .text a.predicate) ::
    if a.args.isEmpty then [] else [("args", .array (a.args.map Term.toJson))]

/-- Tag of a connective. -/
def connectiveTag : Connective → String
  | .and => "and"
  | .or => "or"
  | .implies => "implies"
  | .iff => "iff"

/-- Tag of a quantifier. -/
def quantifierTag : Quantifier → String
  | .universal => "forall"
  | .existential => "exists"

/-- A formula as a tagged object. -/
def Formula.toJson : Formula → Json
  | .atom a => Json.fields ((tagName, .text "atom") :: a.members)
  | .not f => Json.fields [(tagName, .text "not"), ("formula", f.toJson)]
  | .binary op l r =>
    Json.fields [(tagName, .text (connectiveTag op)), ("left", l.toJson), ("right", r.toJson)]
  | .quantified q name f =>
    Json.fields [(tagName, .text (quantifierTag q)), ("variable", .text name), ("body", f.toJson)]

/-- A problem as an object. -/
def Problem.toJson (p : Problem) : Json :=
  Json.fields [("formulas", .array (p.formulas.map Formula.toJson))]

/-- An atom as an object. -/
def Atom.toJson (a : Atom) : Json := Json.fields a.members

/-- A literal as an object. -/
def Literal.toJson (l : Literal) : Json :=
  Json.fields [("polarity", .bool l.positive), ("atom", l.atom.toJson)]

/-- A clause as an object. -/
def Clause.toJson (c : Clause) : Json :=
  Json.fields [("literals", .array (c.literals.map Literal.toJson))]

/-- A set of clauses as an object. -/
def Clause.setToJson (cs : List Clause) : Json :=
  Json.fields [("clauses", .array (cs.map Clause.toJson))]

/-- Tags of terms. -/
def termTags : List String := ["variable", "constant", "function"]

/-- Decodes the fields of a term with a tag, and its arguments as given. -/
def Term.decodeFields (decodeArgs : Decoder (List Term)) (tag : String) (fields : Json) :
    Except ReadError Term :=
  match tag with
  | "variable" => (decodeOne "name" decodeText skipStored fields).map .var
  | "constant" => (decodeOne "name" decodeText skipStored fields).map .const
  | _ => do
    let (name, args) ← decodeTwo "name" decodeText "args" decodeArgs none skipStored fields
    return .app name args

mutual

/-- Decodes a term within a value that is kept. -/
def Term.decodeStored : Nat → Decoder Term
  | 0, _ => .error .malformed
  | room + 1, j => do
    let (tag, fields) ← decodeTagged (decodeStoredTag termTags) skipStored j
    Term.decodeFields (Term.decodeAllStored room) tag fields

/-- Decodes an array of terms within a value that is kept. -/
def Term.decodeAllStored : Nat → Decoder (List Term)
  | room + 1, .array items => items.mapM (Term.decodeStored room)
  | _, _ => .error .malformed

end

/-- Decodes a term, which is kept as a whole before its fields are looked at. -/
def Term.decode : Nat → Decoder Term :=
  enter fun room j => do
    let (tag, fields) ← decodeTagged (decodeTag termTags) (store room) j
    Term.decodeFields (Term.decodeAllStored room) tag fields

/-- Decodes the fields of an atom, with its arguments as given. -/
def Atom.decodeFields (decodeArgs : Decoder (List Term)) (skip : Decoder Unit) (fields : Json) :
    Except ReadError Atom := do
  let (predicate, args) ← decodeTwo "predicate" decodeText "args" decodeArgs (some []) skip fields
  return { predicate, args }

/-- Tags of formulas. -/
def formulaTags : List String :=
  ["atom", "not", "and", "or", "implies", "iff", "forall", "exists"]

/-- Decodes the fields of a formula with a tag, and the formulas and terms in it as given. -/
def Formula.decodeFields (decodeArgs : Decoder (List Term)) (decodePart : Decoder Formula)
    (tag : String) (fields : Json) : Except ReadError Formula :=
  let operands := fun op => do
    let (l, r) ← decodeTwo "left" decodePart "right" decodePart none skipStored fields
    return .binary op l r
  let scope := fun q => do
    let (name, f) ← decodeTwo "variable" decodeText "body" decodePart none skipStored fields
    return .quantified q name f
  match tag with
  | "atom" => (Atom.decodeFields decodeArgs skipStored fields).map .atom
  | "not" => (decodeOne "formula" decodePart skipStored fields).map .not
  | "and" => operands .and
  | "or" => operands .or
  | "implies" => operands .implies
  | "iff" => operands .iff
  | "forall" => scope .universal
  | _ => scope .existential

/-- Decodes a formula within a value that is kept. -/
def Formula.decodeStored : Nat → Decoder Formula
  | 0, _ => .error .malformed
  | room + 1, j => do
    let (tag, fields) ← decodeTagged (decodeStoredTag formulaTags) skipStored j
    Formula.decodeFields (Term.decodeAllStored room) (Formula.decodeStored room) tag fields

/-- Decodes a formula, which is kept as a whole before its fields are looked at. -/
def Formula.decode : Nat → Decoder Formula :=
  enter fun room j => do
    let (tag, fields) ← decodeTagged (decodeTag formulaTags) (store room) j
    Formula.decodeFields (Term.decodeAllStored room) (Formula.decodeStored room) tag fields

/-- Decodes a problem. -/
def Problem.decode : Nat → Decoder Problem :=
  enter fun room j => (decodeOne "formulas" (decodeList Formula.decode room) skip j).map Problem.mk

/-- Decodes an atom. -/
def Atom.decode : Nat → Decoder Atom :=
  enter fun room j => Atom.decodeFields (decodeList Term.decode room) skip j

/-- Decodes a literal. -/
def Literal.decode : Nat → Decoder Literal :=
  enter fun room j => do
    let (positive, atom) ← decodeTwo "polarity" decodeBool "atom" (Atom.decode room) none skip j
    return { positive, atom }

/-- Decodes a clause. -/
def Clause.decode : Nat → Decoder Clause :=
  enter fun room j => (decodeOne "literals" (decodeList Literal.decode room) skip j).map Clause.mk

/-- Decodes a set of clauses. -/
def Clause.decodeSet : Nat → Decoder (List Clause) :=
  enter fun room j => decodeOne "clauses" (decodeList Clause.decode room) skip j

end ClauseForm.Named
