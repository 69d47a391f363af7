import ClauseForm.Json.SymbolForm
import ClauseForm.Proofs.Decoding

/-! Documents written with the numbers of symbols are read back if these numbers are in bounds. -/

namespace ClauseForm

open Json

section Bounds

/-- Terms whose numbers and arities can be read in documents. -/
inductive Term.Bounded : Term → Prop
  | var {x : Variable} (id : x.id < idBound) : Bounded (.var x)
  | const {c : Constant} (id : c.id < idBound) : Bounded (.const c)
  | app {f : FunctionSymbol} {args : List Term} (id : f.id < idBound) (arity : f.arity < sizeBound)
      (each : ∀ t ∈ args, Bounded t) : Bounded (.app f args)

/-- Atoms whose numbers and arities can be read in documents. -/
structure Atom.Bounded (a : Atom) : Prop where
  id : a.predicate.id < idBound
  arity : a.predicate.arity < sizeBound
  args : ∀ t ∈ a.args, t.Bounded

/-- Formulas whose numbers and arities can be read in documents. -/
inductive Formula.Bounded : Formula → Prop
  | atom {a : Atom} (within : a.Bounded) : Bounded (.atom a)
  | not {f : Formula} (within : Bounded f) : Bounded (.not f)
  | binary {op : Connective} {l r : Formula} (left : Bounded l) (right : Bounded r) :
    Bounded (.binary op l r)
  | quantified {q : Quantifier} {x : Variable} {f : Formula} (id : x.id < idBound)
      (within : Bounded f) : Bounded (.quantified q x f)

/-- Clauses whose numbers and arities can be read in documents. -/
def Clause.Bounded (c : Clause) : Prop := ∀ l ∈ c.literals, l.atom.Bounded

end Bounds

section Variants

variable {α : Type} {decode : Nat → Decoder α} {names : List String}
  {content : Nat → String → Decoder α} {plain : String → Except ReadError α} {name : String}
  {j : Json} {a : α}

/-- A variant is decoded where there is room for it if what it holds is decoded one level deeper. -/
theorem decodes_variant
    (step : ∀ room j, decode (room + 1) j = decodeVariant names (room + 1) (content room) plain j)
    (expected : name ∈ names) (deeper : ∀ room, j.nesting ≤ room → content room name j = .ok a) :
    Decodes decode (Json.fields [(name, j)]) a := by
  -- The object that names the variant takes a level of its own.
  intro room within
  obtain ⟨room, rfl, fits⟩ := nesting_fields_le_iff.mp within
  rw [step]
  exact decodeVariant_fields expected (deeper room (fits (name, j) (by simp)))

end Variants

section Symbols

variable {kind : Kind} {s : Symbol kind}

/-- A symbol is decoded if its number is in bounds. -/
theorem Symbol.decodes (id : s.id < idBound) : Decodes Symbol.decode s.toJson s := by
  -- A symbol is a record of its number.
  refine decodes_enter fun room fits => ?_
  exact decodeOne_fields (congrArg (Except.map Symbol.mk) (decodeBelow_nat id))

/-- A symbol is decoded with its arity if both are in bounds. -/
theorem Symbol.decodes_with_arity {arity : Nat} (id : s.id < idBound) (size : arity < sizeBound) :
    Decodes Symbol.decodeWithArity (s.toJsonWithArity arity) (s, arity) := by
  refine decodes_enter fun room fits => ?_
  -- The number is decoded first, and the arity from the same object.
  have number : Symbol.decodeId s.idToJson = .ok s :=
    congrArg (Except.map Symbol.mk) (decodeBelow_nat id)
  exact decodeTwo_fields (by decide) number (decodeBelow_nat size)

/-- A function symbol is decoded if its number and its arity are in bounds. -/
theorem FunctionSymbol.decodes {f : FunctionSymbol} (id : f.id < idBound)
    (arity : f.arity < sizeBound) : Decodes FunctionSymbol.decode f.toJson f := by
  intro room within
  exact bind_eq_ok.mpr ⟨_, Symbol.decodes_with_arity id arity room within, rfl⟩

/-- A predicate symbol is decoded if its number and its arity are in bounds. -/
theorem PredicateSymbol.decodes {p : PredicateSymbol} (id : p.id < idBound)
    (arity : p.arity < sizeBound) : Decodes PredicateSymbol.decode p.toJson p := by
  intro room within
  exact bind_eq_ok.mpr ⟨_, Symbol.decodes_with_arity id arity room within, rfl⟩

/-- The document of a symbol is plain. -/
theorem Symbol.plain (s : Symbol kind) : s.toJson.Plain :=
  .fields (by simp [Symbol.idToJson, Plain.nat])

/-- The document of a symbol with its arity is plain. -/
theorem Symbol.plain_with_arity (s : Symbol kind) (arity : Nat) :
    (s.toJsonWithArity arity).Plain :=
  .fields (by simp [Symbol.idToJson, Plain.nat])

end Symbols

section Terms

/-- The document of an application has that of its function and those of its arguments. -/
@[simp] theorem Term.toJson_app (f : FunctionSymbol) (args : List Term) :
    (app f args).toJson =
      Json.fields [("Function", .array [f.toJson, .array (args.map toJson)])] := by
  simp [toJson, fold, foldAll_eq_map]

/-- A list of terms is decoded if each of its terms is. -/
theorem Term.decodeAll_array {args : List Term} (each : ∀ t ∈ args, Decodes decode t.toJson t) :
    Decodes decodeAll (.array (args.map toJson)) args := by
  -- The array of the terms takes a level of its own.
  intro room within
  obtain ⟨room, rfl, fits⟩ := nesting_array_le_iff.mp within
  exact mapM_decode fun t listed => each t listed room (fits _ (List.mem_map_of_mem listed))

/-- A term in bounds is decoded, whatever its depth and its numbers of arguments. -/
theorem Term.Bounded.decodes {t : Term} (bounded : t.Bounded) : Decodes Term.decode t.toJson t := by
  -- Each kind of term is a variant that holds one value.
  induction bounded with
  | @var x id =>
    refine decodes_variant (fun _ _ => rfl) (by decide) fun room fits => ?_
    exact congrArg (Except.map Term.var) (Symbol.decodes id room fits)
  | @const c id =>
    refine decodes_variant (fun _ _ => rfl) (by decide) fun room fits => ?_
    exact congrArg (Except.map Term.const) (Symbol.decodes id room fits)
  | @app f args id arity _ each =>
    rw [Term.toJson_app]
    refine decodes_variant (fun _ _ => rfl) (by decide) fun room deep => ?_
    -- The function symbol and its arguments stand together in an array.
    obtain ⟨room, rfl, fits⟩ := nesting_array_le_iff.mp deep
    have symbol := FunctionSymbol.decodes id arity room (fits f.toJson (by simp))
    have parts := Term.decodeAll_array each room (fits (.array (args.map toJson)) (by simp))
    show Term.decodeApplication (room + 1) _ = _
    rw [Term.decodeApplication, decodePair_array symbol parts]
    rfl

/-- The document of a term is plain. -/
theorem Term.plain (t : Term) : t.toJson.Plain := by
  -- Arguments are plain by induction, and symbols are records of numbers.
  induction t with
  | var x => exact .fields (by simp [x.plain])
  | const c => exact .fields (by simp [c.plain])
  | app f args ih =>
    have parts := Plain.map ih
    have symbol : f.toJson.Plain := f.plain_with_arity f.arity
    have pair : (Json.array [f.toJson, .array (args.map toJson)]).Plain :=
      .array (by simp [symbol, parts])
    rw [toJson_app]
    exact .fields (by simp [pair])

end Terms

section Formulas

/-- An atom in bounds is decoded, whatever the number of its arguments. -/
theorem Atom.Bounded.decodes {a : Atom} (bounded : a.Bounded) : Decodes Atom.decode a.toJson a := by
  -- An atom is a record of its predicate and its arguments.
  refine decodes_enter fun room fits => ?_
  have predicate := PredicateSymbol.decodes bounded.id bounded.arity room
    (fits ("predicate", a.predicate.toJson) (by simp))
  have args := Term.decodeAll_array (fun t listed => (bounded.args t listed).decodes) room
    (fits ("args", .array (a.args.map Term.toJson)) (by simp))
  exact bind_eq_ok.mpr ⟨_, decodeTwo_fields (by decide) predicate args, rfl⟩

/-- The name of a quantifier is read as that quantifier. -/
theorem Quantifier.decode_toJson (q : Quantifier) (room : Nat) :
    Quantifier.decode room q.toJson = .ok q := by
  -- There are two names, both of which are expected.
  apply decodeWord_text
  cases q <;> rfl

/-- A formula in bounds is decoded, whatever its shape. -/
theorem Formula.Bounded.decodes {f : Formula} (bounded : f.Bounded) :
    Decodes Formula.decode f.toJson f := by
  -- Each shape of formula is a variant, whose parts stand one level deeper or two.
  induction bounded with
  | @atom a within =>
    refine decodes_variant (fun _ _ => rfl) (by decide) fun room fits => ?_
    exact congrArg (Except.map Formula.atom) (within.decodes room fits)
  | @not f _ ih =>
    refine decodes_variant (fun _ _ => rfl) (by decide) fun room fits => ?_
    exact congrArg (Except.map Formula.not) (ih room fits)
  | @binary op l r _ _ left right =>
    have expected : op.inspect ∈ formulaNames := by cases op <;> decide
    refine decodes_variant (fun _ _ => rfl) expected fun room deep => ?_
    obtain ⟨room, rfl, fits⟩ := nesting_array_le_iff.mp deep
    have one := left room (fits l.toJson (by simp))
    have two := right room (fits r.toJson (by simp))
    have operands : Formula.decodeOperands op (room + 1) (.array [l.toJson, r.toJson]) =
        .ok (.binary op l r) := by
      rw [Formula.decodeOperands, decodePair_array one two]
      rfl
    -- The name of each connective leads to the same two operands.
    cases op <;> exact operands
  | @quantified q x f id _ ih =>
    refine decodes_variant (fun _ _ => rfl) (by decide) fun room deep => ?_
    obtain ⟨room, rfl, fits⟩ := nesting_array_le_iff.mp deep
    have symbol := Symbol.decodes id room (fits x.toJson (by simp))
    have part := ih room (fits f.toJson (by simp))
    have scope := decodeTriple_array (q.decode_toJson room) symbol part
    show Formula.decodeScope (room + 1) _ = _
    rw [Formula.decodeScope, scope]
    rfl

/-- The document of an atom is plain. -/
theorem Atom.plain (a : Atom) : a.toJson.Plain := by
  have predicate : a.predicate.toJson.Plain := a.predicate.plain_with_arity a.predicate.arity
  have args := Plain.map fun t (_ : t ∈ a.args) => t.plain
  exact .fields (by simp [predicate, args])

/-- The document of a formula is plain. -/
theorem Formula.plain (f : Formula) : f.toJson.Plain := by
  -- The parts are plain by induction.
  induction f with
  | atom a => exact .fields (by simp [a.plain])
  | not f ih => exact .fields (by simp [ih])
  | binary op l r left right =>
    have operands : (Json.array [l.toJson, r.toJson]).Plain := .array (by simp [left, right])
    exact .fields (by simp [operands])
  | quantified q x f ih =>
    have scope : (Json.array [q.toJson, x.toJson, f.toJson]).Plain :=
      .array (by simp [Quantifier.toJson, Plain.text, x.plain, ih])
    exact .fields (by simp [scope])

end Formulas

section Clauses

/-- A literal is decoded if its atom is in bounds. -/
theorem Literal.decodes {l : Literal} (bounded : l.atom.Bounded) :
    Decodes Literal.decode l.toJson l := by
  refine decodes_enter fun room fits => ?_
  have predicate := PredicateSymbol.decodes bounded.id bounded.arity room
    (fits ("predicate", l.atom.predicate.toJson) (by simp))
  have args := Term.decodeAll_array (fun t listed => (bounded.args t listed).decodes) room
    (fits ("args", .array (l.atom.args.map Term.toJson)) (by simp))
  have polarity : decodeBool (.bool l.positive) = .ok l.positive := rfl
  let made : LiteralDraft := ⟨some l.atom.predicate, some l.atom.args, some l.positive⟩
  -- The draft takes its three fields in the order in which they are written.
  refine bind_eq_ok.mpr ⟨made, Fills.decodeRecord ?_ ?_ ?_, rfl⟩
  · exact .set rfl (FieldDecoder.set_of _ predicate) <| .set rfl (FieldDecoder.set_of _ args) <|
      .set rfl (FieldDecoder.set_of _ polarity) (.nil _)
  · simp [FieldDecoder.of]
  · simp [FieldDecoder.of, made]

/-- A clause in bounds is decoded. -/
theorem Clause.Bounded.decodes {c : Clause} (bounded : c.Bounded) :
    Decodes Clause.decode c.toJson c :=
  (decodes_listing fun l listed => Literal.decodes (bounded l listed)).map Clause.mk

/-- A set of clauses in bounds is decoded. -/
theorem Clause.decodes_set {cs : List Clause} (bounded : ∀ c ∈ cs, c.Bounded) :
    Decodes Clause.decodeSet (Clause.setToJson cs) cs :=
  decodes_listing fun c listed => (bounded c listed).decodes

/-- The document of a literal is plain. -/
theorem Literal.plain (l : Literal) : l.toJson.Plain := by
  -- A literal holds a truth value, numbers, and the documents of its arguments.
  have predicate : l.atom.predicate.toJson.Plain :=
    l.atom.predicate.plain_with_arity l.atom.predicate.arity
  have args := Plain.map fun t (_ : t ∈ l.atom.args) => t.plain
  exact .fields (by simp [predicate, args, Plain.bool])

/-- The document of a clause is plain. -/
theorem Clause.plain (c : Clause) : c.toJson.Plain :=
  Plain.listing "literals" fun l _ => l.plain

/-- The document of a set of clauses is plain. -/
theorem Clause.plain_set (cs : List Clause) : (Clause.setToJson cs).Plain :=
  Plain.listing "clauses" fun c _ => c.plain

end Clauses

section RoundTrips

/-- Whatever is written with numbers in bounds is read back from its compact text. -/
theorem numbered_roundTrips :
    (∀ f : Formula, f.Bounded → RoundTrips Formula.toJson Formula.decode f) ∧
      (∀ t : Term, t.Bounded → RoundTrips Term.toJson Term.decode t) ∧
      (∀ a : Atom, a.Bounded → RoundTrips Atom.toJson Atom.decode a) ∧
      (∀ l : Literal, l.atom.Bounded → RoundTrips Literal.toJson Literal.decode l) ∧
      (∀ c : Clause, c.Bounded → RoundTrips Clause.toJson Clause.decode c) ∧
      ∀ cs : List Clause, (∀ c ∈ cs, c.Bounded) →
        RoundTrips Clause.setToJson Clause.decodeSet cs := by
  -- Each document is plain, and each value in bounds is decoded.
  refine ⟨fun f within => ?_, fun t within => ?_, fun a within => ?_, fun l within => ?_,
    fun c within => ?_, fun cs within => ?_⟩
  · exact roundTrips_of_decodes f.plain within.decodes
  · exact roundTrips_of_decodes t.plain within.decodes
  · exact roundTrips_of_decodes a.plain within.decodes
  · exact roundTrips_of_decodes l.plain (Literal.decodes within)
  · exact roundTrips_of_decodes c.plain within.decodes
  · exact roundTrips_of_decodes (Clause.plain_set cs) (Clause.decodes_set within)

/-- An atom with the greatest numbers in bounds, and with more arguments than its arity tells. -/
def Atom.greatest : Atom :=
  { predicate := { id := idBound - 1, arity := 0 }
    args := [.app { id := idBound - 1, arity := sizeBound - 1 } [.var ⟨idBound - 1⟩, .const ⟨0⟩]] }

/-- The atom is in bounds. -/
theorem Atom.bounded_greatest : Atom.greatest.Bounded := by
  -- The arguments are a variable with the largest number and a constant with the smallest one.
  have parts : ∀ t ∈ [Term.var ⟨idBound - 1⟩, .const ⟨0⟩], t.Bounded :=
    List.forall_mem_cons.mpr ⟨.var (by decide), List.forall_mem_singleton.mpr (.const (by decide))⟩
  refine ⟨by decide, by decide, List.forall_mem_singleton.mpr ?_⟩
  exact .app (by decide) (by decide) parts

/-- A formula of all shapes over one atom. -/
def Formula.greatest : Formula :=
  .quantified .existential ⟨idBound - 1⟩ (.iff (.not (.atom .greatest)) (.atom .greatest))

/-- A clause that denies that atom, and a clause without literals. -/
def Clause.greatest : List Clause := [⟨[⟨false, .greatest⟩]⟩, ⟨[]⟩]

/-- The bounds are reached, and arities need not be the numbers of arguments. -/
theorem numbered_roundTrips_greatest :
    decode Formula.decode Formula.greatest.toJson.compact = .ok Formula.greatest ∧
      decode Clause.decodeSet (Clause.setToJson Clause.greatest).compact = .ok Clause.greatest := by
  -- Both are built from an atom that is in bounds.
  have atom := Atom.bounded_greatest
  have formula : Formula.greatest.Bounded :=
    .quantified (by decide) (.binary (.not (.atom atom)) (.atom atom))
  have clauses : ∀ c ∈ Clause.greatest, c.Bounded := by
    simp [Clause.greatest, Clause.Bounded, atom]
  obtain ⟨formulas, _, _, _, _, sets⟩ := numbered_roundTrips
  exact ⟨formulas Formula.greatest formula (by decide), sets Clause.greatest clauses (by decide)⟩

end RoundTrips

end ClauseForm
