import ClauseForm.Proofs.Interruption
import ClauseForm.Proofs.WitnessTerms

/-! The names that supplies give out, and the names of other symbols that they may coincide with. -/

namespace ClauseForm

instance : Fintype Kind where
  elems := {.var, .const, .func, .pred}
  complete kind := by cases kind <;> decide

namespace Kind

/-- Kinds of symbol among which the supply for a kind looks for a name before it gives it out. -/
def avoids : Kind → List Kind
  | .var => [.var]
  | .const | .func => [.const, .func]
  | .pred => []

/-- The labels that the supply for a kind makes. There is none for predicates. -/
def Labels : Kind → String → Prop
  | .var, name => ∃ number, name = SymbolTable.variableLabel number
  | .const, name | .func, name => ∃ number, name = SymbolTable.skolemLabel number
  | .pred, _ => False

/-- The labels of variables begin in another way than those of Skolem symbols. -/
theorem labels_disjoint {kind : Kind} {name : String} (isVariable : Kind.var.Labels name)
    (other : kind ≠ .var) : ¬ kind.Labels name := by
  -- The first letters differ already.
  have differ (m n : Nat) : SymbolTable.variableLabel m ≠ SymbolTable.skolemLabel n := by
    intro same
    have letters := congrArg String.toList same
    simp [SymbolTable.variableLabel, SymbolTable.skolemLabel] at letters
  obtain ⟨m, rfl⟩ := isVariable
  cases kind with
  | var => exact absurd rfl other
  | const | func =>
    rintro ⟨n, same⟩
    exact differ m n same
  | pred => exact not_false

/-- Every label begins with one of two letters. -/
theorem not_labels {kind : Kind} {name : String}
    (plain : name.toList.head? ∉ [some 'z', some 's']) : ¬ kind.Labels name := by
  -- A name with a label begins with the letter of the label.
  intro label
  cases kind with
  | var | const | func =>
    -- The digits come after the letters.
    obtain ⟨number, rfl⟩ := label
    simp [SymbolTable.variableLabel, SymbolTable.skolemLabel] at plain
  -- There are no labels of predicates.
  | pred => exact label

end Kind

namespace SymbolTable

variable {a b table : SymbolTable}

/-- Whatever has been given out carries a label that was known in none of the kinds looked at. -/
theorem Supplies.named {given : List AnySymbol} (calls : Supplies a given b) : ∀ s ∈ given,
    ∃ name, b.name? s.2 = some name ∧ s.1.Labels name ∧
      ∀ other ∈ s.1.avoids, a.contains other name = false := by
  -- A label that is unknown at a call was unknown before, and its symbol keeps it.
  induction calls with
  | none => exact nofun
  | @freshVariable table _ _ rest ih =>
    -- The variable given out keeps its name, and later calls are dealt with by induction.
    refine List.forall_mem_cons.mpr ⟨?_, fun s listed => ?_⟩
    · obtain ⟨number, unknown, named⟩ := table.freshVariable_named
      exact ⟨_, rest.paired.grows _ _ _ named, ⟨number, rfl⟩, by simpa [Kind.avoids] using unknown⟩
    · obtain ⟨name, named, label, unknown⟩ := ih s listed
      exact ⟨name, named, label, fun other listed =>
        table.grows_freshVariable.unknown (unknown other listed)⟩
  | @freshSkolem table _ _ rest ih =>
    -- The constant and the function have been given the same label.
    obtain ⟨number, constant, function, first, second⟩ := table.freshSkolem_named
    refine List.forall_mem_cons.mpr ⟨?_, List.forall_mem_cons.mpr ⟨?_, fun s listed => ?_⟩⟩
    · exact ⟨_, rest.paired.grows _ _ _ first, ⟨number, rfl⟩,
        by simpa [Kind.avoids] using ⟨constant, function⟩⟩
    · exact ⟨_, rest.paired.grows _ _ _ second, ⟨number, rfl⟩,
        by simpa [Kind.avoids] using ⟨constant, function⟩⟩
    · obtain ⟨name, named, label, unknown⟩ := ih s listed
      exact ⟨name, named, label, fun other listed =>
        table.grows_freshSkolem.unknown (unknown other listed)⟩

/-- A symbol that has become known by calls to the supplies carries a label. -/
theorem Supplied.named (supplied : a.Supplied b) {kind : Kind} {s : Symbol kind}
    (new : a.New b s) : ∃ name, b.name? s = some name ∧ kind.Labels name ∧
      ∀ other ∈ kind.avoids, a.contains other name = false := by
  -- What has become known is among the symbols given out.
  obtain ⟨given, calls⟩ := supplied
  exact calls.named ⟨kind, s⟩ (calls.mem_iff.mpr new)

/-- No name is known in two kinds. -/
def SingleKinded (table : SymbolTable) : Prop :=
  ∀ (first second : Kind) (name : String), table.contains first name = true →
    table.contains second name = true → first = second

/-- No name is known in a kind if a supply may make it without looking at this kind. -/
def LabelsGuarded (table : SymbolTable) : Prop :=
  ∀ (kind other : Kind) (name : String), table.contains kind name = true →
    other.Labels name → kind ∈ other.avoids

/-- Only the name that is interned becomes known, and in its kind only. -/
theorem of_contains_intern {kind other : Kind} {name label : String}
    (known : (table.intern kind name).2.contains other label = true) :
    table.contains other label = true ∨ other = kind ∧ label = name := by
  -- Names are interned kind by kind.
  by_cases same : other = kind
  · subst same
    obtain ⟨s, stored⟩ := contains_iff.mp known
    -- Either the name was known and nothing is added, or it is put after all others.
    cases found : (table.names other).find? name with
    | some id =>
      rw [name?, intern, Names.intern_of_find? found, names_withNames] at stored
      exact Or.inl (contains_iff.mpr ⟨s, stored⟩)
    | none =>
      rw [name?, intern, Names.intern_of_unknown found, names_withNames, Names.name?_add] at stored
      split at stored
      · exact Or.inr ⟨rfl, (Option.some.inj stored).symm⟩
      · exact Or.inl (contains_iff.mpr ⟨s, stored⟩)
  · -- Other kinds keep the names that they had.
    exact Or.inl ((contains_intern_of_ne table name label same).symm.trans known)

/-- A table without names knows no name in any kind. -/
theorem contains_empty (kind : Kind) (name : String) : empty.contains kind name = false := by
  -- A known name would be that of some symbol.
  cases known : empty.contains kind name with
  | false => rfl
  | true =>
    obtain ⟨s, stored⟩ := contains_iff.mp known
    -- No symbol has a number below zero.
    have below := knows_iff.mp (Option.isSome_of_eq_some stored)
    cases kind <;> exact absurd below (Nat.not_lt_zero _)

/-- A table without names has no name in two kinds. -/
theorem singleKinded_empty : empty.SingleKinded := fun first _ name known =>
  absurd ((contains_empty first name).symm.trans known) Bool.false_ne_true

/-- A table without names has no label to be guarded. -/
theorem labelsGuarded_empty : empty.LabelsGuarded := fun kind _ name known =>
  absurd ((contains_empty kind name).symm.trans known) Bool.false_ne_true

/-- Interning a name that no other kind knows lets no name be known in two kinds. -/
theorem SingleKinded.intern (single : table.SingleKinded) {kind : Kind} {name : String}
    (unknown : ∀ other ≠ kind, table.contains other name = false) :
    (table.intern kind name).2.SingleKinded := by
  intro first second label one two
  -- A kind that knows the name already is the one that it is interned in.
  have only {other : Kind} (known : table.contains other name = true) : other = kind := by
    by_contra different
    exact Bool.false_ne_true ((unknown other different).symm.trans known)
  -- Each of the two was known before, or it is the name that is interned.
  rcases of_contains_intern one with one | ⟨here, same⟩ <;>
    rcases of_contains_intern two with two | ⟨there, alike⟩
  · exact single first second label one two
  · exact (only (alike ▸ one)).trans there.symm
  · exact here.trans (only (same ▸ two)).symm
  · exact here.trans there.symm

/-- Interning a name that is no label keeps labels guarded. -/
theorem LabelsGuarded.intern (guarded : table.LabelsGuarded) {kind : Kind} {name : String}
    (plain : ∀ other : Kind, ¬ other.Labels name) : (table.intern kind name).2.LabelsGuarded := by
  -- A name that is no label needs no guard.
  intro first other label known made
  rcases of_contains_intern known with known | ⟨rfl, rfl⟩
  · exact guarded first other label known made
  · exact absurd made (plain other)

namespace Supplied

variable {kind : Kind} {x : Variable} {s : Symbol kind}

/-- A variable shares its name with a symbol of another kind only if one of them was given out. -/
theorem knows_iff_not (supplied : a.Supplied b) (single : a.SingleKinded) (bound : b.Knows x)
    (other : kind ≠ .var) (same : b.name? x = b.name? s) : a.Knows x ↔ ¬ a.Knows s := by
  have grows : a.Grows b := supplied.paired.grows
  obtain ⟨name, first⟩ := Option.isSome_iff_exists.mp bound
  have second : b.name? s = some name := same.symm.trans first
  constructor
  · -- If both had been known before, the name would have been known in two kinds.
    intro knowsX knowsS
    have one := contains_iff.mpr ⟨x, (grows.name?_eq knowsX).symm.trans first⟩
    have two := contains_iff.mpr ⟨s, (grows.name?_eq knowsS).symm.trans second⟩
    exact other (single _ _ name one two).symm
  · -- If both had been given out, the name would be a label of two supplies.
    intro unknownS
    by_contra unknownX
    obtain ⟨_, namedX, labelX, _⟩ := supplied.named ⟨unknownX, bound⟩
    obtain ⟨_, namedS, labelS, _⟩ := supplied.named ⟨unknownS, Option.isSome_of_eq_some second⟩
    obtain rfl := Option.some.inj (namedX.symm.trans first)
    obtain rfl := Option.some.inj (namedS.symm.trans second)
    exact Kind.labels_disjoint labelX other labelS

/-- Where labels are guarded, the name of a symbol that was given out was not known at all. -/
theorem unknown_of_guarded (supplied : a.Supplied b) (guarded : a.LabelsGuarded)
    (new : a.New b s) {name : String} (named : b.name? s = some name) (other : Kind) :
    a.contains other name = false := by
  -- The label that the symbol has been given is its name.
  obtain ⟨_, stored, label, unknown⟩ := supplied.named new
  obtain rfl := Option.some.inj (stored.symm.trans named)
  -- A name known in any kind would be one that the supply has looked for.
  cases known : a.contains other _ with
  | false => rfl
  | true => exact known.symm.trans (unknown other (guarded other kind _ known label))

/-- Where labels are guarded, no variable shares its name with a symbol of another kind. -/
theorem name?_ne_of_guarded (supplied : a.Supplied b) (single : a.SingleKinded)
    (guarded : a.LabelsGuarded) (bound : b.Knows x) (other : kind ≠ .var) :
    b.name? x ≠ b.name? s := by
  -- Of a variable and a symbol with one name, one is old and the other one is new.
  intro same
  have grows : a.Grows b := supplied.paired.grows
  have exclusive := supplied.knows_iff_not single bound other same
  obtain ⟨name, first⟩ := Option.isSome_iff_exists.mp bound
  have second : b.name? s = some name := same.symm.trans first
  -- The one that was known before has a name that the other one was given.
  by_cases knowsX : a.Knows x
  · have known := contains_iff.mpr ⟨x, (grows.name?_eq knowsX).symm.trans first⟩
    have new : a.New b s := ⟨exclusive.mp knowsX, Option.isSome_of_eq_some second⟩
    exact Bool.false_ne_true ((supplied.unknown_of_guarded guarded new second _).symm.trans known)
  · have knowsS : a.Knows s := not_not.mp (mt exclusive.mpr knowsX)
    have known := contains_iff.mpr ⟨s, (grows.name?_eq knowsS).symm.trans second⟩
    have new : a.New b x := ⟨knowsX, bound⟩
    exact Bool.false_ne_true ((supplied.unknown_of_guarded guarded new first _).symm.trans known)

end Supplied

end SymbolTable

/-- The symbol that a term begins with. -/
def Term.head : Term → AnySymbol
  | .var x => ⟨.var, x⟩
  | .const c => ⟨.const, c⟩
  | .app f _ => ⟨.func, f.toSymbol⟩

/-- What a known clause contains is known. -/
theorem Clause.Known.contains {table : SymbolTable} {c : Clause} (known : c.Known table) {t : Term}
    (contains : c.Contains t) : t.Known table := by
  -- A clause contains what stands in the arguments of its literals.
  obtain ⟨l, listed, s, argument, inside⟩ := contains
  exact inside.known ((known l listed).2 s argument)

/--
A variable within some clauses has the same name as a constant or a function symbol within them, at
which a term begins.
-/
structure Clause.Clash (cs : List Clause) (table : SymbolTable) (x : Variable) (t : Term) :
    Prop where
  left : ∃ c ∈ cs, c.Contains (.var x)
  right : ∃ c ∈ cs, c.Contains t
  other : t.head.1 ≠ .var
  same : table.name? x = table.name? t.head.2

section Whole

variable {config : Config} {clock : Clock} {formulas : List Formula} {symbols : SymbolTable}
  {sink : Sink} {result : Normalized}

/-- The symbols in the clauses of a run are known in the end. -/
theorem known_clauses (known : ∀ f ∈ formulas, f.Known symbols)
    (succeeded : (normalize config clock formulas symbols sink).result = .ok result) :
    ∀ c ∈ result.clauses,
      c.Known (normalize config clock formulas symbols sink).symbols :=
  Formula.known_extractClauses (prepared_normalize known succeeded).known
    (normalize_ok succeeded).1

/--
A symbol that a run gives out carries a label that was unknown in the kinds that its supply looks
at, and only these. Hence it may have the name of a symbol of another kind, and where a variable in
the clauses has the name of a constant or a function, one of them was given out and the other was
not. Nothing of this happens if no label was known in a kind that is not looked at.
-/
theorem normalize_names (known : ∀ f ∈ formulas, f.Known symbols) (single : symbols.SingleKinded)
    (succeeded : (normalize config clock formulas symbols sink).result = .ok result) :
    (∀ (kind : Kind) (s : Symbol kind),
      symbols.New (normalize config clock formulas symbols sink).symbols s →
      ∃ name, (normalize config clock formulas symbols sink).symbols.name? s = some name ∧
        kind.Labels name ∧ ∀ other ∈ kind.avoids, symbols.contains other name = false) ∧
    (∀ x t, Clause.Clash result.clauses (normalize config clock formulas symbols sink).symbols x t →
      (symbols.Knows x ↔ ¬ symbols.Knows t.head.2)) ∧
    (symbols.LabelsGuarded →
      (∀ (kind : Kind) (s : Symbol kind) (name : String),
        symbols.New (normalize config clock formulas symbols sink).symbols s →
        (normalize config clock formulas symbols sink).symbols.name? s = some name →
        ∀ other : Kind, symbols.contains other name = false) ∧
      ∀ x t, ¬ Clause.Clash result.clauses
        (normalize config clock formulas symbols sink).symbols x t) := by
  -- A run changes the table by calls to its supplies alone, and its clauses are known in the end.
  have calls := supplied_normalize config clock formulas symbols sink
  have bound {x : Variable} (left : ∃ c ∈ result.clauses, c.Contains (.var x)) :
      (normalize config clock formulas symbols sink).symbols.Knows x := by
    obtain ⟨c, listed, contains⟩ := left
    exact (known_clauses known succeeded c listed).contains contains
  refine ⟨fun kind s new => calls.named new, fun x t clash => ?_, fun guarded => ⟨?_, ?_⟩⟩
  · exact calls.knows_iff_not single (bound clash.left) clash.other clash.same
  · exact fun kind s name new named => calls.unknown_of_guarded guarded new named
  · exact fun x t clash =>
      calls.name?_ne_of_guarded single guarded (bound clash.left) clash.other clash.same

end Whole

section Constants

/-- One variable, one property, one relation, and a constant with a name. -/
def relationSymbols (name : String) : SymbolTable :=
  ((((SymbolTable.empty.intern .var "x").2.intern .pred "P").2.intern .const name).2.intern
    .pred "R").2

/-- The value of a variable is related to the constant. -/
def related (x : Variable) : Atom :=
  { predicate := { id := 1, arity := 2 }, args := [.var x, .const ⟨0⟩] }

/-- All elements have the property, and all are related to the constant. -/
def propertyAndRelation : Formula :=
  .and (.quantified .universal ⟨0⟩ (hasProperty 0))
    (.quantified .universal ⟨0⟩ (.atom (related ⟨0⟩)))

/-- Neither way to name the constant lets a name be known in two kinds. -/
theorem singleKinded_relationSymbols {name : String} (listed : name ∈ ["c", "z1"]) :
    (relationSymbols name).SingleKinded := by
  -- Each name is interned where no other kind has it.
  have bound : ∀ other ≠ Kind.var, SymbolTable.empty.contains other "x" = false := by
    decide +kernel
  have property : ∀ other ≠ Kind.pred,
      (SymbolTable.empty.intern .var "x").2.contains other "P" = false := by decide +kernel
  have constant : ∀ name ∈ ["c", "z1"], ∀ other ≠ Kind.const,
      ((SymbolTable.empty.intern .var "x").2.intern .pred "P").2.contains other name = false := by
    decide +kernel
  have relation : ∀ name ∈ ["c", "z1"], ∀ other ≠ Kind.pred,
      (((SymbolTable.empty.intern .var "x").2.intern .pred "P").2.intern .const name).2.contains
        other "R" = false := by
    decide +kernel
  exact (((SymbolTable.singleKinded_empty.intern bound).intern property).intern
    (constant name listed)).intern (relation name listed)

/-- Where no name is a label, the names in the clauses are told apart. -/
theorem normalize_names_plain : ∃ result,
    (normalize {} (.still 0) [propertyAndRelation] (relationSymbols "c") .discarding).result =
      .ok result ∧
    ∀ x t, ¬ Clause.Clash result.clauses (normalize {} (.still 0) [propertyAndRelation]
      (relationSymbols "c") .discarding).symbols x t := by
  have known : ∀ f ∈ [propertyAndRelation], f.Known (relationSymbols "c") := by decide +kernel
  have made : (normalize {} (.still 0) [propertyAndRelation] (relationSymbols "c")
      .discarding).result.toOption.any (fun _ => true) = true := by
    decide +kernel
  obtain ⟨result, succeeded, _⟩ := exists_ok_of_any made
  -- No name begins with a letter of the labels.
  have plain (name : String) (listed : name ∈ ["x", "P", "c", "R"]) (kind : Kind) :
      ¬ kind.Labels name :=
    Kind.not_labels (by revert name; decide +kernel)
  have guarded : (relationSymbols "c").LabelsGuarded :=
    (((SymbolTable.labelsGuarded_empty.intern (plain "x" (by decide))).intern
      (plain "P" (by decide))).intern (plain "c" (by decide))).intern (plain "R" (by decide))
  obtain ⟨_, _, apart⟩ :=
    normalize_names known (singleKinded_relationSymbols (by decide)) succeeded
  exact ⟨result, succeeded, (apart guarded).2⟩

/-- A variable is given out with the name of a constant, and both are in one clause. -/
theorem normalize_names_clash :
    (∀ f ∈ [propertyAndRelation], f.Known (relationSymbols "z1")) ∧
    (relationSymbols "z1").SingleKinded ∧
    ∃ result final,
      (normalize {} (.still 0) [propertyAndRelation] (relationSymbols "z1") .discarding).result =
        .ok result ∧
      (normalize {} (.still 0) [propertyAndRelation] (relationSymbols "z1") .discarding).symbols =
        final ∧
      Clause.Clash result.clauses final ⟨1⟩ (.const ⟨0⟩) ∧
      (relationSymbols "z1").New final (⟨1⟩ : Variable) ∧
      final.name? (⟨1⟩ : Variable) = some "z1" ∧
      (relationSymbols "z1").contains .const "z1" = true := by
  -- The second quantifier finds its variable taken, and no variable has the first label.
  let clause : Clause := { literals := [{ positive := true, atom := related ⟨1⟩ }] }
  have made : (normalize {} (.still 0) [propertyAndRelation] (relationSymbols "z1")
      .discarding).result.toOption.any (clause ∈ ·.clauses) = true := by
    decide +kernel
  have named : (normalize {} (.still 0) [propertyAndRelation] (relationSymbols "z1")
      .discarding).symbols.name? (⟨1⟩ : Variable) = some "z1" := by
    decide +kernel
  have constant : (normalize {} (.still 0) [propertyAndRelation] (relationSymbols "z1")
      .discarding).symbols.name? (⟨0⟩ : Constant) = some "z1" := by
    decide +kernel
  obtain ⟨result, succeeded, listed⟩ := exists_ok_of_any made
  have contains (t : Term) (argument : t ∈ (related ⟨1⟩).args) :
      ∃ c ∈ result.clauses, c.Contains t :=
    ⟨clause, of_decide_eq_true listed, _, List.mem_singleton_self _, t, argument, .self t⟩
  refine ⟨by decide +kernel, singleKinded_relationSymbols (by decide), result, _, succeeded, rfl,
    ⟨contains _ (by decide), contains _ (by decide), by decide, ?_⟩, ⟨by decide +kernel, ?_⟩, named,
    by decide +kernel⟩
  · -- The variable was given the label, and the constant had it before.
    exact named.trans constant.symm
  · -- The variable has become known in the course of the run.
    exact Option.isSome_of_eq_some named

end Constants

end ClauseForm
