import ClauseForm.Proofs.Arities
import ClauseForm.Proofs.DisplayedTexts
import ClauseForm.Proofs.NamedDocuments

/-! The document that is written for clauses determines them, whatever names their symbols have. -/

namespace ClauseForm

/-- A clause over a table whose symbols have as many arguments as their arities say. -/
structure Clause.WellFormed (table : SymbolTable) (c : Clause) : Prop where
  known : c.Known table
  fits : ∀ a ∈ c.atoms, a.hasFittingArities = true

instance (table : SymbolTable) (c : Clause) : Decidable (c.WellFormed table) :=
  decidable_of_iff (c.Known table ∧ ∀ a ∈ c.atoms, a.hasFittingArities = true)
    ⟨fun both => ⟨both.1, both.2⟩, fun wellFormed => ⟨wellFormed.known, wellFormed.fits⟩⟩

section Documents

variable {table : SymbolTable}

/-- Lists of clauses are the same if they are read as the same. -/
theorem Clause.eq_of_mapM_named? {cs ds : List Clause} {ns : List Named.Clause}
    (wellFormed : ∀ c ∈ cs, c.WellFormed table) (wellFormed' : ∀ d ∈ ds, d.WellFormed table)
    (first : cs.mapM (named? table) = some ns) (second : ds.mapM (named? table) = some ns) :
    cs = ds := by
  -- Clause by clause, what is read determines what it is read from.
  refine eq_of_mapM_eq first second fun c inside d listed n => ?_
  exact eq_of_named? (wellFormed c inside).fits (wellFormed' d listed).fits

/-- Clauses with names are told apart by the compact texts of their documents. -/
theorem Named.Clause.compact_setToJson_injective :
    Function.Injective fun ns => (Named.Clause.setToJson ns).compact :=
  Json.compact_injective Named.Clause.plain_set Named.Clause.decodes_set

/-- The names in a literal are interned as the symbols that they come from, and none is new. -/
theorem Literal.exists_restored {l : Literal} (known : l.atom.Known table)
    (fits : ∀ t ∈ l.atom.args, t.hasFittingArities = true) :
    ∃ n, l.named? table = some n ∧ n.positive = l.positive ∧
      table.intern .pred n.atom.predicate = (l.atom.predicate.toSymbol, table) ∧
      Named.Term.internAll n.atom.args table = (l.atom.args, table) := by
  -- The literal has names, from which predicate and arguments are read.
  obtain ⟨a, read⟩ := Option.isSome_iff_exists.mp known.named
  refine ⟨⟨l.positive, a⟩, by rw [named?, read, Option.map_some], rfl, ?_⟩
  obtain ⟨name, stored, parts, written, rfl⟩ := Atom.named?_eq_some_iff.mp read
  refine ⟨restored_symbol l.atom.predicate.toSymbol table name stored, ?_⟩
  -- The table stays the same from each argument to the next one.
  rw [Named.Term.internAll_eq_thread]
  exact Restored.thread (fun t listed => Term.restored (fits t listed)) table parts written

/--
What clauses are written as determines the clauses, even where kinds share names and where clauses
are shown alike, and the text of the document determines what is written. The table gives back the
predicate and the arguments of each literal and stays as it is. The clauses of a run are such
clauses, if its formulas are known and have fitting arities.
-/
theorem clauseDocuments_determine (table : SymbolTable) :
    (∀ cs ds : List Clause,
      (∀ c ∈ cs, c.WellFormed table) → (∀ d ∈ ds, d.WellFormed table) →
      ∃ ns ms, cs.mapM (Clause.named? table) = some ns ∧ ds.mapM (Clause.named? table) = some ms ∧
        (ns = ms → cs = ds) ∧
        ((Named.Clause.setToJson ns).compact = (Named.Clause.setToJson ms).compact → ns = ms)) ∧
    (∀ l : Literal, l.atom.Known table → (∀ t ∈ l.atom.args, t.hasFittingArities = true) →
      ∃ n, l.named? table = some n ∧ n.positive = l.positive ∧
        table.intern .pred n.atom.predicate = (l.atom.predicate.toSymbol, table) ∧
        Named.Term.internAll n.atom.args table = (l.atom.args, table)) ∧
    ∀ (config : Config) (clock : Clock) (formulas : List Formula) (sink : Sink)
      (result : Normalized), (∀ f ∈ formulas, f.Known table) →
      (∀ f ∈ formulas, f.hasFittingArities = true) →
      (normalize config clock formulas table sink).result = .ok result →
      ∀ c ∈ result.clauses,
        c.WellFormed (normalize config clock formulas table sink).symbols := by
  refine ⟨fun cs ds wellFormed wellFormed' => ?_, fun l => Literal.exists_restored,
    fun config clock formulas sink result known fits succeeded c listed => ?_⟩
  · -- Known clauses can all be written.
    obtain ⟨ns, first⟩ := Option.isSome_iff_exists.mp
      (isSome_mapM fun c listed => (wellFormed c listed).known.named)
    obtain ⟨ms, second⟩ := Option.isSome_iff_exists.mp
      (isSome_mapM fun d listed => (wellFormed' d listed).known.named)
    refine ⟨ns, ms, first, second, ?_, fun same => Named.Clause.compact_setToJson_injective same⟩
    -- If both lists are written alike, then each clause is known by what it is read as.
    rintro rfl
    exact Clause.eq_of_mapM_named? wellFormed wellFormed' first second
  · -- No clause of a run has lost its names or its arguments.
    exact ⟨known_clauses known succeeded c listed,
      hasFittingArities_clauses known fits succeeded c listed⟩

end Documents

section Homonyms

/-- A variable, a constant, a function and a predicate of one name. -/
def homonyms : SymbolTable :=
  ((((SymbolTable.empty.intern .var "a").2.intern .const "a").2.intern .func "a").2.intern
    .pred "a").2

/-- The function without arguments, which has the name of the constant. -/
def noArgument : Term := .app { id := 0, arity := 0 } []

/-- The denial that an application of the function has the property. -/
def homonymous (t : Term) : Literal where
  positive := false
  atom := { predicate := { id := 0, arity := 1 }, args := [.app { id := 0, arity := 1 } [t]] }

/--
Documents tell the constant from the function without arguments, although both are shown alike. In
the clauses of a run, functions that are witnesses have the arguments that they need.
-/
theorem clauseDocuments_determine_homonyms :
    (homonymous (.const ⟨0⟩)).text? homonyms = (homonymous noArgument).text? homonyms ∧
    (∃ ns ms, [Clause.mk [homonymous (.const ⟨0⟩)]].mapM (Clause.named? homonyms) = some ns ∧
      [Clause.mk [homonymous noArgument]].mapM (Clause.named? homonyms) = some ms ∧
      (Named.Clause.setToJson ns).compact ≠ (Named.Clause.setToJson ms).compact) ∧
    (∃ n, (homonymous noArgument).named? homonyms = some n ∧
      homonyms.intern .pred n.atom.predicate = (⟨0⟩, homonyms) ∧
      Named.Term.internAll n.atom.args homonyms =
        ([.app { id := 0, arity := 1 } [noArgument]], homonyms)) ∧
    ∃ result, (normalize { prenexOrder := .preserve } (.still 0) [unbounded] comparisonSymbols
        .discarding).result = .ok result ∧
      ∀ c ∈ result.clauses, c.WellFormed (normalize { prenexOrder := .preserve } (.still 0)
        [unbounded] comparisonSymbols .discarding).symbols := by
  obtain ⟨determined, restored, _⟩ := clauseDocuments_determine homonyms
  refine ⟨by decide +kernel, ?_, ?_, ?_⟩
  · -- The same text would make both terms the same.
    obtain ⟨ns, ms, first, second, names, texts⟩ :=
      determined [Clause.mk [homonymous (.const ⟨0⟩)]] [Clause.mk [homonymous noArgument]]
        (by decide +kernel) (by decide +kernel)
    refine ⟨ns, ms, first, second, fun same => ?_⟩
    exact absurd (names (texts same)) (by decide)
  · -- The function without arguments is found again although the constant has its name.
    obtain ⟨n, read, _, predicate, args⟩ :=
      restored (homonymous noArgument) (by decide +kernel) (by decide)
    exact ⟨n, read, predicate, args⟩
  · have made : (normalize { prenexOrder := .preserve } (.still 0) [unbounded] comparisonSymbols
        .discarding).result.toOption.any (fun _ => true) = true := by
      decide +kernel
    obtain ⟨result, succeeded, _⟩ := exists_ok_of_any made
    have kept := (clauseDocuments_determine comparisonSymbols).2.2
    exact ⟨result, succeeded, kept _ _ [unbounded] _ result (by decide +kernel) (by decide)
      succeeded⟩

end Homonyms

end ClauseForm
