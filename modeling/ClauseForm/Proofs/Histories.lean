import ClauseForm.Proofs.Interruption

/-! However a symbol table has been used, its names and numbers agree and its supplies are new. -/

namespace ClauseForm

/--
The ways to use a symbol table. To standardize a formula is to take its free variables as taken, to
Skolemize it is to start with no variable in scope, and the other stages by themselves use no table.
-/
inductive Use where
  | intern (kind : Kind) (name : String)
  | freshVariable
  | freshSkolem
  | standardizeVariables (f : Formula) (taken : List Variable)
  | skolemizeIn (f : Formula) (scope : List Variable)
  | renameAcross (fs : List Formula)
  | normalize (config : Config) (clock : Clock) (formulas : List Formula) (sink : Sink)

namespace SymbolTable

/-- The table that a use leaves behind. A run leaves one behind even if it fails. -/
def after (table : SymbolTable) : Use → SymbolTable
  | .intern kind name => (table.intern kind name).2
  | .freshVariable => table.freshVariable.2
  | .freshSkolem => table.freshSkolem.2
  | .standardizeVariables f taken => (f.standardizeVariables { taken, symbols := table }).2.symbols
  | .skolemizeIn f scope => (f.skolemizeIn scope table).symbols
  | .renameAcross fs => (Formula.renameAcross fs table).2.symbols
  | .normalize config clock formulas sink =>
    (ClauseForm.normalize config clock formulas table sink).symbols

/-- The table that several uses leave behind. -/
def afterAll (table : SymbolTable) (uses : List Use) : SymbolTable := uses.foldl after table

/-- What the supplies of a table give out in one use of it, in the order of the calls. -/
def Gives (table : SymbolTable) : Use → List AnySymbol → Prop
  | .intern .., given => given = []
  | .freshVariable, given => given = [⟨.var, table.freshVariable.1⟩]
  | .freshSkolem, given =>
    given = [⟨.const, table.freshSkolem.1.constant⟩, ⟨.func, table.freshSkolem.1.function⟩]
  | use, given => Supplies table given (table.after use)

/-- What the supplies of a table give out over several uses of it. -/
inductive History : SymbolTable → List Use → List AnySymbol → Prop
  | none (table : SymbolTable) : History table [] []
  | use {table : SymbolTable} {use : Use} {uses : List Use} {given more : List AnySymbol}
      (first : table.Gives use given) (rest : History (table.after use) uses more) :
    History table (use :: uses) (given ++ more)

section Uses

variable {table : SymbolTable} {use : Use} {uses : List Use} {given : List AnySymbol}

/-- Interning gives out nothing, and every other use changes the table by calls alone. -/
theorem Gives.supplies (gives : table.Gives use given) :
    (∃ kind name, use = .intern kind name ∧ given = []) ∨
      Supplies table given (table.after use) := by
  -- Only interning lets the caller choose a name, and every other use asks the supplies.
  cases use with
  | intern kind name => exact Or.inl ⟨kind, name, rfl, gives⟩
  | freshVariable =>
    obtain rfl := gives
    exact Or.inr (.freshVariable (.none _))
  | freshSkolem =>
    obtain rfl := gives
    exact Or.inr (.freshSkolem (.none _))
  | standardizeVariables | skolemizeIn | renameAcross | normalize => exact Or.inr gives

/-- Every use makes some calls to the supplies, or none. -/
theorem exists_gives (table : SymbolTable) (use : Use) : ∃ given, table.Gives use given := by
  -- For the stages and for whole runs, what has been given out is only known to exist.
  cases use with
  | intern | freshVariable | freshSkolem => exact ⟨_, rfl⟩
  | standardizeVariables f taken =>
    exact f.claimBinders_supplied _ id { taken, symbols := table }
  | skolemizeIn f scope => exact (f.skolemizes scope table).supplied
  | renameAcross fs => exact Formula.claimUniversals_supplied fs { taken := [], symbols := table }
  | normalize config clock formulas sink =>
    exact supplied_normalize config clock formulas table sink

/-- A use keeps the name of every symbol. -/
theorem grows_after (table : SymbolTable) (use : Use) : table.Grows (table.after use) := by
  -- A name once stored is stored for good, by interning as well as by calls.
  obtain ⟨given, gives⟩ := table.exists_gives use
  rcases gives.supplies with ⟨kind, name, rfl, _⟩ | calls
  · exact grows_intern table kind name
  · exact calls.paired.grows

/-- Several uses keep the name of every symbol. -/
theorem grows_afterAll (table : SymbolTable) (uses : List Use) :
    table.Grows (table.afterAll uses) := by
  induction uses generalizing table with
  | nil => exact .refl table
  | cons use uses ih => exact (table.grows_after use).trans (ih _)

/-- What a use gives out was unknown before it and is known after it. -/
theorem Gives.new (gives : table.Gives use given) :
    ∀ s ∈ given, table.New (table.after use) s.2 := by
  -- Interning gives nothing out.
  rcases gives.supplies with ⟨_, _, _, rfl⟩ | calls
  · exact nofun
  · exact calls.new

/-- One use gives out no symbol twice. -/
theorem Gives.nodup (gives : table.Gives use given) : given.Nodup := by
  -- Interning gives nothing out.
  rcases gives.supplies with ⟨_, _, _, rfl⟩ | calls
  · exact List.nodup_nil
  · exact calls.nodup

/-- All uses together make some calls to the supplies, or none. -/
theorem exists_history (table : SymbolTable) (uses : List Use) :
    ∃ given, History table uses given := by
  -- What later uses give out depends on the table that the first one leaves.
  induction uses generalizing table with
  | nil => exact ⟨[], .none table⟩
  | cons use uses ih =>
    obtain ⟨given, first⟩ := table.exists_gives use
    obtain ⟨more, rest⟩ := ih (table.after use)
    exact ⟨given ++ more, .use first rest⟩

/-- What is given out over several uses was unknown before all of them. -/
theorem History.unknown (history : History table uses given) :
    ∀ s ∈ given, ¬ table.Knows s.2 := by
  -- What a later use gives out was unknown to its table, which knows more than the one before.
  induction history with
  | none => exact nofun
  | @use table use _ _ _ first rest ih =>
    intro s listed known
    rcases List.mem_append.mp listed with now | later
    · exact (first.new s now).1 known
    · exact ih s later ((table.grows_after use).knows known)

/-- Over several uses no symbol is given out twice. -/
theorem History.nodup (history : History table uses given) : given.Nodup := by
  -- What one use gives out is known from then on, so no later use gives it out.
  induction history with
  | none => exact List.nodup_nil
  | use first rest ih =>
    refine List.nodup_append.mpr ⟨first.nodup, ih, ?_⟩
    rintro s now _ later rfl
    exact rest.unknown s later (first.new s now).2

end Uses

/-- Names and numbers of a table determine each other, and interning a name agrees with them. -/
structure Consistent (table : SymbolTable) : Prop where
  dense : ∀ {kind : Kind} (s : Symbol kind), table.Knows s ↔ s.id < table.count kind
  agree : ∀ {kind : Kind} (name : String) (s : Symbol kind),
    table.find? kind name = some s ↔ table.name? s = some name
  interned : ∀ (kind : Kind) (name : String),
    (table.intern kind name).2.name? (table.intern kind name).1 = some name
  again : ∀ {kind : Kind} (name : String) (s : Symbol kind),
    table.find? kind name = some s → table.intern kind name = (s, table)

/--
Both supplies end their search for a free label, and give out symbols whose names were in no past
state of the table.
-/
structure SuppliesUnseen (table : SymbolTable) (past : SymbolTable → Prop) : Prop where
  variable_ends : ∃ number,
    Searches (table.contains .var) variableLabel (table.lastVariable + 1) number ∧
      table.freshVariable =
        { table with lastVariable := number }.intern .var (variableLabel number)
  variable_allowed : ∀ exclude : List Variable,
    (∀ x ∈ exclude, table.Knows x) → table.freshVariable.1 ∉ exclude
  variable_unseen : ∃ name, table.freshVariable.2.name? table.freshVariable.1 = some name ∧
    ∀ before, past before → before.contains .var name = false
  skolem_ends : ∃ number,
    Searches (fun name => table.contains .const name || table.contains .func name) skolemLabel
        table.nextSkolem number ∧
      table.freshSkolem =
        let first := { table with nextSkolem := number + 1 }.intern .const (skolemLabel number)
        let second := first.2.intern .func (skolemLabel number)
        (⟨first.1, second.1⟩, second.2)
  skolem_unseen : ∃ name, table.freshSkolem.2.name? table.freshSkolem.1.constant = some name ∧
    table.freshSkolem.2.name? table.freshSkolem.1.function = some name ∧
      ∀ before, past before →
        before.contains .const name = false ∧ before.contains .func name = false

section States

variable {table : SymbolTable} {past : SymbolTable → Prop}

/-- Every table is consistent, since its names and numbers are those of one list for each kind. -/
theorem consistent (table : SymbolTable) : table.Consistent where
  dense _ := knows_iff
  agree _ _ := find?_eq_some_iff
  interned := table.name?_intern
  again _ _ := intern_of_find?

/-- A table that keeps the names of its past states supplies names that were in none of them. -/
theorem suppliesUnseen (grown : ∀ before, past before → before.Grows table) :
    table.SuppliesUnseen past where
  variable_ends := table.freshVariable_searches
  variable_allowed exclude known listed := table.freshVariable_new.1 (known _ listed)
  variable_unseen := by
    -- A name that had been known in the past would be known still.
    obtain ⟨number, unknown, named⟩ := table.freshVariable_named
    exact ⟨_, named, fun before held => (grown before held).unknown unknown⟩
  skolem_ends := table.freshSkolem_searches
  skolem_unseen := by
    obtain ⟨number, constant, function, first, second⟩ := table.freshSkolem_named
    exact ⟨_, first, second, fun before held =>
      ⟨(grown before held).unknown constant, (grown before held).unknown function⟩⟩

/-- The states that a table has had before and after each of some uses, from no symbol on. -/
def Past (uses : List Use) (before : SymbolTable) : Prop :=
  ∃ earlier later, uses = earlier ++ later ∧ before = empty.afterAll earlier

/-- The names of every state that a table has had are kept. -/
theorem grows_of_past {uses : List Use} {before : SymbolTable} (held : Past uses before) :
    before.Grows (empty.afterAll uses) := by
  obtain ⟨earlier, later, rfl, rfl⟩ := held
  -- The present state is reached from the past one by the uses that came after it.
  have whole : empty.afterAll (earlier ++ later) = (empty.afterAll earlier).afterAll later :=
    List.foldl_append
  exact whole ▸ grows_afterAll _ later

/--
However a table has been used from no symbol on, by runs that succeed or fail as well, it is
consistent and keeps the names of all its past states, its supplies end and give out names that were
never known, and no symbol has been given out twice.
-/
theorem afterAll_consistent (uses : List Use) :
    (empty.afterAll uses).Consistent ∧
      (∀ before, Past uses before → ∀ (kind : Kind) (s : Symbol kind) (name : String),
        before.name? s = some name → (empty.afterAll uses).name? s = some name ∧
          (empty.afterAll uses).find? kind name = some s) ∧
      (empty.afterAll uses).SuppliesUnseen (Past uses) ∧
      (∃ given, History empty uses given) ∧
      ∀ given, History empty uses given → given.Nodup := by
  -- Only the persistence of names is left, and a name that is kept is also found again.
  refine ⟨consistent _, fun before held kind s name stored => ?_,
    suppliesUnseen fun _ => grows_of_past, exists_history _ _, fun _ history => history.nodup⟩
  have kept := grows_of_past held kind s name stored
  exact ⟨kept, find?_eq_some_iff.mpr kept⟩

end States

end SymbolTable

end ClauseForm
