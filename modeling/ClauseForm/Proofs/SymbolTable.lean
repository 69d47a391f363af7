import ClauseForm.SymbolTable
import Mathlib.Data.Finset.Card
import Std.Data.String.ToNat

/-! Symbol tables only grow, and every symbol they supply is one that they did not know before. -/

namespace ClauseForm

namespace Names

/-- A name is known exactly when some number carries it. -/
theorem contains_iff {names : Names} {name : String} :
    names.contains name = true ↔ ∃ id, names.name? id = some name := by
  -- The index finds a name under the number that carries it.
  simp only [contains, Option.isSome_iff_exists, find?_eq_some_iff]

/-- A name that is not known yet is found nowhere. -/
theorem find?_eq_none {names : Names} {name : String} (unknown : names.contains name = false) :
    names.find? name = none := by
  -- The search for a name answers nothing exactly when the name is unknown.
  simpa [contains] using unknown

/-- Some label is unknown among as many labels as there are names, and one more. -/
theorem exists_unknown (a b : Names) {label : Nat → String} (distinct : Function.Injective label)
    (start : Nat) :
    ∃ i ≤ a.size + b.size,
      a.contains (label (start + i)) = false ∧ b.contains (label (start + i)) = false := by
  -- There are more labels than known names, so one of the labels is no known name.
  let known := (Finset.range a.size).image a.name? ∪ (Finset.range b.size).image b.name?
  let labels := (Finset.range (a.size + b.size + 1)).image fun i => some (label (start + i))
  have few : known.card ≤ a.size + b.size := by
    calc known.card
        ≤ ((Finset.range a.size).image a.name?).card
            + ((Finset.range b.size).image b.name?).card := Finset.card_union_le _ _
      _ ≤ (Finset.range a.size).card + (Finset.range b.size).card :=
          Nat.add_le_add Finset.card_image_le Finset.card_image_le
      _ = a.size + b.size := by simp only [Finset.card_range]
  have many : labels.card = a.size + b.size + 1 := by
    have injective : Function.Injective fun i => some (label (start + i)) := by
      intro i j same
      have := distinct (Option.some.inj same)
      omega
    rw [Finset.card_image_of_injective _ injective, Finset.card_range]
  obtain ⟨entry, listed, unknown⟩ :=
    Finset.exists_mem_notMem_of_card_lt_card (by omega : known.card < labels.card)
  obtain ⟨i, below, rfl⟩ := Finset.mem_image.mp listed
  have below := Finset.mem_range.mp below
  -- A label that either list of names contained would be one of the known names.
  have absent {names : Names} (part : (Finset.range names.size).image names.name? ⊆ known) :
      names.contains (label (start + i)) = false := by
    rw [Bool.eq_false_iff]
    intro present
    obtain ⟨id, stored⟩ := contains_iff.mp present
    have used : id < names.size := name?_isSome_iff.mp (by simp [stored])
    exact unknown (part (Finset.mem_image.mpr ⟨id, Finset.mem_range.mpr used, stored⟩))
  exact ⟨i, by omega, absent Finset.subset_union_left, absent Finset.subset_union_right⟩

end Names

namespace SymbolTable

/-- Symbols that the table has given out. -/
def Knows (table : SymbolTable) {kind : Kind} (s : Symbol kind) : Prop :=
  -- A symbol that was given out has a name.
  (table.name? s).isSome

instance (table : SymbolTable) {kind : Kind} (s : Symbol kind) : Decidable (table.Knows s) :=
  inferInstanceAs (Decidable ((table.name? s).isSome = true))

/-- Every symbol of the first table keeps its name in the second one. -/
def Grows (before after : SymbolTable) : Prop :=
  -- Names are never taken back and never change.
  ∀ (kind : Kind) (s : Symbol kind) (name : String),
    before.name? s = some name → after.name? s = some name

/-- Symbols given out between an earlier and a later state of a table. -/
def New (before after : SymbolTable) {kind : Kind} (s : Symbol kind) : Prop :=
  -- Only the later state knows the symbol.
  ¬ before.Knows s ∧ after.Knows s

/-- The symbols known are those with the smallest numbers. -/
theorem knows_iff {table : SymbolTable} {kind : Kind} {s : Symbol kind} :
    table.Knows s ↔ s.id < table.count kind := Names.name?_isSome_iff

/-- Every table has grown out of itself. -/
theorem Grows.refl (table : SymbolTable) : table.Grows table := fun _ _ _ stored => stored

/-- A table that has grown twice has grown. -/
theorem Grows.trans {a b c : SymbolTable} (first : a.Grows b) (second : b.Grows c) : a.Grows c :=
  fun kind s name stored => second kind s name (first kind s name stored)

/-- A table that has grown knows what it knew. -/
theorem Grows.knows {before after : SymbolTable} (grows : before.Grows after) {kind : Kind}
    {s : Symbol kind} (known : before.Knows s) : after.Knows s := by
  -- The name that the symbol had is still there.
  obtain ⟨name, stored⟩ := Option.isSome_iff_exists.mp known
  exact Option.isSome_iff_exists.mpr ⟨name, grows kind s name stored⟩

/-- A new symbol stays new when the table grows further. -/
theorem New.later {a b c : SymbolTable} {kind : Kind} {s : Symbol kind} (new : a.New b s)
    (grows : b.Grows c) : a.New c s := ⟨new.1, grows.knows new.2⟩

/-- A new symbol was new to every earlier state. -/
theorem New.earlier {a b c : SymbolTable} {kind : Kind} {s : Symbol kind} (new : b.New c s)
    (grows : a.Grows b) : a.New c s := ⟨fun known => new.1 (grows.knows known), new.2⟩

/-- The names of a kind are the ones put there. -/
@[simp] theorem names_withNames (table : SymbolTable) (kind : Kind) (names : Names) :
    (table.withNames kind names).names kind = names := by
  -- Reading a kind undoes writing it.
  cases kind <;> rfl

/-- Putting names of one kind leaves those of the others as they are. -/
theorem names_withNames_of_ne (table : SymbolTable) {kind other : Kind} (names : Names)
    (different : other ≠ kind) : (table.withNames kind names).names other = table.names other := by
  -- Every kind has a place of its own.
  cases kind <;> cases other <;> first | rfl | exact absurd rfl different

/-- Interning keeps the name of every symbol. -/
theorem grows_intern (table : SymbolTable) (kind : Kind) (name : String) :
    table.Grows (table.intern kind name).2 := by
  -- Only the names of one kind change, and they keep their numbers.
  intro other s label stored
  by_cases same : other = kind
  · subst same
    simp only [name?, intern, names_withNames]
    exact Names.name?_intern_of_name? stored
  · simpa only [name?, intern, names_withNames_of_ne table _ same] using stored

/-- An interned symbol carries the name that was interned. -/
theorem name?_intern (table : SymbolTable) (kind : Kind) (name : String) :
    (table.intern kind name).2.name? (table.intern kind name).1 = some name := by
  simp [name?, intern, Names.name?_intern]

/-- An interned symbol is known. -/
theorem knows_intern (table : SymbolTable) (kind : Kind) (name : String) :
    (table.intern kind name).2.Knows (table.intern kind name).1 := by
  simp [Knows, name?_intern]

/-- A symbol is found by the name that it carries. -/
theorem find?_eq_some_iff {table : SymbolTable} {kind : Kind} {name : String} {s : Symbol kind} :
    table.find? kind name = some s ↔ table.name? s = some name := by
  rw [find?, name?, ← Names.find?_eq_some_iff]
  -- A symbol is nothing but its number.
  cases s
  simp

/-- Interning a known name finds its symbol and changes nothing. -/
theorem intern_of_find? {table : SymbolTable} {kind : Kind} {name : String} {s : Symbol kind}
    (known : table.find? kind name = some s) : table.intern kind name = (s, table) := by
  obtain ⟨id, found, rfl⟩ := Option.map_eq_some_iff.mp known
  rw [intern, Names.intern_of_find? found]
  -- Putting back the names that are there leaves the table as it is.
  cases kind <;> rfl

/-- A name that a symbol carries is known. -/
theorem contains_iff {table : SymbolTable} {kind : Kind} {name : String} :
    table.contains kind name = true ↔ ∃ s : Symbol kind, table.name? s = some name := by
  rw [contains, Names.contains_iff]
  exact ⟨fun ⟨id, stored⟩ => ⟨⟨id⟩, stored⟩, fun ⟨s, stored⟩ => ⟨s.id, stored⟩⟩

/-- A name that is known stays known when the table grows. -/
theorem Grows.contains {before after : SymbolTable} (grows : before.Grows after) {kind : Kind}
    {name : String} (known : before.contains kind name = true) :
    after.contains kind name = true := by
  -- The symbol that carries the name still carries it.
  obtain ⟨s, stored⟩ := contains_iff.mp known
  exact contains_iff.mpr ⟨s, grows kind s name stored⟩

/-- A name that is not known has not been known before the table grew. -/
theorem Grows.unknown {before after : SymbolTable} (grows : before.Grows after) {kind : Kind}
    {name : String} (unknown : after.contains kind name = false) :
    before.contains kind name = false := by
  cases known : before.contains kind name with
  | false => rfl
  | true => exact (grows.contains known).symm.trans unknown

/-- The symbol of an unknown name is a new one. -/
theorem not_knows_intern {table : SymbolTable} {kind : Kind} {name : String}
    (unknown : table.contains kind name = false) :
    ¬ table.Knows (table.intern kind name).1 := by
  -- The next number is given out, and it lies above all known ones.
  rw [knows_iff]
  simp [intern, Names.intern_of_unknown (Names.find?_eq_none unknown), count]

/-- Interning one kind of symbol leaves the other kinds as they are. -/
theorem contains_intern_of_ne (table : SymbolTable) {kind other : Kind} (name label : String)
    (different : other ≠ kind) :
    (table.intern kind name).2.contains other label = table.contains other label := by
  -- The names of the other kind are not touched.
  simp [contains, intern, names_withNames_of_ne table _ different]

/--
The search for a label that is not taken. It tries one number after the other, without a bound, and
ends at the first one whose label is free.
-/
inductive Searches (taken : String → Bool) (label : Nat → String) : Nat → Nat → Prop
  | found {number : Nat} (free : taken (label number) = false) : Searches taken label number number
  | next {start number : Nat} (used : taken (label start) = true)
      (rest : Searches taken label (start + 1) number) : Searches taken label start number

/-- The label at which a search ends is not taken. -/
theorem Searches.untaken {taken : String → Bool} {label : Nat → String} {start number : Nat}
    (search : Searches taken label start number) : taken (label number) = false := by
  -- Every step leaves the last label tried as it is.
  induction search with
  | found free => exact free
  | next _ _ ih => exact ih

/-- Within its bound the search ends as without one, if there is a label that is not taken. -/
theorem firstFree_searches {taken : String → Bool} {label : Nat → String} {bound start : Nat}
    (free : ∃ i ≤ bound, taken (label (start + i)) = false) :
    Searches taken label start (firstFree taken label bound start) := by
  -- Every step leaves one taken label behind and one step of the bound.
  induction bound generalizing start with
  | zero =>
    obtain ⟨i, none, untaken⟩ := free
    obtain rfl : i = 0 := by omega
    exact .found untaken
  | succ bound ih =>
    rw [firstFree]
    split
    · rename_i first
      obtain ⟨i, within, untaken⟩ := free
      cases i with
      | zero => simp [first] at untaken
      | succ i => exact .next first (ih ⟨i, by omega, by rwa [Nat.add_assoc, Nat.add_comm 1]⟩)
    · rename_i first
      exact .found (by simpa using first)

/-- Labels of different variables differ. -/
theorem variableLabel_injective : Function.Injective variableLabel := by
  -- The digits of a number determine it.
  intro m n same
  exact Nat.repr_injective (String.append_right_inj _ |>.mp same)

/-- Labels of different Skolem symbols differ. -/
theorem skolemLabel_injective : Function.Injective skolemLabel := by
  -- The digits of a number determine it.
  intro m n same
  exact Nat.repr_injective (String.append_right_inj _ |>.mp same)

/-- The counters of the supplies have no part in the names of symbols. -/
theorem grows_counters (table : SymbolTable) (lastVariable nextSkolem : Nat) :
    table.Grows { table with lastVariable, nextSkolem } := by
  -- The names of every kind are the same.
  intro kind s name stored
  cases kind <;> exact stored

/-- Supplying a variable keeps the name of every symbol. -/
theorem grows_freshVariable (table : SymbolTable) : table.Grows table.freshVariable.2 := by
  -- The supply moves its counter and interns one name.
  exact (grows_counters table _ table.nextSkolem).trans (grows_intern _ .var _)

/-- The supply of variables searches for a label that is not known yet, and interns it. -/
theorem freshVariable_searches (table : SymbolTable) :
    ∃ number, Searches (table.contains .var) variableLabel (table.lastVariable + 1) number ∧
      table.freshVariable =
        { table with lastVariable := number }.intern .var (variableLabel number) := by
  -- There are as many labels to try as there are known names, and one more.
  obtain ⟨i, within, unknown, _⟩ := Names.exists_unknown (table.names .var) .empty
    variableLabel_injective (table.lastVariable + 1)
  exact ⟨_, firstFree_searches ⟨i, within, unknown⟩, rfl⟩

/-- The supply of variables interns a label that is not known yet. -/
theorem exists_freshVariable (table : SymbolTable) :
    ∃ number, table.contains .var (variableLabel number) = false ∧
      table.freshVariable =
        { table with lastVariable := number }.intern .var (variableLabel number) := by
  obtain ⟨number, search, made⟩ := table.freshVariable_searches
  exact ⟨number, search.untaken, made⟩

/-- A variable from the supply carries a label that was not known. -/
theorem freshVariable_named (table : SymbolTable) :
    ∃ number, table.contains .var (variableLabel number) = false ∧
      table.freshVariable.2.name? table.freshVariable.1 = some (variableLabel number) := by
  obtain ⟨number, untaken, made⟩ := table.exists_freshVariable
  rw [made]
  exact ⟨number, untaken, name?_intern _ _ _⟩

/-- The supply of variables gives out a variable that was never known before. -/
theorem freshVariable_new (table : SymbolTable) :
    table.New table.freshVariable.2 table.freshVariable.1 := by
  -- The name was not known when it was interned.
  obtain ⟨number, untaken, made⟩ := table.exists_freshVariable
  rw [made]
  exact ⟨not_knows_intern untaken, knows_intern _ _ _⟩

/-- Supplying a Skolem symbol keeps the name of every symbol. -/
theorem grows_freshSkolem (table : SymbolTable) : table.Grows table.freshSkolem.2 := by
  -- The name is interned as a constant first and as a function afterwards.
  exact (grows_counters table table.lastVariable _).trans
    ((grows_intern _ .const _).trans (grows_intern _ .func _))

/--
The supply of Skolem symbols searches for a label that is known neither as a constant nor as a
function, and interns it in both ways.
-/
theorem freshSkolem_searches (table : SymbolTable) :
    ∃ number, Searches (fun name => table.contains .const name || table.contains .func name)
        skolemLabel table.nextSkolem number ∧
      table.freshSkolem =
        let first := { table with nextSkolem := number + 1 }.intern .const (skolemLabel number)
        let second := first.2.intern .func (skolemLabel number)
        (⟨first.1, second.1⟩, second.2) := by
  -- The labels tried outnumber the names of both kinds together.
  obtain ⟨i, within, constant, function⟩ := Names.exists_unknown (table.names .const)
    (table.names .func) skolemLabel_injective table.nextSkolem
  exact ⟨_, firstFree_searches ⟨i, within, Bool.or_eq_false_iff.mpr ⟨constant, function⟩⟩, rfl⟩

/-- The supply of Skolem symbols interns a label that is known neither way, first as a constant. -/
theorem exists_freshSkolem (table : SymbolTable) :
    ∃ number, table.contains .const (skolemLabel number) = false ∧
      table.contains .func (skolemLabel number) = false ∧
      table.freshSkolem =
        let first := { table with nextSkolem := number + 1 }.intern .const (skolemLabel number)
        let second := first.2.intern .func (skolemLabel number)
        (⟨first.1, second.1⟩, second.2) := by
  obtain ⟨number, search, made⟩ := table.freshSkolem_searches
  obtain ⟨constant, function⟩ := Bool.or_eq_false_iff.mp search.untaken
  exact ⟨number, constant, function, made⟩

/-- Both halves of a Skolem symbol from the supply carry a label that was known neither way. -/
theorem freshSkolem_named (table : SymbolTable) :
    ∃ number, table.contains .const (skolemLabel number) = false ∧
      table.contains .func (skolemLabel number) = false ∧
      table.freshSkolem.2.name? table.freshSkolem.1.constant = some (skolemLabel number) ∧
      table.freshSkolem.2.name? table.freshSkolem.1.function = some (skolemLabel number) := by
  obtain ⟨number, constant, function, made⟩ := table.exists_freshSkolem
  rw [made]
  let first := { table with nextSkolem := number + 1 }.intern .const (skolemLabel number)
  -- Interning the function keeps the name of the constant.
  exact ⟨number, constant, function,
    grows_intern first.2 .func _ .const _ _ (name?_intern _ .const _), name?_intern first.2 .func _⟩

/-- The supply of Skolem symbols gives out a name that was neither a constant nor a function. -/
theorem freshSkolem_new (table : SymbolTable) :
    table.New table.freshSkolem.2 table.freshSkolem.1.constant ∧
      table.New table.freshSkolem.2 table.freshSkolem.1.function := by
  obtain ⟨number, constant, function, made⟩ := table.exists_freshSkolem
  rw [made]
  let moved := { table with nextSkolem := number + 1 }
  -- The counter alone does not make the name known.
  have constant : moved.contains .const (skolemLabel number) = false := constant
  have first : moved.New (moved.intern .const (skolemLabel number)).2 _ :=
    ⟨not_knows_intern constant, knows_intern _ .const _⟩
  -- Interning the constant does not make the name known as a function.
  have still : (moved.intern .const (skolemLabel number)).2.contains .func (skolemLabel number) =
      false := by
    rw [contains_intern_of_ne moved _ _ (by decide)]
    exact function
  have second : (moved.intern .const (skolemLabel number)).2.New
      ((moved.intern .const (skolemLabel number)).2.intern .func (skolemLabel number)).2 _ :=
    ⟨not_knows_intern still, knows_intern _ .func _⟩
  have moves : table.Grows moved := grows_counters table table.lastVariable (number + 1)
  exact ⟨(first.earlier moves).later (grows_intern _ .func _),
    second.earlier (moves.trans (grows_intern _ .const _))⟩

end SymbolTable

end ClauseForm
