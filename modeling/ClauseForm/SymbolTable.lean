import ClauseForm.Symbol
import Std.Data.TreeMap.Lemmas

/-! A symbol table numbers the names of each kind and makes names that were never used before. -/

namespace ClauseForm

/-- The names of one kind, numbered in the order of their first use. -/
structure Names where
  /-- How many names are known. -/
  size : Nat := 0
  /-- Names by their numbers. -/
  labels : Std.TreeMap Nat String := ∅
  /-- Numbers by their names. -/
  index : Std.TreeMap String Nat := ∅
  /-- Numbers below the size are the ones in use. -/
  dense : ∀ id : Nat, id ∈ labels ↔ id < size := by simp
  /-- The two maps are inverse to each other. -/
  agree : ∀ (name : String) (id : Nat), index[name]? = some id ↔ labels[id]? = some name := by simp

namespace Names

/-- No name is known at the start. -/
def empty : Names := {}

/-- Number of a known name. -/
def find? (names : Names) (name : String) : Option Nat := names.index[name]?

/-- Name that carries a number. -/
def name? (names : Names) (id : Nat) : Option String := names.labels[id]?

/-- Whether a name is known. -/
def contains (names : Names) (name : String) : Bool := (names.find? name).isSome

/-- A name and its number determine each other. -/
theorem find?_eq_some_iff {names : Names} {name : String} {id : Nat} :
    names.find? name = some id ↔ names.name? id = some name :=
  -- The agreement is part of the structure.
  names.agree name id

/-- Numbers below the size are exactly the ones that carry a name. -/
theorem name?_isSome_iff {names : Names} {id : Nat} :
    (names.name? id).isSome ↔ id < names.size := by
  -- The density is part of the structure.
  rw [name?, Std.TreeMap.isSome_getElem?_iff_mem]
  exact names.dense id

/-- Adds a name that is not known yet under the next number. -/
def add (names : Names) (name : String) (unknown : names.find? name = none) : Names where
  size := names.size + 1
  labels := names.labels.insert names.size name
  index := names.index.insert name names.size
  dense := by
    -- The next number comes into use.
    intro id
    rw [Std.TreeMap.mem_insert, names.dense, Nat.compare_eq_eq]
    omega
  agree := by
    -- Only the new name and the new number are touched, and neither was in use.
    have unused : names.labels[names.size]? = none := by
      apply Std.TreeMap.getElem?_eq_none
      rw [names.dense]
      exact Nat.lt_irrefl names.size
    have unnamed : ∀ id, names.labels[id]? ≠ some name := fun id stored => by
      have known := (names.agree name id).2 stored
      have unknown : names.index[name]? = none := unknown
      rw [unknown] at known
      cases known
    intro other id
    rw [Std.TreeMap.getElem?_insert, Std.TreeMap.getElem?_insert]
    by_cases same : name = other
    · subst same
      by_cases last : names.size = id
      · simp [last]
      · simp [last, unnamed id]
    · by_cases last : names.size = id
      · subst last
        simp [same, names.agree, unused]
      · simp [same, last, names.agree]

/-- Number of a name, which is added when it is not known yet. -/
def intern (names : Names) (name : String) : Nat × Names :=
  match known : names.find? name with
  | some id => (id, names)
  | none => (names.size, names.add name known)

/-- Interning a known name changes nothing. -/
theorem intern_of_find? {names : Names} {name : String} {id : Nat}
    (known : names.find? name = some id) : names.intern name = (id, names) := by
  -- The first case of the definition applies.
  unfold intern
  split
  · rename_i found
    rw [known] at found
    cases found
    rfl
  · rename_i missing
    rw [known] at missing
    cases missing

/-- A name that is not known yet gets the next number. -/
theorem intern_of_unknown {names : Names} {name : String} (unknown : names.find? name = none) :
    names.intern name = (names.size, names.add name unknown) := by
  -- The second case of the definition applies.
  unfold intern
  split
  · rename_i found
    rw [unknown] at found
    cases found
  · rfl

/-- Adding a name keeps the number of every other name. -/
theorem name?_add {names : Names} {name : String} {unknown : names.find? name = none} {id : Nat} :
    (names.add name unknown).name? id = if id = names.size then some name else names.name? id := by
  -- One label is put under the next number.
  rw [name?, add, Std.TreeMap.getElem?_insert]
  by_cases last : id = names.size
  · simp [last]
  · simp [last, Ne.symm last, name?]

/-- Adding a name makes the known names one more. -/
theorem size_add {names : Names} {name : String} {unknown : names.find? name = none} :
    (names.add name unknown).size = names.size + 1 := rfl

/-- After interning a name carries the number that was answered. -/
theorem name?_intern (names : Names) (name : String) :
    (names.intern name).2.name? (names.intern name).1 = some name := by
  -- Either the name was known or it is the last one now.
  cases known : names.find? name with
  | some id => rw [intern_of_find? known]; exact find?_eq_some_iff.1 known
  | none => simp [intern_of_unknown known, name?_add]

/-- Interning keeps every name under its number. -/
theorem name?_intern_of_name? {names : Names} {name other : String} {id : Nat}
    (stored : names.name? id = some other) : (names.intern name).2.name? id = some other := by
  -- A new name is put after all old ones.
  cases known : names.find? name with
  | some found => rw [intern_of_find? known]; exact stored
  | none =>
    have below : id < names.size := name?_isSome_iff.1 (by simp [stored])
    simp [intern_of_unknown known, name?_add, Nat.ne_of_lt below, stored]

end Names

/-- The names of all four kinds and how far the two supplies of new names have run. -/
structure SymbolTable where
  vars : Names := .empty
  consts : Names := .empty
  funcs : Names := .empty
  preds : Names := .empty
  /-- Number of the last variable name tried by the supply of variables. -/
  lastVariable : Nat := 0
  /-- Number of the next name to be tried by the supply of Skolem symbols. -/
  nextSkolem : Nat := 0

namespace SymbolTable

/-- No symbol is known at the start. -/
def empty : SymbolTable := {}

/-- The names of one kind. -/
def names (table : SymbolTable) : Kind → Names
  | .var => table.vars
  | .const => table.consts
  | .func => table.funcs
  | .pred => table.preds

/-- The table with other names for one kind. -/
def withNames (table : SymbolTable) (kind : Kind) (names : Names) : SymbolTable :=
  match kind with
  | .var => { table with vars := names }
  | .const => { table with consts := names }
  | .func => { table with funcs := names }
  | .pred => { table with preds := names }

/-- How many symbols of a kind are known. -/
def count (table : SymbolTable) (kind : Kind) : Nat := (table.names kind).size

/-- How many symbols are known in all. -/
def total (table : SymbolTable) : Nat :=
  table.count .var + table.count .const + table.count .func + table.count .pred

/-- Symbol of a known name. -/
def find? (table : SymbolTable) (kind : Kind) (name : String) : Option (Symbol kind) :=
  ((table.names kind).find? name).map Symbol.mk

/-- Whether a name is known as one of this kind. -/
def contains (table : SymbolTable) (kind : Kind) (name : String) : Bool :=
  (table.names kind).contains name

/-- Name of a symbol, unless the table never gave that symbol out. -/
def name? (table : SymbolTable) {kind : Kind} (symbol : Symbol kind) : Option String :=
  (table.names kind).name? symbol.id

/-- Symbol of a name, which is added when it is not known yet. -/
def intern (table : SymbolTable) (kind : Kind) (name : String) : Symbol kind × SymbolTable :=
  let (id, names) := (table.names kind).intern name
  (⟨id⟩, table.withNames kind names)

/--
The first number from `start` on whose label is not taken, where at most `bound` of the labels
from there on are taken.
-/
def firstFree (taken : String → Bool) (label : Nat → String) : (bound start : Nat) → Nat
  | 0, start => start
  | bound + 1, start =>
    if taken (label start) then firstFree taken label bound (start + 1) else start

/-- Name of the variable with a number in the supply of variables. -/
def variableLabel (number : Nat) : String := "z" ++ toString number

/-- Name of the Skolem symbol with a number in the supply of Skolem symbols. -/
def skolemLabel (number : Nat) : String := "sk" ++ toString number

/-- A variable whose name was never known before. -/
def freshVariable (table : SymbolTable) : Variable × SymbolTable :=
  -- Every taken label is one of the known names, so there are no more of them than names.
  let number := firstFree (table.contains .var) variableLabel (table.count .var)
    (table.lastVariable + 1)
  { table with lastVariable := number }.intern .var (variableLabel number)

/-- A Skolem symbol is one name known both as a constant and as a function. -/
structure Skolem where
  constant : Constant
  function : Symbol .func
  deriving DecidableEq

/-- A Skolem symbol whose name was known neither as a constant nor as a function before. -/
def freshSkolem (table : SymbolTable) : Skolem × SymbolTable :=
  -- A label is taken when either kind knows it, which both together bound.
  let taken := fun name => table.contains .const name || table.contains .func name
  let number := firstFree taken skolemLabel (table.count .const + table.count .func)
    table.nextSkolem
  let (constant, table) :=
    { table with nextSkolem := number + 1 }.intern .const (skolemLabel number)
  let (function, table) := table.intern .func (skolemLabel number)
  (⟨constant, function⟩, table)

end SymbolTable

end ClauseForm
