import ClauseForm.Json.NamedForm
import ClauseForm.Proofs.Known
import ClauseForm.Proofs.Threads

/-! Formulas keep their names when turned into symbols, and their symbols on the way back. -/

namespace ClauseForm

section Arities

/-- Whether every function symbol in a term has as many arguments as its arity says. -/
def Term.hasFittingArities : Term → Bool :=
  fold (fun _ => true) (fun _ => true) fun f parts => f.arity == parts.length && parts.all id

/-- An application has fitting arities if its own fits and those of its arguments do. -/
@[simp] theorem Term.hasFittingArities_app (f : FunctionSymbol) (args : List Term) :
    (app f args).hasFittingArities = true ↔
      f.arity = args.length ∧ ∀ t ∈ args, t.hasFittingArities = true := by
  -- The fold visits every argument.
  simp [hasFittingArities, fold, foldAll_eq_map]

/-- Whether every symbol of an atom has as many arguments as its arity says. -/
def Atom.hasFittingArities (a : Atom) : Bool :=
  a.predicate.arity == a.args.length && a.args.all Term.hasFittingArities

/-- The arities of an atom fit if its own does and those in its arguments do. -/
theorem Atom.hasFittingArities_iff {a : Atom} : a.hasFittingArities = true ↔
    a.predicate.arity = a.args.length ∧ ∀ t ∈ a.args, t.hasFittingArities = true := by
  simp only [hasFittingArities, Bool.and_eq_true, beq_iff_eq, List.all_eq_true]

/-- Whether every symbol of a formula has as many arguments as its arity says. -/
def Formula.hasFittingArities : Formula → Bool
  | .atom a => a.hasFittingArities
  | .not f => f.hasFittingArities
  | .binary _ l r => l.hasFittingArities && r.hasFittingArities
  | .quantified _ _ f => f.hasFittingArities

end Arities

section Laws

variable {Written Form : Type}

/--
A written form is returned if it is read back from what is made of it, in all states of the table
from then on. Names that were there before keep their symbols.
-/
structure Returned (intern : Written → SymbolTable → Form × SymbolTable)
    (named? : SymbolTable → Form → Option Written) (n : Written) : Prop where
  grows : ∀ table : SymbolTable, table.Grows (intern n table).2
  reads : ∀ table after : SymbolTable, (intern n table).2.Grows after →
    named? after (intern n table).1 = some n

/-- A form is restored if interning what it is read as gives it back and adds no name. -/
def Restored (intern : Written → SymbolTable → Form × SymbolTable)
    (named? : SymbolTable → Form → Option Written) (s : Form) : Prop :=
  ∀ table n, named? table s = some n → intern n table = (s, table)

variable {intern : Written → SymbolTable → Form × SymbolTable}
  {named? : SymbolTable → Form → Option Written}

/-- A list of written forms is returned if each of them is. -/
theorem Returned.thread {ns : List Written} (each : ∀ n ∈ ns, Returned intern named? n) :
    Returned (thread intern) (fun table => List.mapM (named? table)) ns := by
  -- The first form is interned first and must still be read when the others have been.
  induction ns with
  | nil => exact { grows := fun table => .refl table, reads := fun _ _ _ => rfl }
  | cons n ns ih =>
    have first := each n (by simp)
    have rest := ih fun m listed => each m (by simp [listed])
    constructor
    · intro table
      exact (first.grows table).trans (rest.grows _)
    · -- The first form is kept while the others are interned.
      intro table after grows
      have one := first.reads table after ((rest.grows _).trans grows)
      have others := rest.reads _ after grows
      simp [thread_cons, one, others]

/-- A list of forms is restored if each of them is. -/
theorem Restored.thread {ss : List Form} (each : ∀ s ∈ ss, Restored intern named? s) :
    Restored (thread intern) (fun table => List.mapM (named? table)) ss := by
  -- The table stays the same from one form to the next.
  intro table ns read
  rw [mapM_eq_some_iff] at read
  induction read with
  | nil => rfl
  | @cons s n ss ns first _ ih =>
    have one := each s (by simp) table n first
    have rest := ih fun t listed => each t (by simp [listed])
    rw [thread_cons, one, rest]

/-- A name is returned as long as its symbol is kept. -/
theorem returned_name (kind : Kind) (name : String) :
    Returned (fun name table => table.intern kind name) (fun table => table.name?) name where
  grows table := table.grows_intern kind name
  reads table _ grows := grows kind _ name (table.name?_intern kind name)

/-- A symbol is restored by its name. -/
theorem restored_symbol {kind : Kind} (s : Symbol kind) :
    Restored (fun name table => table.intern kind name) (fun table => table.name?) s :=
  fun _ _ stored => SymbolTable.intern_of_find? (SymbolTable.find?_eq_some_iff.mpr stored)

end Laws

section Terms

namespace Named

/-- Terms are interned one after the other. -/
theorem Term.internAll_eq_thread : Term.internAll = thread Term.intern := by
  funext ts table
  -- Both recursions go through the list from left to right.
  induction ts generalizing table with
  | nil => rfl
  | cons t ts ih => simp [internAll, thread_cons, ih]

/-- Every written term is returned. -/
theorem Term.returned (t : Term) : Returned Term.intern ClauseForm.Term.named? t := by
  -- Variables and constants are names, and a function has one besides its arguments.
  induction t with
  | var name =>
    have symbol := returned_name .var name
    refine { grows := symbol.grows, reads := fun table after grows => ?_ }
    exact congrArg (Option.map Term.var) (symbol.reads table after grows)
  | const name =>
    have symbol := returned_name .const name
    refine { grows := symbol.grows, reads := fun table after grows => ?_ }
    exact congrArg (Option.map Term.const) (symbol.reads table after grows)
  | app name args ih =>
    -- The symbol of the function is kept while the arguments are interned.
    have symbol := returned_name .func name
    have parts := Returned.thread ih
    rw [← internAll_eq_thread] at parts
    constructor
    · intro table
      exact (symbol.grows table).trans (parts.grows _)
    · intro table after grows
      have head := symbol.reads table after ((parts.grows _).trans grows)
      have tail := parts.reads (table.intern .func name).2 after grows
      simp [intern, ClauseForm.Term.named?_app, head, tail]

/-- Every written atom is returned. -/
theorem Atom.returned (a : Atom) : Returned Atom.intern ClauseForm.Atom.named? a := by
  -- An atom is interned like the application of a function.
  have symbol := returned_name .pred a.predicate
  have parts := Returned.thread fun t (_ : t ∈ a.args) => t.returned
  rw [← Term.internAll_eq_thread] at parts
  constructor
  · intro table
    exact (symbol.grows table).trans (parts.grows _)
  · intro table after grows
    have head := symbol.reads table after ((parts.grows _).trans grows)
    have tail := parts.reads (table.intern .pred a.predicate).2 after grows
    simp [intern, ClauseForm.Atom.named?, head, tail]

/-- Every written formula is returned. -/
theorem Formula.returned (f : Formula) : Returned Formula.intern ClauseForm.Formula.named? f := by
  -- Whatever is interned first stays readable through what is interned next.
  induction f with
  | atom a =>
    refine { grows := a.returned.grows, reads := fun table after grows => ?_ }
    exact congrArg (Option.map Formula.atom) (a.returned.reads table after grows)
  | not f ih =>
    refine { grows := ih.grows, reads := fun table after grows => ?_ }
    exact congrArg (Option.map Formula.not) (ih.reads table after grows)
  | binary op l r left right =>
    -- The left side is kept while the right side is interned.
    constructor
    · intro table
      exact (left.grows table).trans (right.grows _)
    · intro table after grows
      have one := left.reads table after ((right.grows _).trans grows)
      have two := right.reads _ after grows
      simp [intern, ClauseForm.Formula.named?, one, two]
  | quantified q name f ih =>
    -- The bound variable is kept while its scope is interned.
    have symbol := returned_name .var name
    constructor
    · intro table
      exact (symbol.grows table).trans (ih.grows _)
    · intro table after grows
      have bound := symbol.reads table after ((ih.grows _).trans grows)
      have scope := ih.reads (table.intern .var name).2 after grows
      simp [intern, ClauseForm.Formula.named?, bound, scope]

/-- Formulas are interned one after the other. -/
theorem Formula.internAll_eq_thread : Formula.internAll = thread Formula.intern := by
  funext fs table
  -- Both recursions go through the list from left to right.
  induction fs generalizing table with
  | nil => rfl
  | cons f fs ih => simp [internAll, thread_cons, ih]

end Named

/-- Terms are restored if their arities fit. -/
theorem Term.restored {t : Term} (fits : t.hasFittingArities = true) :
    Restored Named.Term.intern Term.named? t := by
  -- What is written is known from the symbols, so that it can be interned step by step.
  induction t with
  | var x =>
    intro table n read
    obtain ⟨name, stored, rfl⟩ := Option.map_eq_some_iff.mp read
    have symbol : table.intern .var name = (x, table) := restored_symbol x table name stored
    simp [Named.Term.intern, symbol]
  | const c =>
    intro table n read
    obtain ⟨name, stored, rfl⟩ := Option.map_eq_some_iff.mp read
    have symbol : table.intern .const name = (c, table) := restored_symbol c table name stored
    simp [Named.Term.intern, symbol]
  | app f args ih =>
    intro table n read
    rw [hasFittingArities_app] at fits
    obtain ⟨arity, fits⟩ := fits
    obtain ⟨name, stored, parts, written, rfl⟩ := named?_app_eq_some_iff.mp read
    -- The number of arguments is the arity that the symbol had.
    have symbol : table.intern .func name = (f.toSymbol, table) :=
      restored_symbol f.toSymbol table name stored
    have rest := Restored.thread (fun t listed => ih t listed (fits t listed)) table parts written
    simp [Named.Term.intern, Named.Term.internAll_eq_thread, symbol, rest, ← arity]

/-- Atoms are restored if their arities fit. -/
theorem Atom.restored {a : Atom} (fits : a.hasFittingArities = true) :
    Restored Named.Atom.intern Atom.named? a := by
  intro table n read
  obtain ⟨arity, fits⟩ := hasFittingArities_iff.mp fits
  obtain ⟨name, stored, parts, written, rfl⟩ := named?_eq_some_iff.mp read
  -- The number of arguments is the arity that the symbol had.
  have symbol : table.intern .pred name = (a.predicate.toSymbol, table) :=
    restored_symbol a.predicate.toSymbol table name stored
  have rest := Restored.thread (fun t listed => Term.restored (fits t listed)) table parts written
  simp [Named.Atom.intern, Named.Term.internAll_eq_thread, symbol, rest, ← arity]

/-- Formulas are restored if their arities fit. -/
theorem Formula.restored {f : Formula} (fits : f.hasFittingArities = true) :
    Restored Named.Formula.intern Formula.named? f := by
  -- The table stays the same from each part of a formula to the next.
  induction f with
  | atom a =>
    intro table n read
    obtain ⟨written, same, rfl⟩ := Option.map_eq_some_iff.mp read
    have atom := Atom.restored fits table written same
    simp [Named.Formula.intern, atom]
  | not f ih =>
    intro table n read
    obtain ⟨written, same, rfl⟩ := Option.map_eq_some_iff.mp read
    have part := ih fits table written same
    simp [Named.Formula.intern, part]
  | binary op l r left right =>
    intro table n read
    obtain ⟨first, second⟩ := (Bool.and_eq_true _ _).mp fits
    obtain ⟨one, before, two, after, rfl⟩ := named?_binary_eq_some_iff.mp read
    have done := left first table one before
    have rest := right second table two after
    simp [Named.Formula.intern, done, rest]
  | quantified q x f ih =>
    intro table n read
    obtain ⟨name, stored, body, written, rfl⟩ := named?_quantified_eq_some_iff.mp read
    have symbol : table.intern .var name = (x, table) := restored_symbol x table name stored
    have rest := ih fits table body written
    simp [Named.Formula.intern, symbol, rest]

end Terms

section Conversions

variable {Written Form Text : Type}

/--
Written forms survive in the symbols that they are turned into, and these survive in what they are
written as. Forms are shown by the texts of what they are written as.
-/
structure Survives (intern : Written → SymbolTable → Form × SymbolTable)
    (named? : SymbolTable → Form → Option Written) (text? : SymbolTable → Form → Option Text)
    (known : SymbolTable → Form → Prop) (fits : Form → Prop) : Prop where
  /-- Interning adds names and changes none. -/
  grows : ∀ (n : Written) (table : SymbolTable), table.Grows (intern n table).2
  /-- What is interned is read as it was, whatever is interned afterwards. -/
  reads : ∀ (n : Written) (table after : SymbolTable), (intern n table).2.Grows after →
    named? after (intern n table).1 = some n
  /-- What is written down is interned as it was, and has the same text in all other tables. -/
  restores : ∀ (table : SymbolTable) (s : Form), known table s → fits s → ∃ n,
    named? table s = some n ∧ intern n table = (s, table) ∧
    ∃ text, text? table s = some text ∧
      ∀ other : SymbolTable, text? (intern n other).2 (intern n other).1 = some text

variable {intern : Written → SymbolTable → Form × SymbolTable}
  {named? : SymbolTable → Form → Option Written} {text? : SymbolTable → Form → Option Text}
  {known : SymbolTable → Form → Prop} {fits : Form → Prop}

/-- Forms survive if they are returned and restored and have the texts of what they are read as. -/
theorem survives_of_returned (text : Written → Text) (returned : ∀ n, Returned intern named? n)
    (restored : ∀ s, fits s → Restored intern named? s)
    (written : ∀ table s, known table s → (named? table s).isSome)
    (shown : ∀ table s, text? table s = (named? table s).map text) :
    Survives intern named? text? known fits where
  grows n := (returned n).grows
  reads n := (returned n).reads
  restores table s known fits := by
    -- A known form can be written, and this fixes what is interned.
    obtain ⟨n, read⟩ := Option.isSome_iff_exists.mp (written table s known)
    refine ⟨n, read, restored s fits table n read, text n, ?_, fun other => ?_⟩
    · rw [shown, read, Option.map_some]
    · -- In the other table the form is read as what was written.
      rw [shown, (returned n).reads other _ (.refl _), Option.map_some]

end Conversions

section Problems

/-- Every written problem is returned, formula by formula. -/
theorem Named.Problem.returned (p : Named.Problem) :
    Returned (fun p => Named.Formula.internAll p.formulas)
      (fun table fs => (fs.mapM (Formula.named? table)).map Named.Problem.mk) p := by
  -- The table goes from one formula to the next.
  have all := Returned.thread fun f (_ : f ∈ p.formulas) => f.returned
  rw [← Named.Formula.internAll_eq_thread] at all
  refine { grows := all.grows, reads := fun table after grows => ?_ }
  exact congrArg (Option.map Named.Problem.mk) (all.reads table after grows)

/-- Lists of formulas are restored as problems if their arities fit. -/
theorem Formula.restored_problem {fs : List Formula}
    (fits : ∀ f ∈ fs, f.hasFittingArities = true) :
    Restored (fun p => Named.Formula.internAll p.formulas)
      (fun table fs => (fs.mapM (Formula.named? table)).map Named.Problem.mk) fs := by
  -- Each formula leaves the table as it is.
  have all := Restored.thread fun f listed => Formula.restored (fits f listed)
  rw [← Named.Formula.internAll_eq_thread] at all
  intro table p read
  obtain ⟨written, same, rfl⟩ := Option.map_eq_some_iff.mp read
  exact all table written same

/-- A list of formulas has the texts of the formulas that it is read as. -/
theorem Formula.mapM_text? (table : SymbolTable) (fs : List Formula) :
    fs.mapM (text? table) = (fs.mapM (named? table)).map (List.map Named.Formula.text) := by
  induction fs with
  | nil => rfl
  | cons f fs ih =>
    -- The first formula has a text just when it can be read.
    cases first : f.named? table with
    | none => simp [text?, first]
    | some n =>
      cases others : fs.mapM (named? table) with
      | none => simp [text?, first, others, ih]
      | some ns => simp [text?, first, others, ih]

/--
Terms, formulas and problems survive when their names are turned into symbols and when symbols are
written with names again. The way back asks that symbols are known and that their arities fit.
-/
theorem intern_survives :
    Survives Named.Term.intern Term.named? Term.text? Term.Known
        (fun t => t.hasFittingArities = true) ∧
      Survives Named.Formula.intern Formula.named? Formula.text? Formula.Known
        (fun f => f.hasFittingArities = true) ∧
      Survives (fun p => Named.Formula.internAll p.formulas)
        (fun table fs => (fs.mapM (Formula.named? table)).map Named.Problem.mk)
        (fun table fs => fs.mapM (Formula.text? table))
        (fun table fs => ∀ f ∈ fs, f.Known table)
        (fun fs => ∀ f ∈ fs, f.hasFittingArities = true) := by
  -- Each of the three is returned and restored.
  refine ⟨?_, ?_, ?_⟩
  · exact survives_of_returned Named.Term.text (fun t => t.returned) (fun t => Term.restored)
      (fun table t known => known.named) (fun table t => rfl)
  · exact survives_of_returned Named.Formula.text (fun f => f.returned) (fun f => Formula.restored)
      (fun table f known => known.named) (fun table f => rfl)
  · refine survives_of_returned (fun p => p.formulas.map Named.Formula.text)
      (fun p => p.returned) (fun fs => Formula.restored_problem) (fun table fs known => ?_)
      (fun table fs => ?_)
    · -- Each of the formulas can be written.
      rw [Option.isSome_map]
      exact isSome_mapM fun f listed => (known f listed).named
    · rw [Formula.mapM_text?, Option.map_map]
      rfl

end Problems

end ClauseForm
