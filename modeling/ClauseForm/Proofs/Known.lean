import ClauseForm.Named.Resolution
import ClauseForm.Proofs.SymbolTable

/-! Formulas over the symbols of a table have a text, and stay over them when the table grows. -/

namespace ClauseForm

namespace Term

/-- Terms all of whose symbols a table has given out. -/
def Known (table : SymbolTable) : Term → Prop :=
  -- An application adds its function symbol to what its arguments need.
  fold (fun x => table.Knows x) (fun c => table.Knows c) fun f parts =>
    table.Knows f.toSymbol ∧ ∀ part ∈ parts, part

/-- A variable is known as a term if it is known as a symbol. -/
@[simp] theorem known_var (table : SymbolTable) (x : Variable) :
    (var x).Known table ↔ table.Knows x := Iff.rfl

/-- A constant is known as a term if it is known as a symbol. -/
@[simp] theorem known_const (table : SymbolTable) (c : Constant) :
    (const c).Known table ↔ table.Knows c := Iff.rfl

/-- An application is known if its function and all of its arguments are. -/
@[simp] theorem known_app (table : SymbolTable) (f : FunctionSymbol) (args : List Term) :
    (app f args).Known table ↔ table.Knows f.toSymbol ∧ ∀ t ∈ args, t.Known table := by
  -- The fold visits every argument.
  simp only [Known, fold, foldAll_eq_map, List.mem_map, forall_exists_index, and_imp,
    forall_apply_eq_imp_iff₂]

mutual

/-- Whether all symbols of a term are known, decided from the outside in. -/
def decKnown (table : SymbolTable) : (t : Term) → Decidable (t.Known table)
  | .var x => inferInstanceAs (Decidable (table.Knows x))
  | .const c => inferInstanceAs (Decidable (table.Knows c))
  | .app f args =>
    have := decKnownAll table args
    decidable_of_iff (table.Knows f.toSymbol ∧ ∀ t ∈ args, t.Known table)
      (known_app table f args).symm

/-- Whether all symbols of a list of terms are known, decided from left to right. -/
def decKnownAll (table : SymbolTable) : (ts : List Term) → Decidable (∀ t ∈ ts, t.Known table)
  | [] => isTrue nofun
  | t :: ts =>
    have := decKnown table t
    have := decKnownAll table ts
    decidable_of_iff (t.Known table ∧ ∀ s ∈ ts, s.Known table) List.forall_mem_cons.symm

end

instance (table : SymbolTable) (t : Term) : Decidable (t.Known table) := decKnown table t

/-- A term stays known when the table grows. -/
theorem Known.grows {before after : SymbolTable} (grows : before.Grows after) {t : Term}
    (known : t.Known before) : t.Known after := by
  -- Each symbol of the term stays known.
  induction t with
  | var x => exact grows.knows known
  | const c => exact grows.knows known
  | app f args ih =>
    rw [known_app] at known ⊢
    exact ⟨grows.knows known.1, fun t member => ih t member (known.2 t member)⟩

/-- Every variable of a known term is known. -/
theorem Known.vars {table : SymbolTable} {t : Term} (known : t.Known table) :
    ∀ x ∈ t.vars, table.Knows x := by
  -- A variable of an application occurs in one of its arguments.
  induction t with
  | var x => simpa using known
  | const c => simp
  | app f args ih =>
    intro x member
    rw [vars_app, List.mem_flatMap] at member
    -- The argument is known along with the application.
    obtain ⟨t, listed, inside⟩ := member
    exact ih t listed (((known_app table f args).mp known).2 t listed) x inside

/-- Replacing variables by known terms keeps a term known. -/
theorem Known.bind {table : SymbolTable} {values : Variable → Term} {t : Term}
    (known : t.Known table) (parts : ∀ x ∈ t.vars, (values x).Known table) :
    (t.bind values).Known table := by
  -- Function symbols and constants stay as they are.
  induction t with
  | var x => exact parts x (by simp)
  | const c => exact known
  | app f args ih =>
    rw [known_app] at known
    simp only [bind_app, known_app, List.mem_map, forall_exists_index, and_imp,
      forall_apply_eq_imp_iff₂]
    refine ⟨known.1, fun t member => ih t member (known.2 t member) fun x inside => ?_⟩
    exact parts x (by rw [vars_app]; exact List.mem_flatMap.mpr ⟨t, member, inside⟩)

end Term

/-- Atoms all of whose symbols a table has given out. -/
def Atom.Known (table : SymbolTable) (a : Atom) : Prop :=
  table.Knows a.predicate.toSymbol ∧ ∀ t ∈ a.args, t.Known table

instance (table : SymbolTable) (a : Atom) : Decidable (a.Known table) :=
  inferInstanceAs (Decidable (table.Knows a.predicate.toSymbol ∧ ∀ t ∈ a.args, t.Known table))

/-- An atom stays known when the table grows. -/
theorem Atom.Known.grows {before after : SymbolTable} (grows : before.Grows after) {a : Atom}
    (known : a.Known before) : a.Known after :=
  -- The predicate and every argument stay known.
  ⟨grows.knows known.1, fun t member => (known.2 t member).grows grows⟩

/-- Every variable of a known atom is known. -/
theorem Atom.Known.vars {table : SymbolTable} {a : Atom} (known : a.Known table) :
    ∀ x ∈ a.vars, table.Knows x := by
  -- A variable of an atom occurs in one of its arguments.
  intro x member
  obtain ⟨t, listed, inside⟩ := List.mem_flatMap.mp member
  exact (known.2 t listed).vars x inside

/-- Replacing variables by known terms keeps an atom known. -/
theorem Atom.Known.bind {table : SymbolTable} {values : Variable → Term} {a : Atom}
    (known : a.Known table) (parts : ∀ x ∈ a.vars, (values x).Known table) :
    (a.bind values).Known table := by
  -- The predicate stays, and each argument is replaced in.
  refine ⟨known.1, fun t member => ?_⟩
  obtain ⟨s, listed, rfl⟩ := List.mem_map.mp member
  exact (known.2 s listed).bind fun x inside => parts x (List.mem_flatMap.mpr ⟨s, listed, inside⟩)

namespace Formula

/-- Formulas all of whose symbols, bound variables included, a table has given out. -/
def Known (table : SymbolTable) : Formula → Prop
  | .atom a => a.Known table
  | .not f => f.Known table
  | .binary _ l r => l.Known table ∧ r.Known table
  | .quantified _ x f => table.Knows x ∧ f.Known table

/-- Whether all symbols of a formula are known, decided from the outside in. -/
def decKnown (table : SymbolTable) : (f : Formula) → Decidable (f.Known table)
  | .atom a => inferInstanceAs (Decidable (a.Known table))
  | .not f => decKnown table f
  | .binary _ l r =>
    have := decKnown table l
    have := decKnown table r
    inferInstanceAs (Decidable (l.Known table ∧ r.Known table))
  | .quantified _ x f =>
    have := decKnown table f
    inferInstanceAs (Decidable (table.Knows x ∧ f.Known table))

instance (table : SymbolTable) (f : Formula) : Decidable (f.Known table) := decKnown table f

/-- A formula stays known when the table grows. -/
theorem Known.grows {before after : SymbolTable} (grows : before.Grows after) {f : Formula}
    (known : f.Known before) : f.Known after := by
  -- Each symbol of the formula stays known.
  induction f with
  | atom a => exact Atom.Known.grows grows known
  | not f ih => exact ih known
  | binary op l r left right => exact ⟨left known.1, right known.2⟩
  | quantified q x f ih => exact ⟨grows.knows known.1, ih known.2⟩

/-- Every free variable of a known formula is known. -/
theorem Known.free {table : SymbolTable} {f : Formula} (known : f.Known table) :
    ∀ x ∈ f.freeVariables, table.Knows x := by
  -- Free variables occur in atoms.
  induction f with
  | atom a => simpa [freeVariables] using Atom.Known.vars known
  | not f ih => exact ih known
  | binary op l r left right =>
    intro x member
    rw [freeVariables, List.mem_append] at member
    rcases member with inside | inside
    · exact left known.1 x inside
    · -- The right side counts only the variables that are not among those of the left one.
      exact right known.2 x (List.mem_filter.mp inside).1
  | quantified q y f ih =>
    intro x member
    -- A free variable of the whole is free in the scope.
    exact ih known.2 x (List.mem_filter.mp member).1

/-- Every bound variable of a known formula is known. -/
theorem Known.binders {table : SymbolTable} {f : Formula} (known : f.Known table) :
    ∀ b ∈ f.binders, table.Knows b.2 := by
  -- Bound variables occur at quantifiers.
  induction f with
  | atom a => simp [Formula.binders]
  | not f ih => exact ih known
  | binary op l r left right =>
    intro b member
    rw [Formula.binders, List.mem_append] at member
    exact member.elim (left known.1 b) (right known.2 b)
  | quantified q x f ih =>
    intro b member
    rw [Formula.binders, List.mem_cons] at member
    rcases member with rfl | inside
    · -- The first quantifier is over a known variable.
      exact known.1
    · exact ih known.2 b inside

/-- Replacing a variable by a known term keeps a formula known. -/
theorem Known.substitute {table : SymbolTable} {x : Variable} {value : Term} {f : Formula}
    (known : f.Known table) (part : value.Known table) : (f.substitute x value).Known table := by
  -- Only arguments of atoms change.
  induction f with
  | atom a =>
    -- The variable itself becomes the known term, and any other one stays.
    refine Atom.Known.bind known fun y inside => ?_
    rw [assign]
    split
    · exact part
    · exact Atom.Known.vars known y inside
  | not f ih => exact ih known
  | binary op l r left right => exact ⟨left known.1, right known.2⟩
  | quantified q y f ih =>
    refine ⟨known.1, ?_⟩
    split
    · exact known.2
    · exact ih known.2

/-- Leaving out quantifiers keeps a formula known. -/
theorem Known.dropBinders {table : SymbolTable} {dropped : Quantifier → Bool} {f : Formula}
    (known : f.Known table) : (f.dropBinders dropped).Known table := by
  -- Every symbol of what is left was there before.
  induction f with
  | atom a => exact known
  | not f ih => exact ih known
  | binary op l r left right => exact ⟨left known.1, right known.2⟩
  | quantified q x f ih =>
    rw [Formula.dropBinders]
    -- Either the quantifier goes or it stays over its variable.
    split
    · exact ih known.2
    · exact ⟨known.1, ih known.2⟩

/-- Quantifiers over known variables in front keep a formula known. -/
theorem Known.quantify {table : SymbolTable} {binders : List (Quantifier × Variable)} {f : Formula}
    (known : f.Known table) (bound : ∀ b ∈ binders, table.Knows b.2) :
    (Formula.quantify binders f).Known table := by
  -- The quantifiers are put in front one after the other.
  induction binders with
  | nil => exact known
  | cons b rest ih =>
    exact ⟨bound b (by simp), ih fun c member => bound c (by simp [member])⟩

end Formula

/-- Clauses all of whose symbols a table has given out. -/
def Clause.Known (table : SymbolTable) (c : Clause) : Prop := ∀ l ∈ c.literals, l.atom.Known table

instance (table : SymbolTable) (c : Clause) : Decidable (c.Known table) :=
  inferInstanceAs (Decidable (∀ l ∈ c.literals, l.atom.Known table))

/-- A list is mapped just when each of its members is. -/
theorem mapM_eq_some_iff {α β : Type} {step : α → Option β} {xs : List α}
    {ys : List β} :
    xs.mapM step = some ys ↔ List.Forall₂ (fun x y => step x = some y) xs ys := by
  -- Both sides take the lists apart item by item.
  induction xs generalizing ys with
  | nil => simp [eq_comm]
  | cons x xs ih =>
    simp only [List.mapM_cons, Option.bind_eq_bind, Option.bind_eq_some_iff, Option.pure_def,
      Option.some.injEq, List.forall₂_cons_left_iff, ih]
    constructor
    · rintro ⟨y, first, others, rest, rfl⟩
      exact ⟨y, others, first, rest, rfl⟩
    · rintro ⟨y, others, first, rest, rfl⟩
      exact ⟨y, first, others, rest, rfl⟩

/-- A step that succeeds for every item of a list succeeds for the list. -/
theorem isSome_mapM {α β : Type} {step : α → Option β} {items : List α}
    (each : ∀ item ∈ items, (step item).isSome) : (items.mapM step).isSome := by
  -- The items are gone through one by one.
  induction items with
  | nil => rfl
  | cons item rest ih =>
    obtain ⟨value, done⟩ := Option.isSome_iff_exists.mp (each item (by simp))
    obtain ⟨values, all⟩ := Option.isSome_iff_exists.mp (ih fun other member =>
      each other (by simp [member]))
    simp [List.mapM_cons, done, all]

/-- An application is written with the name of its function and with its arguments. -/
theorem Term.named?_app (table : SymbolTable) (f : FunctionSymbol) (args : List Term) :
    (app f args).named? table = do
      return .app (← table.name? f.toSymbol) (← args.mapM (named? table)) := by
  -- The fold writes every argument.
  have parts : foldAll _ _ _ args = args.map (named? table) := foldAll_eq_map _ _ _ args
  rw [named?, fold, parts, List.mapM_map]
  rfl

section Reading

variable {table : SymbolTable}

/-- What an application is read as comes from the name of its function and from its arguments. -/
theorem Term.named?_app_eq_some_iff {f : FunctionSymbol} {args : List Term} {n : Named.Term} :
    (app f args).named? table = some n ↔ ∃ name, table.name? f.toSymbol = some name ∧
      ∃ parts, args.mapM (named? table) = some parts ∧ .app name parts = n := by
  simp [named?_app, Option.bind_eq_some_iff]

/-- What an atom is read as comes from the name of its predicate and from its arguments. -/
theorem Atom.named?_eq_some_iff {a : Atom} {n : Named.Atom} :
    a.named? table = some n ↔ ∃ name, table.name? a.predicate.toSymbol = some name ∧
      ∃ parts, a.args.mapM (Term.named? table) = some parts ∧ ⟨name, parts⟩ = n := by
  simp [named?, Option.bind_eq_some_iff]

/-- What a formula with two sides is read as comes from what both are read as. -/
theorem Formula.named?_binary_eq_some_iff {op : Connective} {l r : Formula} {n : Named.Formula} :
    (binary op l r).named? table = some n ↔ ∃ one, l.named? table = some one ∧
      ∃ two, r.named? table = some two ∧ .binary op one two = n := by
  simp [named?, Option.bind_eq_some_iff]

/-- What a formula behind a quantifier is read as comes from its variable and its scope. -/
theorem Formula.named?_quantified_eq_some_iff {q : Quantifier} {x : Variable} {f : Formula}
    {n : Named.Formula} :
    (quantified q x f).named? table = some n ↔ ∃ name, table.name? x = some name ∧
      ∃ body, f.named? table = some body ∧ .quantified q name body = n := by
  simp [named?, Option.bind_eq_some_iff]

end Reading

/-- Every known term can be written with names. -/
theorem Term.Known.named {table : SymbolTable} {t : Term} (known : t.Known table) :
    (t.named? table).isSome := by
  -- Each symbol of the term has a name.
  induction t with
  | var x =>
    obtain ⟨name, stored⟩ := Option.isSome_iff_exists.mp known
    simp [Term.named?, fold, stored]
  | const c =>
    obtain ⟨name, stored⟩ := Option.isSome_iff_exists.mp known
    simp [Term.named?, fold, stored]
  | app f args ih =>
    rw [known_app] at known
    obtain ⟨name, stored⟩ := Option.isSome_iff_exists.mp known.1
    -- The arguments have been written before, one by one.
    obtain ⟨parts, done⟩ := Option.isSome_iff_exists.mp
      (isSome_mapM fun t member => ih t member (known.2 t member))
    simp [Term.named?_app, stored, done]

/-- Every known atom can be written with names. -/
theorem Atom.Known.named {table : SymbolTable} {a : Atom} (known : a.Known table) :
    (a.named? table).isSome := by
  -- The predicate has a name, and so has every symbol of the arguments.
  obtain ⟨name, stored⟩ := Option.isSome_iff_exists.mp known.1
  obtain ⟨args, done⟩ := Option.isSome_iff_exists.mp
    (isSome_mapM fun t member => (known.2 t member).named)
  simp [Atom.named?, stored, done]

/-- Every known formula can be written with names. -/
theorem Formula.Known.named {table : SymbolTable} {f : Formula} (known : f.Known table) :
    (f.named? table).isSome := by
  -- Each symbol of the formula has a name.
  induction f with
  | atom a => simpa [Formula.named?] using Atom.Known.named known
  | not f ih => simpa [Formula.named?] using ih known
  | binary op l r left right =>
    obtain ⟨first, one⟩ := Option.isSome_iff_exists.mp (left known.1)
    obtain ⟨second, two⟩ := Option.isSome_iff_exists.mp (right known.2)
    simp [Formula.named?, one, two]
  | quantified q x f ih =>
    obtain ⟨name, stored⟩ := Option.isSome_iff_exists.mp known.1
    obtain ⟨body, done⟩ := Option.isSome_iff_exists.mp (ih known.2)
    simp [Formula.named?, stored, done]

/-- Every known formula has a text. -/
theorem Formula.Known.text {table : SymbolTable} {f : Formula} (known : f.Known table) :
    (f.text? table).isSome := by
  -- The text is that of the formula with names.
  simpa [Formula.text?] using known.named

/-- Every known clause can be written with names. -/
theorem Clause.Known.named {table : SymbolTable} {c : Clause} (known : c.Known table) :
    (c.named? table).isSome := by
  -- Each literal is written with its atom.
  have literals : (c.literals.mapM (Literal.named? table)).isSome := by
    apply isSome_mapM
    intro l member
    simpa [Literal.named?] using (known l member).named
  simpa [Clause.named?] using literals

/-- Every known clause has a text. -/
theorem Clause.Known.text {table : SymbolTable} {c : Clause} (known : c.Known table) :
    (c.text? table).isSome := by
  -- The text is that of the clause with names.
  simpa [Clause.text?] using known.named

end ClauseForm
