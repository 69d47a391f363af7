import ClauseForm.Proofs.Known
import ClauseForm.Proofs.Variables
import ClauseForm.Semantics

/-! Truth depends only on free variables and on the symbols that occur, and respects replacement. -/

namespace ClauseForm

/-- A formula is true in a structure when it holds under every assignment. -/
def Formula.TrueIn (m : Structure) (f : Formula) : Prop := ∀ values, f.Holds m values

/-- A clause is true in a structure when it holds under every assignment. -/
def Clause.TrueIn (m : Structure) (c : Clause) : Prop := ∀ values, c.Holds m values

/-- Two formulas that hold in the same structures under the same assignments. -/
def Formula.Equivalent (f g : Formula) : Prop :=
  ∀ (m : Structure) (values : Variable → m.Domain), f.Holds m values ↔ g.Holds m values

/-- Equivalent formulas are true in the same structures. -/
theorem Formula.Equivalent.trueIn {f g : Formula} (same : f.Equivalent g) {m : Structure} :
    f.TrueIn m ↔ g.TrueIn m :=
  forall_congr' fun values => same m values

/-- Quantifiers respect equivalent propositions. -/
theorem Quantifier.ranges_congr {Domain : Type} (q : Quantifier) {p p' : Domain → Prop}
    (same : ∀ d, p d ↔ p' d) : q.Ranges p ↔ q.Ranges p' := by
  -- One is a statement about all elements, and the other about some.
  cases q with
  | universal => exact forall_congr' same
  | existential => exact exists_congr same

/-- Quantifiers respect implication. -/
theorem Quantifier.ranges_mono {Domain : Type} (q : Quantifier) {p p' : Domain → Prop}
    (implies : ∀ d, p d → p' d) (holds : q.Ranges p) : q.Ranges p' := by
  -- An element for which the first proposition is true will do for the second.
  cases q with
  | universal => exact fun d => implies d (holds d)
  | existential =>
    obtain ⟨d, one⟩ := holds
    exact ⟨d, implies d one⟩

/-- Connectives respect equivalent propositions. -/
theorem Connective.joins_congr (op : Connective) {p p' r r' : Prop} (left : p ↔ p')
    (right : r ↔ r') : op.Joins p r ↔ op.Joins p' r' := by
  -- Equivalent propositions are equal.
  rw [propext left, propext right]

section Assignments

variable {m : Structure} {values others : Variable → m.Domain}

/-- The value of a term depends only on its variables. -/
theorem Term.value_congr {t : Term} (agree : ∀ x ∈ t.vars, values x = others x) :
    t.value m values = t.value m others := by
  -- Every argument of an application has the same value under both assignments.
  induction t with
  | var x => exact agree x (by simp)
  | const c => rfl
  | app f args ih =>
    rw [value_app, value_app]
    refine congrArg (m.function f) (List.map_congr_left fun t listed => ?_)
    refine ih t listed fun x inside => ?_
    exact agree x (by rw [vars_app]; exact List.mem_flatMap.mpr ⟨t, listed, inside⟩)

/-- Whether an atom holds depends only on its variables. -/
theorem Atom.holds_congr {a : Atom} (agree : ∀ x ∈ a.vars, values x = others x) :
    a.Holds m values ↔ a.Holds m others := by
  -- The arguments have the same values under both assignments.
  have args : a.args.map (Term.value m values) = a.args.map (Term.value m others) :=
    List.map_congr_left fun t listed => Term.value_congr fun x inside =>
      agree x (List.mem_flatMap.mpr ⟨t, listed, inside⟩)
  rw [Atom.Holds, Atom.Holds, args]

/-- Whether a formula holds depends only on its free variables. -/
theorem Formula.holds_congr {f : Formula} (agree : ∀ x ∈ f.freeVariables, values x = others x) :
    f.Holds m values ↔ f.Holds m others := by
  -- Below a quantifier the assignments agree on the bound variable as well.
  induction f generalizing values others with
  | atom a => exact Atom.holds_congr fun x inside => agree x (mem_free_atom.mpr inside)
  | not f ih => exact not_congr (ih agree)
  | binary op l r left right =>
    exact op.joins_congr (left fun x inside => agree x (mem_free_binary.mpr (Or.inl inside)))
      (right fun x inside => agree x (mem_free_binary.mpr (Or.inr inside)))
  | quantified q x f ih =>
    refine q.ranges_congr fun d => ih fun y inside => ?_
    by_cases same : y = x
    · simp [same]
    · rw [assign_of_ne same, assign_of_ne same]
      exact agree y (mem_free_quantified.mpr ⟨inside, same⟩)

/-- A variable that is not free may have any value. -/
theorem Formula.holds_assign {f : Formula} {x : Variable} (unfree : x ∉ f.freeVariables)
    (d : m.Domain) : f.Holds m (assign values x d) ↔ f.Holds m values := by
  -- No free variable changes its value.
  refine holds_congr fun y inside => assign_of_ne ?_
  rintro rfl
  exact unfree inside

/-- A closed formula is true as soon as it holds under one assignment. -/
theorem Formula.trueIn_of_closed {f : Formula} (closed : f.freeVariables = [])
    (holds : f.Holds m values) : f.TrueIn m :=
  fun others => (holds_congr (by simp [closed])).mp holds

/-- A universal quantifier in front does not matter for truth under all assignments. -/
theorem Formula.trueIn_universal {f : Formula} {x : Variable} :
    (quantified .universal x f).TrueIn m ↔ f.TrueIn m := by
  refine ⟨fun all values => ?_, fun all values d => all _⟩
  -- One of the elements is the value that the variable has already.
  have here : f.Holds m (assign values x (values x)) := all values (values x)
  rwa [assign_self] at here

end Assignments

section Replacement

variable {m : Structure} {values : Variable → m.Domain}

/-- A term with others put in place of its variables has the value that it has under theirs. -/
theorem Term.value_bind (parts : Variable → Term) (t : Term) :
    (t.bind parts).value m values = t.value m fun x => (parts x).value m values := by
  -- Replacement and evaluation both pass to the arguments.
  induction t with
  | var x => rfl
  | const c => rfl
  | app f args ih =>
    simp only [bind_app, value_app, List.map_map]
    exact congrArg (m.function f) (List.map_congr_left fun t listed => ih t listed)

/-- An atom with terms put in place of its variables says what it says of their values. -/
theorem Atom.holds_bind (parts : Variable → Term) (a : Atom) :
    (a.bind parts).Holds m values ↔ a.Holds m fun x => (parts x).value m values := by
  -- Each argument has the value it has under the values of the terms.
  have args : (a.args.map (Term.bind parts)).map (Term.value m values) =
      a.args.map (Term.value m fun x => (parts x).value m values) := by
    rw [List.map_map]
    exact List.map_congr_left fun t _ => Term.value_bind parts t
  rw [Atom.Holds, Atom.bind, args, Atom.Holds]

/-- The values of terms after one variable has been given a term of its own. -/
theorem value_assign (x : Variable) (t : Term) :
    (fun y => (assign Term.var x t y).value m values) = assign values x (t.value m values) := by
  -- Only that one variable has the value of the term.
  funext y
  simp only [assign]
  split <;> rfl

/-- Replacing a free variable by a term that is not captured assigns the term's value to it. -/
theorem Formula.holds_substitute {f : Formula} {x : Variable} {t : Term}
    (apart : ∀ y ∈ t.vars, y ∉ f.boundVariables) :
    (f.substitute x t).Holds m values ↔ f.Holds m (assign values x (t.value m values)) := by
  -- A quantifier over the variable itself stops the replacement, and others leave the term alone.
  induction f generalizing values with
  | atom a =>
    have same : (a.bind (assign .var x t)).Holds m values ↔ _ := Atom.holds_bind (assign .var x t) a
    rwa [value_assign] at same
  | not f ih => exact not_congr (ih apart)
  | binary op l r left right =>
    simp only [bound_binary, List.mem_append, not_or] at apart
    exact op.joins_congr (left fun y inside => (apart y inside).1)
      (right fun y inside => (apart y inside).2)
  | quantified q y f ih =>
    simp only [bound_quantified, List.mem_cons, not_or] at apart
    refine q.ranges_congr fun d => ?_
    split
    · rename_i same
      subst same
      rw [assign_assign_same]
    · rename_i different
      have value : t.value m (assign values y d) = t.value m values :=
        Term.value_congr fun z inside => assign_of_ne (apart z inside).1
      rw [ih fun z inside => (apart z inside).2, value, assign_comm different]

end Replacement

/-- Meanings of the symbols that name elements of a domain. -/
structure Meanings (Domain : Type) where
  constant : Constant → Domain
  function : FunctionSymbol → List Domain → Domain

/-- The meanings that a structure gives. -/
abbrev Structure.meanings (m : Structure) : Meanings m.Domain :=
  { constant := m.constant, function := m.function }

/-- The structure with other meanings of constants and functions. -/
abbrev Structure.reinterpret (m : Structure) (meanings : Meanings m.Domain) : Structure :=
  { m with constant := meanings.constant, function := meanings.function }

/-- Meanings that are the same for every symbol of a table. -/
structure Meanings.AgreeOn {Domain : Type} (table : SymbolTable) (first second : Meanings Domain) :
    Prop where
  constant : ∀ c : Constant, table.Knows c → second.constant c = first.constant c
  function : ∀ f : FunctionSymbol, table.Knows f.toSymbol → second.function f = first.function f

/-- Meanings that differ at most for symbols given out between two states of a table. -/
structure Meanings.DifferOnNew {Domain : Type} (before after : SymbolTable)
    (first second : Meanings Domain) : Prop where
  constant : ∀ c : Constant, ¬ before.New after c → second.constant c = first.constant c
  function : ∀ f : FunctionSymbol, ¬ before.New after f.toSymbol →
    second.function f = first.function f

namespace Meanings

variable {Domain : Type} {a b c : SymbolTable} {first second third : Meanings Domain}

/-- Meanings do not differ from themselves. -/
theorem DifferOnNew.refl (before after : SymbolTable) (meanings : Meanings Domain) :
    DifferOnNew before after meanings meanings := ⟨fun _ _ => rfl, fun _ _ => rfl⟩

/-- Meanings that differ on new symbols only agree on the old ones. -/
theorem DifferOnNew.agree (differ : DifferOnNew a b first second) : AgreeOn a first second :=
  -- A symbol that was known is not new.
  ⟨fun c known => differ.constant c fun new => new.1 known,
    fun f known => differ.function f fun new => new.1 known⟩

/-- Differences on the new symbols of two periods are differences on those of the whole time. -/
theorem DifferOnNew.trans (one : DifferOnNew a b first second)
    (two : DifferOnNew b c second third) (past : a.Grows b) (future : b.Grows c) :
    DifferOnNew a c first third := by
  -- What is new in either period is new over the whole time.
  refine ⟨fun s old => ?_, fun s old => ?_⟩
  · rw [two.constant s fun new => old (new.earlier past),
      one.constant s fun new => old (new.later future)]
  · rw [two.function s fun new => old (new.earlier past),
      one.function s fun new => old (new.later future)]

end Meanings

section Reinterpretation

variable {m : Structure} {first second : Meanings m.Domain} {table : SymbolTable}
  {values : Variable → m.Domain}

/-- The value of a term depends only on the meanings of its symbols. -/
theorem Term.value_reinterpret (agree : first.AgreeOn table second) {t : Term}
    (known : t.Known table) :
    t.value (m.reinterpret second) values = t.value (m.reinterpret first) values := by
  -- Every symbol of a known term is known.
  induction t with
  | var x => rfl
  | const c => exact agree.constant c known
  | app f args ih =>
    rw [known_app] at known
    rw [value_app, value_app]
    have same : (m.reinterpret second).function f = (m.reinterpret first).function f :=
      agree.function f known.1
    rw [same]
    exact congrArg _ (List.map_congr_left fun t listed => ih t listed (known.2 t listed))

/-- Whether a formula holds depends only on the meanings of its symbols. -/
theorem Formula.holds_reinterpret (agree : first.AgreeOn table second) {f : Formula}
    (known : f.Known table) :
    f.Holds (m.reinterpret second) values ↔ f.Holds (m.reinterpret first) values := by
  -- The arguments of every atom have the same values.
  induction f generalizing values with
  | atom a =>
    have args : a.args.map (Term.value (m.reinterpret second) values) =
        a.args.map (Term.value (m.reinterpret first) values) :=
      List.map_congr_left fun t listed => Term.value_reinterpret agree (known.2 t listed)
    simp only [Formula.Holds, Atom.Holds, args]
  | not f ih => exact not_congr (ih known)
  | binary op l r left right => exact op.joins_congr (left known.1) (right known.2)
  | quantified q x f ih => exact q.ranges_congr fun d => ih known.2

/-- Whether a formula is true depends only on the meanings of its symbols. -/
theorem Formula.trueIn_reinterpret (agree : first.AgreeOn table second) {f : Formula}
    (known : f.Known table) :
    f.TrueIn (m.reinterpret second) ↔ f.TrueIn (m.reinterpret first) :=
  forall_congr' fun _ => holds_reinterpret agree known

end Reinterpretation

end ClauseForm
