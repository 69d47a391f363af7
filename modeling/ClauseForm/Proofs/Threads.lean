import ClauseForm.Proofs.Calls
import ClauseForm.Proofs.Stages

/-! Stages that give out symbols take formulas one after the other and hand on what is left. -/

namespace ClauseForm

section Threads

variable {State Item Result : Type}

/-- Takes items one after the other, each with the state that those before it have left behind. -/
def thread (step : Item → State → Result × State) : List Item → State → List Result × State
  | [], s => ([], s)
  | a :: items, s =>
    let (b, s) := step a s
    let (bs, s) := thread step items s
    (b :: bs, s)

variable {step : Item → State → Result × State} {items : List Item} {s : State}

/-- The first item meets the state at the start, and the others meet what it leaves behind. -/
theorem thread_cons (a : Item) : thread step (a :: items) s =
    ((step a s).1 :: (thread step items (step a s).2).1, (thread step items (step a s).2).2) := rfl

/-- An item is treated with the state that the items before it have left behind. -/
theorem getElem?_thread {i : Nat} : (thread step items s).1[i]? =
    items[i]?.map fun a => (step a (thread step (items.take i) s).2).1 := by
  induction items generalizing s i with
  | nil => rfl
  | cons a items ih =>
    -- Every item but the first is met with what the first has left behind.
    cases i with
    | zero => rfl
    | succ i => exact ih

/-- An item leaves behind what the next one meets. -/
theorem thread_take_succ {i : Nat} {a : Item} (here : items[i]? = some a) :
    (thread step (items.take (i + 1)) s).2 = (step a (thread step (items.take i) s).2).2 := by
  -- The induction goes along the items that stand before this one.
  induction items generalizing s i with
  | nil => cases here
  | cons b items ih =>
    cases i with
    | zero =>
      obtain rfl : b = a := Option.some.inj here
      rfl
    | succ i => exact ih here

/-- There is one result for each item. -/
theorem length_thread : (thread step items s).1.length = items.length := by
  -- Every step makes one result.
  induction items generalizing s with
  | nil => rfl
  | cons a items ih => exact congrArg Nat.succ ih

/-- The first items come first, and the others meet what they have left behind. -/
theorem thread_append {others : List Item} : (thread step (items ++ others) s).2 =
    (thread step others (thread step items s).2).2 := by
  -- The first item leaves the same state behind, whatever comes after the others.
  induction items generalizing s with
  | nil => rfl
  | cons a items ih => exact ih

/-- Steps that change a table by calls to its supplies do so for one item after the other. -/
theorem supplied_thread (table : State → SymbolTable)
    (each : ∀ a s, (table s).Supplied (table (step a s).2)) (items : List Item) (s : State) :
    (table s).Supplied (table (thread step items s).2) := by
  -- The calls made for the first item come before those for the others.
  induction items generalizing s with
  | nil => exact .refl _
  | cons a items ih => exact (each a s).trans (ih _)

/-- What is met by a later item comes by further calls from what is met by an earlier one. -/
theorem supplied_thread_take (table : State → SymbolTable)
    (each : ∀ a s, (table s).Supplied (table (step a s).2)) (items : List Item) (s : State)
    {i j : Nat} (le : i ≤ j) : (table (thread step (items.take i) s).2).Supplied
      (table (thread step (items.take j) s).2) := by
  -- The items between the two places have been taken in the meantime.
  have split : items.take j = items.take i ++ (items.drop i).take (j - i) := by
    rw [← List.take_add, Nat.add_sub_cancel' le]
  rw [split, thread_append]
  exact supplied_thread table each _ _

/-- What is left in the end comes by further calls from what an item leaves behind. -/
theorem supplied_thread_rest (table : State → SymbolTable)
    (each : ∀ a s, (table s).Supplied (table (step a s).2)) {i : Nat} {a : Item}
    (here : items[i]? = some a) : (table (step a (thread step (items.take i) s).2).2).Supplied
      (table (thread step items s).2) := by
  -- What the item leaves behind is what an item at the next place would meet.
  have later := supplied_thread_take table each items s
    (Nat.succ_le_of_lt (List.getElem?_eq_some_iff.mp here).1)
  rwa [thread_take_succ here, List.take_length] at later

end Threads

namespace Formula

/-- Standardizes a formula and hands on the table. -/
def standardizing (f : Formula) (symbols : SymbolTable) : Formula × SymbolTable :=
  ((f.standardize symbols).1, (f.standardize symbols).2.symbols)

/-- Replaces the existential quantifiers in front of a formula and hands on the table. -/
def skolemizing (f : Formula) (symbols : SymbolTable) : Formula × SymbolTable :=
  ((f.skolemize symbols).formula, (f.skolemize symbols).symbols)

/-- Lets universal quantifiers claim their variables and hands on the naming. -/
def claiming (f : Formula) (naming : Naming) : Formula × Naming :=
  f.claimBinders (· == .universal) id naming

/-- Standardizing a list threads the table through its formulas. -/
theorem standardizeAll_eq_thread (fs : List Formula) (symbols : SymbolTable) :
    ((standardizeAll fs symbols).1, (standardizeAll fs symbols).2.1) =
      thread standardizing fs symbols := by
  -- The first formula leaves the table that the others are met with.
  induction fs generalizing symbols with
  | nil => rfl
  | cons f fs ih => rw [thread_cons, standardizing, ← ih]; rfl

/-- Making witnesses for a list threads the table through its formulas. -/
theorem skolemizeAll_eq_thread (fs : List Formula) (symbols : SymbolTable) :
    ((skolemizeAll fs symbols).1.map Skolemized.formula, (skolemizeAll fs symbols).2) =
      thread skolemizing fs symbols := by
  -- The first formula leaves the table that the others are met with.
  induction fs generalizing symbols with
  | nil => rfl
  | cons f fs ih => rw [thread_cons, skolemizing, ← ih]; rfl

/-- Claiming variables across a list threads the naming through its formulas. -/
theorem claimUniversals_eq_thread (fs : List Formula) (naming : Naming) :
    claimUniversals fs naming = thread claiming fs naming := by
  -- The first formula leaves the naming that the others are met with.
  induction fs generalizing naming with
  | nil => rfl
  | cons f fs ih => rw [thread_cons, claiming, ← ih]; rfl

end Formula

namespace Draft

variable {order : PrenexOrder} {d : Draft}

/-- Standardization threads the table of a draft through its formulas. -/
theorem after_standardization : d.after order .standardization =
    { formulas := (thread Formula.standardizing d.formulas d.symbols).1
      symbols := (thread Formula.standardizing d.formulas d.symbols).2 } := by
  rw [← Formula.standardizeAll_eq_thread]
  rfl

/-- Skolemization threads the table of a draft through its formulas. -/
theorem after_skolemization : d.after order .skolemization =
    { formulas := (thread Formula.skolemizing d.formulas d.symbols).1
      symbols := (thread Formula.skolemizing d.formulas d.symbols).2 } := by
  rw [← Formula.skolemizeAll_eq_thread]
  rfl

/-- Renaming threads a naming through the formulas of a draft, with nothing taken at the start. -/
theorem after_renaming : d.after order .renaming =
    { formulas := (thread Formula.claiming d.formulas { taken := [], symbols := d.symbols }).1
      symbols :=
        (thread Formula.claiming d.formulas { taken := [], symbols := d.symbols }).2.symbols } := by
  rw [← Formula.claimUniversals_eq_thread]
  rfl

/-- A stage keeps the number of formulas. -/
theorem length_after (d : Draft) (stage : Stage) :
    (d.after order stage).formulas.length = d.formulas.length := by
  -- A stage that threads a state treats each formula once, and the others map the list.
  match stage with
  | .standardization => rw [after_standardization, length_thread]
  | .skolemization => rw [after_skolemization, length_thread]
  | .renaming => rw [after_renaming, length_thread]
  | .implicationElimination | .negationNormalForm | .prenex => exact List.length_map _
  | .universalStripping | .distribution => exact List.length_map _
  | .clauseExtraction => rfl

end Draft

section Counts

/-- Settling a quantifier gives out no symbols but variables. -/
theorem Naming.count_settle (naming : Naming) (claims : Quantifier → Bool) (q : Quantifier)
    (x : Variable) {kind : Kind} (other : kind ≠ .var) :
    (naming.settle claims q x).2.symbols.count kind = naming.symbols.count kind := by
  rw [settle, claim]
  -- A variable is given out where the quantifier claims one and its own is taken.
  split
  · split
    · exact (naming.symbols.freshVariable_next.2 kind).trans (by rw [if_neg other, Nat.add_zero])
    · rfl
  · rfl

namespace Formula

/-- A walk gives out no symbols but variables. -/
theorem count_claimBinders (claims : Quantifier → Bool) (f : Formula)
    (names : Variable → Variable) (naming : Naming) {kind : Kind} (other : kind ≠ .var) :
    (f.claimBinders claims names naming).2.symbols.count kind = naming.symbols.count kind := by
  -- A symbol can be given out at a quantifier only.
  induction f generalizing names naming with
  | atom a => rfl
  | not f ih => exact ih names naming
  | binary op l r left right => exact (right names _).trans (left names naming)
  | quantified q x f ih => exact (ih _ _).trans (naming.count_settle claims q x other)

/-- Standardizing gives out no symbols but variables. -/
theorem count_thread_standardizing (fs : List Formula) (symbols : SymbolTable) {kind : Kind}
    (other : kind ≠ .var) :
    (thread standardizing fs symbols).2.count kind = symbols.count kind := by
  -- Each formula is walked through with the table of the one before it.
  induction fs generalizing symbols with
  | nil => rfl
  | cons f fs ih =>
    exact (ih _).trans (f.count_claimBinders _ id { taken := f.freeVariables, symbols } other)

/-- Witnesses give out no variables. -/
theorem Skolemizes.count_var {f g : Formula} {scope : List Variable} {symbols final : SymbolTable}
    (steps : Skolemizes symbols scope f final g) : final.count .var = symbols.count .var := by
  -- Each witness takes one Skolem symbol from the supply and nothing else.
  induction steps with
  | existential made _ ih =>
    obtain ⟨rfl, _⟩ := freshWitness_cases made
    exact ih.trans ((SymbolTable.freshSkolem_next _).2 .var)
  | universal _ ih => exact ih
  | done plain => rfl

/-- Making witnesses for a list gives out no variables. -/
theorem count_var_thread_skolemizing (fs : List Formula) (symbols : SymbolTable) :
    (thread skolemizing fs symbols).2.count .var = symbols.count .var := by
  -- No formula of the list takes a variable from the supply.
  induction fs generalizing symbols with
  | nil => rfl
  | cons f fs ih => exact (ih _).trans (f.skolemizes [] symbols).count_var

end Formula

end Counts

section Calls

namespace Formula

/-- Standardizing a formula changes the table by calls to its supplies alone. -/
theorem standardizing_supplied (f : Formula) (symbols : SymbolTable) :
    symbols.Supplied (f.standardizing symbols).2 :=
  f.claimBinders_supplied _ id { taken := f.freeVariables, symbols }

/-- Making witnesses for a formula changes the table by calls to its supplies alone. -/
theorem skolemizing_supplied (f : Formula) (symbols : SymbolTable) :
    symbols.Supplied (f.skolemizing symbols).2 :=
  (f.skolemizes [] symbols).supplied

/-- Claiming variables changes the table by calls to its supplies alone. -/
theorem claiming_supplied (f : Formula) (naming : Naming) :
    naming.symbols.Supplied (f.claiming naming).2.symbols :=
  f.claimBinders_supplied _ id naming

/-- Universal quantifiers claim variables across a list by calls to the supply alone. -/
theorem claimUniversals_supplied (fs : List Formula) (naming : Naming) :
    naming.symbols.Supplied (claimUniversals fs naming).2.symbols := by
  rw [claimUniversals_eq_thread]
  exact supplied_thread Naming.symbols claiming_supplied fs naming

end Formula

namespace Draft

/-- A stage changes the table by calls to its supplies alone. -/
theorem supplied_after (order : PrenexOrder) (d : Draft) (stage : Stage) :
    d.symbols.Supplied (d.after order stage).symbols := by
  -- Only three stages give out symbols.
  match stage with
  | .standardization =>
    rw [after_standardization]
    exact supplied_thread id Formula.standardizing_supplied _ _
  | .skolemization =>
    rw [after_skolemization]
    exact supplied_thread id Formula.skolemizing_supplied _ _
  | .renaming => exact Formula.claimUniversals_supplied _ { taken := [], symbols := d.symbols }
  | .implicationElimination | .negationNormalForm | .prenex => exact .refl _
  | .universalStripping | .distribution | .clauseExtraction => exact .refl _

/-- Any number of stages changes the table by calls to its supplies alone. -/
theorem supplied_afterFirst (order : PrenexOrder) (d : Draft) {count : Nat}
    (within : count ≤ Stage.formulaStages.length) :
    d.symbols.Supplied (d.afterFirst order count).symbols :=
  afterFirst_induct (motive := fun _ e => d.symbols.Supplied e.symbols) (.refl _)
    (fun stage e before => before.trans (e.supplied_after order stage)) within

/-- A stage gives out constants and functions in pairs. -/
theorem paired_after (order : PrenexOrder) (d : Draft) (stage : Stage) :
    d.symbols.Paired (d.after order stage).symbols :=
  (d.supplied_after order stage).paired

/-- Any number of stages gives out constants and functions in pairs. -/
theorem paired_afterFirst (order : PrenexOrder) (d : Draft) {count : Nat}
    (within : count ≤ Stage.formulaStages.length) :
    d.symbols.Paired (d.afterFirst order count).symbols :=
  (d.supplied_afterFirst order within).paired

end Draft

end Calls

end ClauseForm
