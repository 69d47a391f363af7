import ClauseForm.NormalForm

/-! Variables that occur free, variables that are bound, and formulas that keep both apart. -/

namespace ClauseForm

section Assign

variable {α : Type} {values : Variable → α} {x y : Variable} {a b : α}

/-- The variable assigned to has the value assigned. -/
@[simp] theorem assign_same : assign values x a x = a := if_pos rfl

/-- Every other variable keeps its value. -/
theorem assign_of_ne (different : y ≠ x) : assign values x a y = values y := if_neg different

/-- Assigning twice keeps the later value. -/
@[simp] theorem assign_assign_same : assign (assign values x a) x b = assign values x b := by
  -- Other variables are not touched at all.
  funext z
  by_cases here : z = x
  · simp [here]
  · simp only [assign_of_ne here]

/-- Assignments to different variables do not depend on their order. -/
theorem assign_comm (different : x ≠ y) :
    assign (assign values x a) y b = assign (assign values y b) x a := by
  -- Each variable gets at most one of the two values.
  funext z
  by_cases first : z = x
  · subst first
    rw [assign_of_ne different, assign_same, assign_same]
  · by_cases second : z = y
    · subst second
      rw [assign_same, assign_of_ne first, assign_same]
    · simp only [assign_of_ne first, assign_of_ne second]

/-- Assigning the value that a variable has changes nothing. -/
@[simp] theorem assign_self : assign values x (values x) = values := by
  -- The variable keeps its value, and so do all others.
  funext z
  by_cases here : z = x
  · simp [here]
  · exact assign_of_ne here

end Assign

/-- Variables of a term with others put in place of its variables are those of the parts. -/
theorem Term.mem_vars_bind {values : Variable → Term} {t : Term} {y : Variable} :
    y ∈ (t.bind values).vars ↔ ∃ x ∈ t.vars, y ∈ (values x).vars := by
  -- Replacement passes to the arguments of an application.
  induction t with
  | var x => simp
  | const c => simp
  | app f args ih =>
    simp only [bind_app, vars_app, List.flatMap_map, List.mem_flatMap]
    constructor
    -- A variable found in one of the arguments stands for the same part there.
    · rintro ⟨t, listed, inside⟩
      obtain ⟨x, occurs, part⟩ := (ih t listed).mp inside
      exact ⟨x, ⟨t, listed, occurs⟩, part⟩
    · rintro ⟨x, ⟨t, listed, occurs⟩, part⟩
      exact ⟨t, listed, (ih t listed).mpr ⟨x, occurs, part⟩⟩

/-- Variables of an atom with terms put in place of its variables are those of the terms. -/
theorem Atom.mem_vars_bind {values : Variable → Term} {a : Atom} {y : Variable} :
    y ∈ (a.bind values).vars ↔ ∃ x ∈ a.vars, y ∈ (values x).vars := by
  -- Replacement passes to the arguments.
  simp only [Atom.vars, Atom.bind, List.flatMap_map, List.mem_flatMap, Term.mem_vars_bind]
  constructor
  · rintro ⟨t, listed, x, occurs, part⟩
    exact ⟨x, ⟨t, listed, occurs⟩, part⟩
  · rintro ⟨x, ⟨t, listed, occurs⟩, part⟩
    exact ⟨t, listed, x, occurs, part⟩

/-- A variable of an atom after a replacement was there before, or comes with the term. -/
theorem Atom.mem_vars_substitute {x z : Variable} {value : Term} {a : Atom} :
    z ∈ (a.substitute x value).vars ↔ z ∈ a.vars ∧ z ≠ x ∨ x ∈ a.vars ∧ z ∈ value.vars := by
  -- To replace one variable is to put the term in its place and each other variable in its own.
  have replaced : z ∈ (a.substitute x value).vars ↔
      ∃ y ∈ a.vars, z ∈ (assign Term.var x value y).vars := mem_vars_bind
  rw [replaced]
  constructor
  · rintro ⟨y, occurs, part⟩
    by_cases same : y = x
    · rw [same, assign_same] at part
      exact Or.inr ⟨same ▸ occurs, part⟩
    · -- A variable other than the one replaced stays where it is.
      rw [assign_of_ne same, Term.vars_var, List.mem_singleton] at part
      subst part
      exact Or.inl ⟨occurs, same⟩
  · rintro (⟨occurs, different⟩ | ⟨occurs, part⟩)
    · exact ⟨z, occurs, by simp [assign_of_ne different]⟩
    · exact ⟨x, occurs, by rwa [assign_same]⟩

namespace Formula

/-- The variables that quantifiers bind, each before those of its scope. -/
def boundVariables (f : Formula) : List Variable := f.binders.map (·.2)

section Occurrence

variable {z x : Variable} {q : Quantifier} {op : Connective} {a : Atom} {f l r : Formula}

/-- The variables of an atom are free in it. -/
@[simp] theorem mem_free_atom : z ∈ (atom a).freeVariables ↔ z ∈ a.vars := by
  simp [freeVariables]

/-- A negation has the free variables of what it denies. -/
@[simp] theorem mem_free_not : z ∈ (not f).freeVariables ↔ z ∈ f.freeVariables := Iff.rfl

/-- A variable is free in a connective if it is free on either side. -/
@[simp] theorem mem_free_binary :
    z ∈ (binary op l r).freeVariables ↔ z ∈ l.freeVariables ∨ z ∈ r.freeVariables := by
  -- A variable of the right side is listed unless the left side has it already.
  by_cases left : z ∈ l.freeVariables <;> simp [freeVariables, left]

/-- A quantifier takes its variable from those that are free in its scope. -/
@[simp] theorem mem_free_quantified :
    z ∈ (quantified q x f).freeVariables ↔ z ∈ f.freeVariables ∧ z ≠ x := by
  simp [freeVariables]

/-- An atom binds nothing. -/
@[simp] theorem bound_atom : (atom a).boundVariables = [] := rfl

/-- A negation binds what is bound in what it denies. -/
@[simp] theorem bound_not : (not f).boundVariables = f.boundVariables := rfl

/-- A connective binds what is bound on either side, the left one first. -/
@[simp] theorem bound_binary :
    (binary op l r).boundVariables = l.boundVariables ++ r.boundVariables := by
  simp [boundVariables, binders]

/-- A quantifier binds its variable before those of its scope. -/
@[simp] theorem bound_quantified :
    (quantified q x f).boundVariables = x :: f.boundVariables := by
  simp [boundVariables, binders]

end Occurrence

/-- Replacing a variable leaves the quantifiers as they are. -/
@[simp] theorem binders_substitute (x : Variable) (value : Term) (f : Formula) :
    (f.substitute x value).binders = f.binders := by
  -- Only arguments of atoms change.
  induction f with
  | atom a => rfl
  | not f ih => exact ih
  | binary op l r left right => simp only [substitute, binders, left, right]
  | quantified q y f ih =>
    simp only [substitute, binders]
    split
    · rfl
    · rw [ih]

/-- A variable that is free after a replacement was free before, or comes with the term. -/
theorem mem_free_substitute {x z : Variable} {value : Term} {f : Formula}
    (free : z ∈ (f.substitute x value).freeVariables) :
    z ∈ f.freeVariables ∧ z ≠ x ∨ z ∈ value.vars := by
  -- A quantifier over the variable itself keeps the replacement out.
  induction f with
  | atom a =>
    rw [substitute, mem_free_atom, Atom.mem_vars_substitute] at free
    exact free.imp (And.imp_left mem_free_atom.mpr) And.right
  | not f ih => exact ih free
  | binary op l r left right =>
    rw [substitute, mem_free_binary] at free
    rcases free with free | free
    · exact (left free).imp_left fun old => ⟨mem_free_binary.mpr (Or.inl old.1), old.2⟩
    · exact (right free).imp_left fun old => ⟨mem_free_binary.mpr (Or.inr old.1), old.2⟩
  | quantified q y f ih =>
    rw [substitute, mem_free_quantified] at free
    obtain ⟨free, unbound⟩ := free
    split at free
    · rename_i same
      exact Or.inl ⟨mem_free_quantified.mpr ⟨free, unbound⟩, same ▸ unbound⟩
    · exact (ih free).imp_left fun old => ⟨mem_free_quantified.mpr ⟨old.1, unbound⟩, old.2⟩

/-- Variables are new when they differ from each other and from all those seen before. -/
theorem areNew_iff {seen xs : List Variable} :
    areNew seen xs = true ↔ xs.Nodup ∧ ∀ x ∈ xs, x ∉ seen := by
  -- Each variable joins those seen before the next one is looked at.
  induction xs generalizing seen with
  | nil => simp [areNew]
  | cons x xs ih =>
    simp only [areNew, Bool.and_eq_true, decide_eq_true_eq, ih, List.nodup_cons, List.mem_cons,
      not_or]
    constructor
    · rintro ⟨unseen, distinct, apart⟩
      refine ⟨⟨fun again => (apart x again).1 rfl, distinct⟩, ?_⟩
      rintro y (rfl | later)
      · exact unseen
      · exact (apart y later).2
    · rintro ⟨⟨once, distinct⟩, apart⟩
      refine ⟨apart x (Or.inl rfl), distinct, fun y later => ⟨?_, apart y (Or.inr later)⟩⟩
      rintro rfl
      exact once later

/-- No variable is bound twice, and none is both bound and free. -/
structure Apart (f : Formula) : Prop where
  distinct : f.boundVariables.Nodup
  unfree : ∀ x ∈ f.boundVariables, x ∉ f.freeVariables

/-- The check for unique binders decides whether the variables of a formula are kept apart. -/
theorem hasUniqueBinders_iff {f : Formula} : f.hasUniqueBinders = true ↔ f.Apart := by
  -- The free variables count as seen from the start.
  rw [hasUniqueBinders, areNew_iff]
  exact ⟨fun checked => ⟨checked.1, checked.2⟩, fun apart => ⟨apart.distinct, apart.unfree⟩⟩

section Parts

variable {x : Variable} {q : Quantifier} {op : Connective} {f l r : Formula}

/-- The scope of a quantifier keeps its variables apart, and does not bind the same one again. -/
theorem Apart.scope (apart : (quantified q x f).Apart) : f.Apart ∧ x ∉ f.boundVariables := by
  -- A variable that is free in the scope only is the one that the quantifier binds.
  have distinct := apart.distinct
  rw [bound_quantified, List.nodup_cons] at distinct
  refine ⟨⟨distinct.2, fun y bound free => ?_⟩, distinct.1⟩
  have other : y ≠ x := by
    rintro rfl
    exact distinct.1 bound
  exact apart.unfree y (by simp [bound]) (mem_free_quantified.mpr ⟨free, other⟩)

/-- The left side of a connective keeps its variables apart. -/
theorem Apart.left (apart : (binary op l r).Apart) : l.Apart := by
  -- Its variables are among those of the whole.
  have distinct := apart.distinct
  rw [bound_binary, List.nodup_append] at distinct
  exact ⟨distinct.1, fun y bound free => apart.unfree y (by simp [bound]) (by simp [free])⟩

/-- The right side of a connective keeps its variables apart. -/
theorem Apart.right (apart : (binary op l r).Apart) : r.Apart := by
  -- Its variables are among those of the whole.
  have distinct := apart.distinct
  rw [bound_binary, List.nodup_append] at distinct
  exact ⟨distinct.2.1, fun y bound free => apart.unfree y (by simp [bound]) (by simp [free])⟩

/-- A variable that one side of a connective binds is neither free nor bound in the other. -/
theorem Apart.sides (apart : (binary op l r).Apart) :
    (∀ y ∈ l.boundVariables, y ∉ r.freeVariables ∧ y ∉ r.boundVariables) ∧
      ∀ y ∈ r.boundVariables, y ∉ l.freeVariables ∧ y ∉ l.boundVariables := by
  -- Both sides together bind each variable once, and none that is free in either.
  have distinct := apart.distinct
  rw [bound_binary, List.nodup_append] at distinct
  refine ⟨fun y bound => ⟨fun free => ?_, fun again => distinct.2.2 y bound y again rfl⟩,
    fun y bound => ⟨fun free => ?_, fun again => distinct.2.2 y again y bound rfl⟩⟩
  · exact apart.unfree y (by simp [bound]) (by simp [free])
  · exact apart.unfree y (by simp [bound]) (by simp [free])

/-- A formula without quantifiers has nothing to keep apart. -/
theorem apart_of_unbound (unbound : f.boundVariables = []) : f.Apart := by
  -- There is no bound variable.
  constructor <;> simp [unbound]

end Parts

/-- A formula has no quantifier exactly when it binds no variable. -/
theorem hasQuantifier_eq_false_iff {f : Formula} : f.hasQuantifier = false ↔ f.binders = [] := by
  -- Each quantifier contributes one binder.
  induction f with
  | atom a => simp [hasQuantifier, binders]
  | not f ih => simpa [hasQuantifier, binders] using ih
  | binary op l r left right => simp [hasQuantifier, binders, left, right]
  | quantified q x f ih => simp [hasQuantifier, binders]

end Formula

end ClauseForm
