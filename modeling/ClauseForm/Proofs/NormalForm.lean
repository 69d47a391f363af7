import ClauseForm.Proofs.Variables

/-! Normal forms imply one another, and most of them depend only on the shape of a formula. -/

namespace ClauseForm.Formula

/-- Formulas with the same connectives and quantifiers in the same places. -/
inductive SameShape : Formula → Formula → Prop
  | atom (a b : Atom) : SameShape (.atom a) (.atom b)
  | not {f g : Formula} : SameShape f g → SameShape (.not f) (.not g)
  | binary (op : Connective) {l r l' r' : Formula} :
    SameShape l l' → SameShape r r' → SameShape (.binary op l r) (.binary op l' r')
  | quantified (q : Quantifier) (x y : Variable) {f g : Formula} :
    SameShape f g → SameShape (.quantified q x f) (.quantified q y g)

/-- Every formula has its own shape. -/
theorem SameShape.refl (f : Formula) : SameShape f f := by
  -- Atoms are all of one shape.
  induction f with
  | atom a => exact .atom a a
  | not f ih => exact .not ih
  | binary op l r left right => exact .binary op left right
  | quantified q x f ih => exact .quantified q x x ih

/-- Replacing a variable keeps the shape of a formula. -/
theorem sameShape_substitute (x : Variable) (value : Term) (f : Formula) :
    SameShape f (f.substitute x value) := by
  -- Only arguments of atoms change.
  induction f with
  | atom a => exact .atom _ _
  | not f ih => exact .not ih
  | binary op l r left right => exact .binary op left right
  | quantified q y f ih =>
    rw [substitute]
    split
    · exact .refl _
    · exact .quantified q y y ih

/-- The quantifiers, each before those of its scope. -/
def quantifiers (f : Formula) : List Quantifier := f.binders.map (·.1)

namespace SameShape

variable {f g : Formula}

/-- Formulas of one shape have the same quantifiers in the same order. -/
theorem quantifiers (same : SameShape f g) : f.quantifiers = g.quantifiers := by
  -- The variables that they bind may differ.
  induction same with
  | atom a b => rfl
  | not _ ih => exact ih
  | binary op _ _ left right =>
    simp only [Formula.quantifiers, binders, List.map_append] at left right ⊢
    rw [left, right]
  | quantified q x y _ ih =>
    simp only [Formula.quantifiers, binders, List.map_cons] at ih ⊢
    rw [ih]

/-- Formulas of one shape both have a quantifier or both have none. -/
theorem hasQuantifier (same : SameShape f g) : f.hasQuantifier = g.hasQuantifier := by
  -- A quantifier answers at once, and elsewhere the parts decide.
  induction same with
  | atom a b => rfl
  | not _ ih => exact ih
  | binary op _ _ left right => simp only [Formula.hasQuantifier, left, right]
  | quantified q x y _ _ => rfl

/-- Formulas of one shape have matrices of one shape. -/
theorem matrix (same : SameShape f g) : SameShape f.matrix g.matrix := by
  -- The quantifiers in front correspond to each other.
  induction same with
  | atom a b => exact .atom a b
  | not inner _ => exact .not inner
  | binary op left right _ _ => exact .binary op left right
  | quantified q x y _ ih => exact ih

/-- Negation normal form depends only on the shape. -/
theorem isNegationNormal (same : SameShape f g) : f.isNegationNormal = g.isNegationNormal := by
  -- The connectives are the same, and so are the quantifiers.
  induction same with
  | atom a b => rfl
  -- Below a negation it matters only whether there is an atom.
  | not inner _ => cases inner <;> rfl
  | binary op _ _ left right =>
    cases op <;> simp only [Formula.isNegationNormal, left, right]
  | quantified q x y _ ih => exact ih

/-- Prenex form depends only on the shape. -/
theorem isPrenex (same : SameShape f g) : f.isPrenex = g.isPrenex := by
  rw [Formula.isPrenex, Formula.isPrenex, same.matrix.hasQuantifier]

/-- The order of the quantifiers in front depends only on the shape. -/
theorem isExistentialsFirst (same : SameShape f g) :
    f.isExistentialsFirst = g.isExistentialsFirst := by
  have order : f.binders.map (·.1) = g.binders.map (·.1) := same.quantifiers
  rw [Formula.isExistentialsFirst, Formula.isExistentialsFirst, same.isPrenex, order]

/-- The absence of existential quantifiers depends only on the shape. -/
theorem isSkolemized (same : SameShape f g) : f.isSkolemized = g.isSkolemized := by
  -- Only the quantifiers are looked at.
  have by_quantifiers (h : Formula) :
      h.isSkolemized = h.quantifiers.all (· == .universal) := by
    simp only [Formula.isSkolemized, Formula.quantifiers, List.all_map, Function.comp_def]
  rw [by_quantifiers, by_quantifiers, same.quantifiers]

end SameShape

section Implications

variable {f : Formula}

/-- Negation normal form excludes implications and equivalences. -/
theorem isImplicationFree_of_isNegationNormal (normal : f.isNegationNormal = true) :
    f.isImplicationFree = true := by
  -- The form of the parts follows from that of the whole.
  induction f with
  | atom a => rfl
  -- Only atoms are negated.
  | not f _ => cases f <;> first | rfl | cases normal
  | binary op l r left right =>
    cases op <;> simp only [isNegationNormal, Bool.and_eq_true, Bool.false_eq_true] at normal
    · simp only [isImplicationFree, left normal.1, right normal.2, Bool.and_self]
    · simp only [isImplicationFree, left normal.1, right normal.2, Bool.and_self]
  | quantified q x f ih => exact ih normal

/-- A formula without quantifiers binds nothing. -/
theorem binders_of_isQuantifierFree (free : f.isQuantifierFree = true) : f.binders = [] := by
  -- To have no quantifier is to bind no variable.
  rw [isQuantifierFree, Bool.not_eq_true'] at free
  exact hasQuantifier_eq_false_iff.mp free

/-- A formula without quantifiers is its own matrix. -/
theorem matrix_of_isQuantifierFree (free : f.isQuantifierFree = true) : f.matrix = f := by
  -- Only a quantifier would be taken off.
  cases f with
  | atom a => rfl
  | not f => rfl
  | binary op l r => rfl
  | quantified q x f => cases free

/-- A formula without quantifiers keeps its variables apart. -/
theorem apart_of_isQuantifierFree (free : f.isQuantifierFree = true) : f.Apart :=
  apart_of_unbound (by rw [boundVariables, binders_of_isQuantifierFree free, List.map_nil])

/-- A formula without quantifiers has them all in front. -/
theorem isPrenex_of_isQuantifierFree (free : f.isQuantifierFree = true) : f.isPrenex = true := by
  rw [isPrenex, matrix_of_isQuantifierFree free]
  exact free

/-- A formula without quantifiers has no existential one. -/
theorem isSkolemized_of_isQuantifierFree (free : f.isQuantifierFree = true) :
    f.isSkolemized = true := by
  rw [isSkolemized, binders_of_isQuantifierFree free, List.all_nil]

/-- Where all quantifiers are universal and in front, the existential ones come first. -/
theorem isExistentialsFirst_of_isSkolemized (prenex : f.isPrenex = true)
    (skolemized : f.isSkolemized = true) : f.isExistentialsFirst = true := by
  -- Dropping existential quantifiers at the front leaves universal ones.
  rw [isExistentialsFirst, prenex, Bool.true_and, List.all_eq_true]
  intro q member
  have listed := (List.dropWhile_sublist _).mem member
  obtain ⟨b, inside, rfl⟩ := List.mem_map.mp listed
  exact List.all_eq_true.mp skolemized b inside

/-- In negation normal form without quantifiers, only literals join nothing. -/
theorem literal_of_isNegationNormal (normal : f.isNegationNormal = true)
    (free : f.hasQuantifier = false) (conjunction : ∀ l r, f ≠ .and l r)
    (disjunction : ∀ l r, f ≠ .or l r) : ∃ a, f = .atom a ∨ f = .not (.atom a) := by
  -- All other connectives and quantifiers are excluded by one of the assumptions.
  cases f with
  | atom a => exact ⟨a, Or.inl rfl⟩
  | not f =>
    cases f with
    | atom a => exact ⟨a, Or.inr rfl⟩
    | _ => cases normal
  | binary op l r =>
    cases op with
    | and => exact (conjunction l r rfl).elim
    | or => exact (disjunction l r rfl).elim
    | implies => cases normal
    | iff => cases normal
  | quantified q x f => cases free

/-- A junction is in negation normal form without quantifiers if both of its sides are. -/
theorem normal_junction {op : Connective} {l r : Formula} (junction : op = .and ∨ op = .or)
    (left : l.isNegationNormal = true ∧ l.isQuantifierFree = true)
    (right : r.isNegationNormal = true ∧ r.isQuantifierFree = true) :
    (binary op l r).isNegationNormal = true ∧ (binary op l r).isQuantifierFree = true := by
  simp only [isQuantifierFree, Bool.not_eq_true'] at left right ⊢
  -- Both kinds of junctions are read in the same way.
  rcases junction with rfl | rfl
  · simp only [isNegationNormal, hasQuantifier, left, right, Bool.and_self, Bool.or_self, and_self]
  · simp only [isNegationNormal, hasQuantifier, left, right, Bool.and_self, Bool.or_self, and_self]

/-- A disjunction of literals is in negation normal form and has no quantifier. -/
theorem normal_of_isDisjunction (disjunction : f.isDisjunction = true) :
    f.isNegationNormal = true ∧ f.isQuantifierFree = true := by
  -- The form allows literals and disjunctions only.
  induction f with
  | atom a => exact ⟨rfl, rfl⟩
  | not f _ => cases f <;> first | exact ⟨rfl, rfl⟩ | cases disjunction
  | binary op l r left right =>
    cases op <;> simp only [isDisjunction, Bool.and_eq_true, Bool.false_eq_true] at disjunction
    -- Only disjunctions of disjunctions are left.
    exact normal_junction (Or.inr rfl) (left disjunction.1) (right disjunction.2)
  | quantified q x f _ => cases disjunction

/-- Conjunctive normal form is negation normal form without quantifiers. -/
theorem normal_of_isConjunctive (conjunctive : f.isConjunctive = true) :
    f.isNegationNormal = true ∧ f.isQuantifierFree = true := by
  -- The form allows literals, conjunctions, and disjunctions of literals.
  induction f with
  | atom a => exact ⟨rfl, rfl⟩
  | not f _ => cases f <;> first | exact ⟨rfl, rfl⟩ | cases conjunctive
  | binary op l r left right =>
    cases op <;> simp only [isConjunctive, Bool.and_eq_true, Bool.false_eq_true] at conjunctive
    · exact normal_junction (Or.inl rfl) (left conjunctive.1) (right conjunctive.2)
    -- A disjunction in conjunctive normal form joins literals only.
    · have whole : (or l r).isDisjunction = true := by
        simp only [isDisjunction, conjunctive.1, conjunctive.2, Bool.and_self]
      exact normal_of_isDisjunction whole
  | quantified q x f _ => cases conjunctive

end Implications

end ClauseForm.Formula
