import ClauseForm.Negation
import ClauseForm.Proofs.NormalForm
import ClauseForm.Proofs.Semantics

/-! Writing implications out and moving negations inwards keep the meaning of every formula. -/

namespace ClauseForm

/-- The dual of a quantifier takes the place of a negation in front of it. -/
theorem Quantifier.not_ranges {Domain : Type} (q : Quantifier) (p : Domain → Prop) :
    ¬ q.Ranges p ↔ q.dual.Ranges fun d => ¬ p d := by
  -- The dual of each quantifier comes from the law of the other one.
  cases q with
  | universal => exact not_forall
  | existential => exact not_exists

namespace Formula

/-- A formula with its implications written out means the same. -/
theorem eliminateImplications_equivalent (f : Formula) : f.eliminateImplications.Equivalent f := by
  -- Each connective is written out to others that say the same of its operands.
  intro m values
  induction f generalizing values with
  | atom a => exact Iff.rfl
  | not f ih => exact not_congr (ih values)
  | binary op l r left right =>
    have left := left values
    have right := right values
    cases op with
    | and => exact and_congr left right
    | or => exact or_congr left right
    | implies =>
      show ¬ l.eliminateImplications.Holds m values ∨ r.eliminateImplications.Holds m values ↔
        (l.Holds m values → r.Holds m values)
      rw [left, right]
      exact imp_iff_not_or.symm
    | iff =>
      -- An equivalence is written out to its two directions.
      show (¬ l.eliminateImplications.Holds m values ∨ r.eliminateImplications.Holds m values) ∧
        (l.eliminateImplications.Holds m values ∨ ¬ r.eliminateImplications.Holds m values) ↔
        (l.Holds m values ↔ r.Holds m values)
      rw [left, right, ← imp_iff_not_or, ← imp_iff_or_not]
      exact iff_iff_implies_and_implies.symm
  | quantified q x f ih => exact q.ranges_congr fun d => ih _

/-- The signed form of a formula holds when the truth of the formula is as the sign says. -/
theorem holds_signed {m : Structure} {values : Variable → m.Domain} (f : Formula)
    (positive : Bool) :
    (f.signed positive).Holds m values ↔ (f.Holds m values ↔ positive = true) := by
  -- Both signs are needed at once, because a negation changes them.
  induction f generalizing values positive with
  | atom a => cases positive <;> simp [signed, Holds]
  | not f ih =>
    rw [signed, ih]
    cases positive <;> simp [Holds]
  | binary op l r left right =>
    -- The operands are read with the signs that their places give them.
    cases op <;> cases positive <;>
      simp only [signed, Holds, Connective.Joins, left, right, iff_true, Bool.false_eq_true,
        iff_false, if_true, if_false] <;> grind
  | quantified q x f ih =>
    cases positive with
    | true => simp only [signed, if_true, Holds, ih, iff_true]
    | false =>
      simp only [signed, Bool.false_eq_true, if_false, Holds, ih, iff_false]
      exact (q.not_ranges _).symm

/-- A formula with its negations moved inwards means the same. -/
theorem pushNegation_equivalent (f : Formula) : f.pushNegation.Equivalent f := by
  -- The sign is positive at the outset.
  intro m values
  rw [pushNegation, holds_signed]
  simp

/-- Writing implications out leaves none of them. -/
theorem isImplicationFree_eliminateImplications (f : Formula) :
    f.eliminateImplications.isImplicationFree = true := by
  -- Implication and equivalence are the only connectives that are written out.
  induction f with
  | atom a => rfl
  | not f ih => exact ih
  | binary op l r left right =>
    cases op <;> simp [eliminateImplications, isImplicationFree, left, right]
  | quantified q x f ih => exact ih

/-- Signed forms are in negation normal form. -/
theorem isNegationNormal_signed (f : Formula) (positive : Bool) :
    (f.signed positive).isNegationNormal = true := by
  -- A sign is written down at atoms only.
  induction f generalizing positive with
  | atom a => cases positive <;> rfl
  | not f ih => exact ih (!positive)
  | binary op l r left right =>
    cases op <;> cases positive <;> simp [signed, isNegationNormal, left, right]
  | quantified q x f ih => exact ih positive

/-- Moving negations inwards yields negation normal form. -/
theorem isNegationNormal_pushNegation (f : Formula) : f.pushNegation.isNegationNormal = true :=
  isNegationNormal_signed f true

/-- A formula with its implications written out has the same free variables. -/
theorem mem_free_eliminateImplications {z : Variable} {f : Formula} :
    z ∈ f.eliminateImplications.freeVariables ↔ z ∈ f.freeVariables := by
  -- Operands are repeated, but never left out.
  induction f with
  | atom a => exact Iff.rfl
  | not f ih => exact ih
  | binary op l r left right =>
    cases op <;> simp [eliminateImplications, left, right]
  -- The body has the free variables that it had, and the quantifier binds the same one.
  | quantified q x f ih => simp [eliminateImplications, ih]

/-- The signed forms of a formula have the same free variables. -/
theorem mem_free_signed {z : Variable} {f : Formula} (positive : Bool) :
    z ∈ (f.signed positive).freeVariables ↔ z ∈ f.freeVariables := by
  -- Operands are repeated, but never left out.
  induction f generalizing positive with
  | atom a => cases positive <;> simp [signed]
  | not f ih => exact ih (!positive)
  | binary op l r left right =>
    cases op <;> cases positive <;> simp [signed, left, right]
  | quantified q x f ih => simp [signed, ih]

/-- Writing implications out keeps a formula known. -/
theorem Known.eliminateImplications {table : SymbolTable} {f : Formula} (known : f.Known table) :
    f.eliminateImplications.Known table := by
  -- No symbol is added.
  induction f with
  | atom a => exact known
  | not f ih => exact ih known
  | binary op l r left right =>
    have left := left known.1
    have right := right known.2
    cases op with
    | and => exact ⟨left, right⟩
    | or => exact ⟨left, right⟩
    | implies => exact ⟨left, right⟩
    | iff => exact ⟨⟨left, right⟩, left, right⟩
  | quantified q x f ih => exact ⟨known.1, ih known.2⟩

/-- Moving negations inwards keeps a formula known, whatever the sign. -/
theorem Known.signed {table : SymbolTable} {f : Formula} (known : f.Known table)
    (positive : Bool) : (f.signed positive).Known table := by
  -- No symbol is added.
  induction f generalizing positive with
  | atom a => cases positive <;> exact known
  | not f ih => exact ih known (!positive)
  | binary op l r left right =>
    have left := left known.1
    have right := right known.2
    cases op <;> cases positive <;>
      simp [Formula.signed, Formula.Known, left true, left false, right true, right false]
  | quantified q x f ih => exact ⟨known.1, ih known.2 positive⟩

/-- A formula in negation normal form is not changed. -/
theorem pushNegation_of_isNegationNormal {f : Formula} (normal : f.isNegationNormal = true) :
    f.pushNegation = f := by
  -- The sign stays positive down to the literals.
  unfold pushNegation
  induction f with
  | atom a => rfl
  -- Only atoms are negated.
  | not f _ =>
    cases f with
    | atom a => rfl
    | _ => cases normal
  | binary op l r left right =>
    cases op <;> simp only [isNegationNormal, Bool.and_eq_true, Bool.false_eq_true] at normal
    · simp only [signed, if_true, left normal.1, right normal.2]
    · simp only [signed, if_true, left normal.1, right normal.2]
  | quantified q x f ih => simp only [signed, if_true, ih normal]

/-- Formulas of one shape have signed forms of one shape. -/
theorem SameShape.signed {f g : Formula} (same : SameShape f g) (positive : Bool) :
    SameShape (f.signed positive) (g.signed positive) := by
  -- The sign is handed down the same way in both formulas.
  induction same generalizing positive with
  | atom a b =>
    cases positive with
    | true => exact .atom a b
    | false => exact .not (.atom a b)
  | not _ ih => exact ih (!positive)
  | binary op _ _ left right =>
    -- Each side occurs with one sign or with both.
    cases op <;> cases positive <;>
      simp only [Formula.signed, if_true, if_false, Bool.false_eq_true] <;>
      repeat first | exact left _ | exact right _ | apply SameShape.binary
  | quantified q x y _ ih => exact .quantified _ x y (ih positive)

end Formula

end ClauseForm
