import ClauseForm.Proofs.Conjunctive
import ClauseForm.Proofs.Negation
import ClauseForm.Proofs.Prenex
import ClauseForm.Proofs.Skolemized

/-! The number of clauses of a formula can be read off before it is rewritten. -/

namespace ClauseForm.Formula

/--
How many clauses a formula has, or its negation where the sign is negative. Both sides of an
equivalence are counted with both signs, because it is written out to two implications.
-/
@[simp] def clauseCount : Bool → Formula → Nat
  | _, .atom _ => 1
  | positive, .not f => f.clauseCount (!positive)
  | true, .and l r => l.clauseCount true + r.clauseCount true
  | false, .and l r => l.clauseCount false * r.clauseCount false
  | true, .or l r => l.clauseCount true * r.clauseCount true
  | false, .or l r => l.clauseCount false + r.clauseCount false
  | true, .implies l r => l.clauseCount false * r.clauseCount true
  | false, .implies l r => l.clauseCount true + r.clauseCount false
  | true, .iff l r =>
    l.clauseCount false * r.clauseCount true + l.clauseCount true * r.clauseCount false
  | false, .iff l r =>
    (l.clauseCount true + r.clauseCount false) * (l.clauseCount false + r.clauseCount true)
  | positive, .quantified _ _ f => f.clauseCount positive

/-- How many clauses the formulas of a list have in all. -/
def clauseTotal (fs : List Formula) : Nat :=
  fs.foldr (fun f total => f.clauseCount true + total) 0

variable {f g : Formula} {positive : Bool}

/-- Writing out implications keeps the number of clauses. -/
theorem clauseCount_eliminateImplications (positive : Bool) (f : Formula) :
    f.eliminateImplications.clauseCount positive = f.clauseCount positive := by
  -- Negations that are written out change the sign.
  induction f generalizing positive with
  | atom a => rfl
  | not f ih => exact ih (!positive)
  | binary op l r left right =>
    -- Each connective is written out with either sign, and the counts of its sides are those
    -- before.
    cases op <;> cases positive <;>
      simp only [eliminateImplications, clauseCount, left, right, Bool.not_true, Bool.not_false]
  | quantified q x f ih =>
    simp only [eliminateImplications, clauseCount, ih]

/-- Moving negations inwards keeps the number of clauses. -/
theorem clauseCount_signed (positive : Bool) (f : Formula) :
    (f.signed positive).clauseCount true = f.clauseCount positive := by
  -- The sign says whether conjunctions become disjunctions.
  induction f generalizing positive with
  -- An atom counts one with either sign, negated or not.
  | atom a => cases positive <;> rfl
  | not f ih => exact ih (!positive)
  | binary op l r left right =>
    cases op <;> cases positive <;>
      simp only [signed, clauseCount, left, right, if_true, if_false, Bool.false_eq_true]
  | quantified q x f ih =>
    simp only [signed, clauseCount, ih]

/-- Formulas of one shape have equally many clauses. -/
theorem SameShape.clauseCount (same : SameShape f g) :
    f.clauseCount positive = g.clauseCount positive := by
  -- The counts follow the connectives, which are the same.
  induction same generalizing positive with
  | atom a b => cases positive <;> rfl
  | not _ ih => exact ih
  | binary op _ _ left right =>
    cases op <;> cases positive <;> simp only [Formula.clauseCount, left, right]
  | quantified q x y _ ih => simp only [Formula.clauseCount, ih]

/-- Quantifiers in front do not count. -/
theorem clauseCount_quantify (bs : List (Quantifier × Variable)) :
    (quantify bs f).clauseCount positive = f.clauseCount positive := by
  -- A quantifier has as many clauses as its scope.
  induction bs with
  | nil => rfl
  | cons b bs ih =>
    rw [quantify_cons, clauseCount, ih]

/-- Quantifiers that are left out did not count. -/
theorem clauseCount_dropBinders (dropped : Quantifier → Bool) :
    (f.dropBinders dropped).clauseCount positive = f.clauseCount positive := by
  -- A quantifier adds nothing to the count of its scope.
  induction f generalizing positive with
  | atom a => rfl
  | not f ih => exact ih
  -- A connective stays the one that it is.
  | binary op l r left right =>
    cases op <;> cases positive <;> simp only [dropBinders, clauseCount, left, right]
  | quantified q x f ih =>
    rw [dropBinders]
    split <;> simp only [clauseCount, ih]

/-- Witnesses keep the number of clauses. -/
theorem Skolemizes.clauseCount {symbols final : SymbolTable} {scope : List Variable}
    (steps : Skolemizes symbols scope f final g) :
    g.clauseCount positive = f.clauseCount positive := by
  -- Replacing a variable changes only arguments of atoms.
  induction steps with
  | existential made _ ih =>
    simp only [Formula.clauseCount]
    exact ih.trans (sameShape_substitute _ _ _).clauseCount.symm
  | universal _ ih =>
    simp only [Formula.clauseCount]
    exact ih
  | done plain => rfl

/-- A formula in front of each conjunct multiplies the number of clauses. -/
theorem clauseCount_disjoinEach (l r : Formula) :
    (l.disjoinEach r).clauseCount true = l.clauseCount true * r.clauseCount true := by
  -- Each conjunct on the right is counted with the whole left side.
  fun_induction disjoinEach l r with
  | case1 a b left right => simp only [clauseCount, left, right, Nat.mul_add]
  | case2 r single => rfl

/-- Distribution of one formula over another multiplies the number of clauses. -/
theorem clauseCount_distribute (l r : Formula) :
    (l.distribute r).clauseCount true = l.clauseCount true * r.clauseCount true := by
  -- Each conjunct on the left is treated apart, and so the counts add up to the product.
  fun_induction distribute l r with
  | case1 a b r left right => simp only [clauseCount, left, right, Nat.add_mul]
  | case2 l r single => exact clauseCount_disjoinEach l r

/-- Distribution keeps the number of clauses. -/
theorem clauseCount_toConjunctive (f : Formula) :
    f.toConjunctive.clauseCount true = f.clauseCount true := by
  -- Distribution multiplies where a disjunction counts a product.
  fun_induction toConjunctive f with
  | case1 l r left right => simp only [clauseCount, left, right]
  | case2 l r left right => simp only [clauseCount, clauseCount_distribute, left, right]
  | case3 f _ _ => rfl

/-- A disjunction of literals is one clause. -/
theorem clauseCount_of_isDisjunction (disjunction : f.isDisjunction = true) :
    f.clauseCount true = 1 := by
  -- Denials of anything but atoms, and quantifiers, are not allowed.
  induction f with
  | atom a => rfl
  | not f _ =>
    cases f with
    | atom a => rfl
    | _ => cases disjunction
  | binary op l r left right =>
    cases op <;> simp only [isDisjunction, Bool.and_eq_true, Bool.false_eq_true] at disjunction
    -- One clause on either side makes one clause.
    rw [clauseCount, left disjunction.1, right disjunction.2]
  | quantified q x f _ => cases disjunction

/-- In conjunctive normal form each conjunct is one clause. -/
theorem conjunctCount_of_isConjunctive (conjunctive : f.isConjunctive = true) :
    f.conjunctCount = f.clauseCount true := by
  -- Conjunctions add up on both sides, and what they join are disjunctions.
  fun_induction conjunctCount f with
  | case1 l r left right =>
    simp only [isConjunctive, Bool.and_eq_true] at conjunctive
    rw [clauseCount, left conjunctive.1, right conjunctive.2]
  | case2 f single =>
    -- What is no conjunction is its own only conjunct.
    have whole := isConjunctive_iff_conjuncts.mp conjunctive f
    rw [conjuncts_of_ne_and single] at whole
    exact (clauseCount_of_isDisjunction (whole (List.mem_singleton_self f))).symm

/-- Formulas in conjunctive normal form join as many conjuncts as they have clauses. -/
theorem conjunctTotal_of_isConjunctive {fs : List Formula}
    (conjunctive : ∀ f ∈ fs, f.isConjunctive = true) : conjunctTotal fs = clauseTotal fs := by
  -- Both totals run through the list in the same way.
  induction fs with
  | nil => rfl
  | cons f fs ih =>
    rw [List.forall_mem_cons] at conjunctive
    have rest := ih conjunctive.2
    simp only [conjunctTotal, clauseTotal, List.foldr_cons] at rest ⊢
    rw [rest, conjunctCount_of_isConjunctive conjunctive.1]

/-- Formulas that correspond in number of clauses have equally many in all. -/
theorem clauseTotal_eq {fs gs : List Formula}
    (same : List.Forall₂ (fun f g => g.clauseCount true = f.clauseCount true) fs gs) :
    clauseTotal gs = clauseTotal fs := by
  -- The totals agree summand by summand.
  induction same with
  | nil => rfl
  | cons first _ ih =>
    simp only [clauseTotal, List.foldr_cons] at ih ⊢
    rw [first, ih]

end ClauseForm.Formula
