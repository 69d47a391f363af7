import ClauseForm.Proofs.Alpha
import ClauseForm.Proofs.Soundness

/-! Putting a term in place of a variable gives that variable the value of the term. -/

namespace ClauseForm.Formula

section Replacing

variable {x z : Variable} {t : Term} {f : Formula}

/-- What is free once a term that nothing captures has taken the place of a variable. -/
theorem mem_free_substitute_iff (apart : ∀ y ∈ t.vars, y ∉ f.boundVariables) :
    z ∈ (f.substitute x t).freeVariables ↔
      z ∈ f.freeVariables ∧ z ≠ x ∨ x ∈ f.freeVariables ∧ z ∈ t.vars := by
  -- The induction follows the recursion of the replacement, which stops at quantifiers over `x`.
  induction f with
  | atom a =>
    simp only [substitute, mem_free_atom]
    exact Atom.mem_vars_substitute
  | not f ih => exact ih apart
  | binary op l r left right =>
    simp only [bound_binary, List.mem_append, not_or] at apart
    have one := left fun y inside => (apart y inside).1
    have two := right fun y inside => (apart y inside).2
    simp only [substitute, mem_free_binary, one, two]
    rw [or_or_or_comm, ← or_and_right, ← or_and_right]
  | quantified q y f ih =>
    simp only [bound_quantified, List.mem_cons, not_or] at apart
    by_cases same : y = x
    · -- The variable is bound here, so that it is not free in the whole.
      subst same
      simp [substitute]
    · have below := ih fun w inside => (apart w inside).2
      simp only [substitute, mem_free_quantified, if_neg same, below]
      rw [or_and_right]
      refine or_congr and_right_comm ⟨?_, ?_⟩
      · rintro ⟨⟨free, inside⟩, _⟩
        exact ⟨⟨free, Ne.symm same⟩, inside⟩
      · -- The quantifier binds no variable of the term.
        rintro ⟨⟨free, _⟩, inside⟩
        exact ⟨⟨free, inside⟩, (apart z inside).1⟩

/--
Where no quantifier binds a variable of a term, putting the term in place of a variable is giving
the variable the value of the term. The variables of the term become free with it, and no quantifier
changes. A quantifier may change its variable for one that is neither free nor bound in its scope.
-/
theorem substitute_assigns :
    (∀ (f : Formula) (x : Variable) (t : Term), (∀ y ∈ t.vars, y ∉ f.boundVariables) →
      (∀ (m : Structure) (values : Variable → m.Domain),
        (f.substitute x t).Holds m values ↔ f.Holds m (assign values x (t.value m values))) ∧
      (∀ z, z ∈ (f.substitute x t).freeVariables ↔
        z ∈ f.freeVariables ∧ z ≠ x ∨ x ∈ f.freeVariables ∧ z ∈ t.vars) ∧
      (f.substitute x t).binders = f.binders) ∧
    ∀ (q : Quantifier) (x y : Variable) (f : Formula),
      y ∉ f.freeVariables → y ∉ f.boundVariables →
      (∀ (m : Structure) (values : Variable → m.Domain),
        ((quantified q x f).renameBound y).Holds m values ↔ (quantified q x f).Holds m values) ∧
      ∀ z, z ∈ ((quantified q x f).renameBound y).freeVariables ↔
        z ∈ (quantified q x f).freeVariables := by
  constructor
  · intro f x t apart
    refine ⟨fun m values => holds_substitute apart, fun z => ?_, binders_substitute x t f⟩
    exact mem_free_substitute_iff apart
  · intro q x y f unfree unbound
    -- Changing the variable of one quantifier is a step between formulas that differ in these only.
    have alpha : AlphaEquivalent (fun _ => true) (quantified q x f) _ :=
      .renameBound x rfl unfree unbound
    exact ⟨fun m values => (alpha.equivalent m values).symm, fun z => alpha.free.symm⟩

-- A term with a variable that is bound would be captured: nothing is free any more.
example : ((quantified .existential ⟨1⟩ (less ⟨0⟩ ⟨1⟩)).substitute ⟨0⟩ (.var ⟨1⟩)).freeVariables =
    [] := by
  decide

end Replacing

section Shadowing

/-- Every element has one above it, for variables that also occur elsewhere. -/
def exceeded : Formula :=
  .quantified .universal ⟨0⟩ (.quantified .existential ⟨2⟩ (less ⟨0⟩ ⟨2⟩))

/-- One variable is above the other, and the same variable is bound beside that. -/
def shadowed : Formula := .and (less ⟨1⟩ ⟨0⟩) exceeded

/-- What comes after the other variable. -/
def afterOther : Term := .app { id := 0, arity := 1 } [.var ⟨1⟩]

/-- Every number has one above it. -/
theorem holds_exceeded (values : Variable → Nat) : exceeded.Holds naturals values := by
  intro (d : Nat)
  -- The next number is above.
  refine ⟨d + 1, ?_⟩
  show [d, d + 1].Pairwise (· < ·)
  simp

/-- The free variable gives way to what comes after the other one, and the bound one stays. -/
theorem substitute_assigns_shadowed :
    (∀ values : Variable → Nat, (shadowed.substitute ⟨0⟩ afterOther).Holds naturals values) ∧
    (∀ z, z ∈ (shadowed.substitute ⟨0⟩ afterOther).freeVariables ↔ z = ⟨1⟩) ∧
    (shadowed.substitute ⟨0⟩ afterOther).binders = exceeded.binders ∧
    ∀ values : Variable → Nat, (exceeded.renameBound ⟨1⟩).Holds naturals values := by
  -- The term does not have the variable that is bound.
  obtain ⟨replaced, renamed⟩ := substitute_assigns
  obtain ⟨truth, free, binders⟩ := replaced shadowed ⟨0⟩ afterOther (by decide)
  refine ⟨fun values => (truth naturals values).mpr ⟨?_, holds_exceeded _⟩, fun z => ?_, binders,
    fun values => ?_⟩
  · -- A number is below the one that comes after it.
    show [values ⟨1⟩, [values ⟨1⟩].foldr (· + ·) 1].Pairwise (· < ·)
    simp
  · have before : shadowed.freeVariables = [⟨1⟩, ⟨0⟩] := by decide
    have part : afterOther.vars = [⟨1⟩] := by decide
    rw [free z, before, part]
    by_cases same : z = ⟨0⟩
    · simp [same]
    · simp [same]
  · -- The other variable does not occur below the quantifier at all.
    have same := (renamed .universal ⟨0⟩ ⟨1⟩ (.quantified .existential ⟨2⟩ (less ⟨0⟩ ⟨2⟩))
      (by decide) (by decide)).1 naturals values
    exact same.mpr (holds_exceeded values)

end Shadowing

end ClauseForm.Formula
