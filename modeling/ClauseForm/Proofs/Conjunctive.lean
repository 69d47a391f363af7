import ClauseForm.Conjunctive
import ClauseForm.Extraction
import ClauseForm.Proofs.NormalForm
import ClauseForm.Proofs.Semantics

/-! A formula says what its conjuncts say together, and distribution multiplies conjuncts. -/

namespace ClauseForm

namespace Formula

section Conjuncts

variable {f l r : Formula}

/-- Formulas that are not a conjunction are their own only conjunct. -/
theorem conjuncts_of_ne_and (single : ∀ a b, f ≠ .and a b) : f.conjuncts = [f] := by
  -- Only conjunctions fall apart.
  unfold conjuncts
  split
  · rename_i a b
    exact (single a b rfl).elim
  · rfl

/-- The number of conjuncts is what is counted. -/
theorem conjunctCount_eq_length (f : Formula) : f.conjunctCount = f.conjuncts.length := by
  -- Both functions pass through conjunctions and stop elsewhere.
  fun_induction conjuncts f with
  | case1 l r left right => simp only [conjunctCount, left, right, List.length_append]
  | case2 f single =>
    -- Elsewhere there is one conjunct, and one is counted.
    unfold conjunctCount
    split
    · rename_i a b
      exact (single a b rfl).elim
    · rfl

/-- A formula has at least one conjunct. -/
theorem conjunctCount_pos (f : Formula) : 0 < f.conjunctCount := by
  -- There is one conjunct at least on either side of a conjunction.
  fun_induction conjunctCount f with
  | case1 l r left right => omega
  | case2 f single => omega

/-- A formula holds where all its conjuncts do. -/
theorem holds_iff_conjuncts {m : Structure} {values : Variable → m.Domain} :
    f.Holds m values ↔ ∀ c ∈ f.conjuncts, c.Holds m values := by
  -- A conjunction holds where both of its sides do.
  fun_induction conjuncts f with
  | case1 l r left right =>
    show l.Holds m values ∧ r.Holds m values ↔ _
    rw [left, right, List.forall_mem_append]
  | case2 f single => rw [List.forall_mem_singleton]

/-- Conjunctive normal form means that all conjuncts are disjunctions of literals. -/
theorem isConjunctive_iff_conjuncts :
    f.isConjunctive = true ↔ ∀ c ∈ f.conjuncts, c.isDisjunction = true := by
  -- Either side of a conjunction has its conjuncts, and the normal form asks for both sides.
  fun_induction conjuncts f with
  | case1 l r left right =>
    rw [isConjunctive, Bool.and_eq_true, left, right, List.forall_mem_append]
  | case2 f single =>
    rw [List.forall_mem_singleton]
    -- Besides conjunctions, the two forms allow the same.
    cases f with
    | atom a => rfl
    | not f => cases f <;> rfl
    | binary op l r =>
      cases op with
      | and => exact (single l r rfl).elim
      | or => rfl
      | implies => rfl
      | iff => rfl
    | quantified q x f => rfl

/-- The symbols of a formula are those of its conjuncts. -/
theorem known_iff_conjuncts {table : SymbolTable} :
    f.Known table ↔ ∀ c ∈ f.conjuncts, c.Known table := by
  -- A conjunction has the symbols of both sides.
  fun_induction conjuncts f with
  | case1 l r left right =>
    show l.Known table ∧ r.Known table ↔ _
    rw [left, right, List.forall_mem_append]
  | case2 f single => rw [List.forall_mem_singleton]

/-- A formula in front of another one stands in front of each conjunct. -/
theorem conjuncts_disjoinEach (l r : Formula) :
    (l.disjoinEach r).conjuncts = r.conjuncts.map (.or l) := by
  -- The formula is put in front on both sides of a conjunction, and on to its conjuncts.
  fun_induction disjoinEach l r with
  | case1 a b left right => simp only [conjuncts, left, right, List.map_append]
  | case2 r single => rw [conjuncts_of_ne_and single, conjuncts, List.map_singleton]; simp

/-- Distribution joins each conjunct on the left with each one on the right. -/
theorem conjuncts_distribute (l r : Formula) :
    (l.distribute r).conjuncts = l.conjuncts.flatMap fun a => r.conjuncts.map (.or a) := by
  -- The conjuncts on the left are taken one by one.
  fun_induction distribute l r with
  | case1 a b r left right => simp only [conjuncts, left, right, List.flatMap_append]
  | case2 l r single =>
    rw [conjuncts_disjoinEach, conjuncts_of_ne_and single, List.flatMap_singleton]

/-- What a disjunction is distributed to has the product of the counts of its sides. -/
theorem conjunctCount_distribute (l r : Formula) :
    (l.distribute r).conjunctCount = l.conjunctCount * r.conjunctCount := by
  -- Every conjunct on the left meets all those on the right.
  simp only [conjunctCount_eq_length, conjuncts_distribute, List.length_flatMap, List.length_map,
    List.map_const', List.sum_replicate_nat]

/-- The conjuncts of a distributed disjunction are pairs of conjuncts. -/
theorem mem_conjuncts_distribute {c : Formula} :
    c ∈ (l.distribute r).conjuncts ↔ ∃ a ∈ l.conjuncts, ∃ b ∈ r.conjuncts, .or a b = c := by
  -- The pairs are those of the list of conjuncts.
  simp only [conjuncts_distribute, List.mem_flatMap, List.mem_map]

/-- Distribution says what the disjunction says. -/
theorem holds_distribute {m : Structure} {values : Variable → m.Domain} :
    (l.distribute r).Holds m values ↔ l.Holds m values ∨ r.Holds m values := by
  -- What holds is decided by the conjuncts, which are pairs.
  rw [holds_iff_conjuncts, holds_iff_conjuncts (f := l), holds_iff_conjuncts (f := r)]
  simp only [mem_conjuncts_distribute]
  constructor
  · -- If a conjunct on either side failed, so would the pair of the two.
    intro pairs
    by_contra neither
    push Not at neither
    obtain ⟨⟨a, inLeft, first⟩, b, inRight, second⟩ := neither
    exact (pairs _ ⟨a, inLeft, b, inRight, rfl⟩).elim first second
  · -- If either side holds, so does one half of every pair.
    rintro (left | right) c ⟨a, inLeft, b, inRight, rfl⟩
    · exact Or.inl (left a inLeft)
    · exact Or.inr (right b inRight)

end Conjuncts

section Conversion

variable {f : Formula}

/-- Conjunctive normal form says what the formula says. -/
theorem toConjunctive_equivalent (f : Formula) : f.toConjunctive.Equivalent f := by
  -- Both sides are converted before they are joined.
  intro m values
  fun_induction toConjunctive f with
  | case1 l r left right => exact and_congr left right
  -- Distribution keeps what the disjunction of the converted sides says.
  | case2 l r left right => rw [holds_distribute, left, right]; rfl
  | case3 f _ _ => rfl

/-- Distribution brings negation normal forms without quantifiers into conjunctive normal form. -/
theorem isConjunctive_toConjunctive (normal : f.isNegationNormal = true)
    (free : f.isQuantifierFree = true) : f.toConjunctive.isConjunctive = true := by
  -- Only conjunctions and disjunctions are converted, and their sides are of the same forms.
  rw [isQuantifierFree, Bool.not_eq_true'] at free
  fun_induction toConjunctive f with
  | case1 l r left right =>
    simp only [isNegationNormal, Bool.and_eq_true] at normal
    simp only [hasQuantifier, Bool.or_eq_false_iff] at free
    simp only [isConjunctive, left normal.1 free.1, right normal.2 free.2, Bool.and_self]
  | case2 l r left right =>
    simp only [isNegationNormal, Bool.and_eq_true] at normal
    simp only [hasQuantifier, Bool.or_eq_false_iff] at free
    -- Each pair of conjuncts is a disjunction of literals.
    have first := isConjunctive_iff_conjuncts.mp (left normal.1 free.1)
    have second := isConjunctive_iff_conjuncts.mp (right normal.2 free.2)
    refine isConjunctive_iff_conjuncts.mpr fun c inside => ?_
    obtain ⟨a, inLeft, b, inRight, rfl⟩ := mem_conjuncts_distribute.mp inside
    simp only [isDisjunction, first a inLeft, second b inRight, Bool.and_self]
  | case3 f conjunction disjunction =>
    -- Only literals are left.
    obtain ⟨a, rfl | rfl⟩ := literal_of_isNegationNormal normal free conjunction disjunction
    · rfl
    · rfl

/-- Distribution brings in no symbol. -/
theorem Known.toConjunctive {table : SymbolTable} (known : f.Known table) :
    f.toConjunctive.Known table := by
  -- A pair of conjuncts has the symbols of both.
  fun_induction Formula.toConjunctive f with
  | case1 l r left right => exact ⟨left known.1, right known.2⟩
  | case2 l r left right =>
    have first := known_iff_conjuncts.mp (left known.1)
    have second := known_iff_conjuncts.mp (right known.2)
    refine known_iff_conjuncts.mpr fun c inside => ?_
    obtain ⟨a, inLeft, b, inRight, rfl⟩ := mem_conjuncts_distribute.mp inside
    exact ⟨first a inLeft, second b inRight⟩
  | case3 f _ _ => exact known

end Conversion

end Formula

end ClauseForm
