import ClauseForm.Proofs.Extraction

/-!
Distribution computes the ordered cross product of clauses, leaves no conjunction below a
disjunction, and yields conjunctive normal form just where it is due.
-/

namespace ClauseForm

namespace Formula

section CrossProduct

variable {f : Formula} {fs : List Formula}

/--
Clauses of a negation normal form without quantifiers, as lists of literals. Those of a disjunction
join each one on the left with each one on the right, the former in the outer order.
-/
def crossClauses : Formula → List (List Literal)
  | .atom a => [[{ positive := true, atom := a }]]
  | .not (.atom a) => [[{ positive := false, atom := a }]]
  | .and l r => l.crossClauses ++ r.crossClauses
  | .or l r => l.crossClauses.flatMap fun c => r.crossClauses.map fun d => c ++ d
  -- All other formulas are no such normal form.
  | _ => []

/-- The conjuncts of what a formula is distributed to are joined of its clauses, one by one. -/
theorem forall₂_crossClauses (normal : f.isNegationNormal = true)
    (free : f.isQuantifierFree = true) :
    List.Forall₂ JoinedOf f.toConjunctive.conjuncts f.crossClauses := by
  -- The forms are passed to both sides of a connective.
  rw [isQuantifierFree, Bool.not_eq_true'] at free
  fun_induction toConjunctive f with
  | case1 l r left right =>
    simp only [isNegationNormal, Bool.and_eq_true] at normal
    simp only [hasQuantifier, Bool.or_eq_false_iff] at free
    exact List.rel_append (left normal.1 free.1) (right normal.2 free.2)
  | case2 l r left right =>
    simp only [isNegationNormal, Bool.and_eq_true] at normal
    simp only [hasQuantifier, Bool.or_eq_false_iff] at free
    have first := left normal.1 free.1
    have second := right normal.2 free.2
    -- Pairs of conjuncts come in the order in which pairs of clauses do.
    rw [conjuncts_distribute, crossClauses]
    refine List.rel_flatMap first fun a c joined => ?_
    rw [List.forall₂_map_left_iff, List.forall₂_map_right_iff]
    exact second.imp fun b d other => .or joined other
  | case3 f conjunction disjunction =>
    -- Only literals are left.
    obtain ⟨a, rfl | rfl⟩ := literal_of_isNegationNormal normal free conjunction disjunction
    · exact .cons (.atom a) .nil
    · exact .cons (.not a) .nil

/--
Distributing negation normal forms without quantifiers and taking them apart computes the ordered
cross product of each of them, one after the other. No clause is empty.
-/
theorem extractClauses_crossClauses
    (normal : ∀ f ∈ fs, f.isNegationNormal = true ∧ f.isQuantifierFree = true) :
    extractClauses (fs.map toConjunctive) = .ok ((fs.flatMap crossClauses).map Clause.mk) ∧
      ∀ c ∈ fs.flatMap crossClauses, c ≠ [] := by
  have joined : List.Forall₂ JoinedOf ((fs.map toConjunctive).flatMap conjuncts)
      (fs.flatMap crossClauses) := by
    -- The conjuncts of each formula come together, and so do its clauses.
    have each : List.Forall₂
        (fun f g => List.Forall₂ JoinedOf f.toConjunctive.conjuncts g.crossClauses) fs fs :=
      List.forall₂_same.mpr fun f listed =>
        forall₂_crossClauses (normal f listed).1 (normal f listed).2
    rw [List.flatMap_map]
    exact List.rel_flatMap each fun _ _ joined => joined
  constructor
  · exact extractClauses_of_forall₂ (List.forall₂_map_right_iff.mpr joined)
  · exact forall_of_forall₂_right joined fun f _ c found => found.ne_nil

/-- An atom without arguments. -/
def proposition (id : Nat) : Atom := { predicate := { id, arity := 0 }, args := [] }

/-- A disjunction of conjunctions, one side of which negates what the other side says. -/
def dilemma : Formula :=
  .or (.and (.atom (proposition 0)) (.atom (proposition 1)))
    (.and (.not (.atom (proposition 0))) (.atom (proposition 1)))

/-- Two conjunctions have four clauses in order, one always true and one with a literal twice. -/
theorem extractClauses_crossClauses_dilemma :
    extractClauses ([dilemma, .atom (proposition 1)].map toConjunctive) = .ok
      [⟨[⟨true, proposition 0⟩, ⟨false, proposition 0⟩]⟩,
        ⟨[⟨true, proposition 0⟩, ⟨true, proposition 1⟩]⟩,
        ⟨[⟨true, proposition 1⟩, ⟨false, proposition 0⟩]⟩,
        ⟨[⟨true, proposition 1⟩, ⟨true, proposition 1⟩]⟩,
        ⟨[⟨true, proposition 1⟩]⟩] := by
  -- Both formulas are in the normal form that is asked for.
  have normal : ∀ f ∈ [dilemma, .atom (proposition 1)],
      f.isNegationNormal = true ∧ f.isQuantifierFree = true := by decide
  exact (extractClauses_crossClauses normal).1

end CrossProduct

section Joints

variable {f l r : Formula}

/-- The formula and all parts reached from it through conjunctions and disjunctions only. -/
def joints : Formula → List Formula
  | .and l r => .and l r :: (l.joints ++ r.joints)
  | .or l r => .or l r :: (l.joints ++ r.joints)
  | f => [f]

/-- A formula that joins nothing reaches no other. -/
theorem joints_of_ne (conjunction : ∀ l r, f ≠ .and l r) (disjunction : ∀ l r, f ≠ .or l r) :
    f.joints = [f] := by
  -- Only what is a conjunction or a disjunction reaches its sides.
  unfold joints
  split
  · exact (conjunction _ _ rfl).elim
  · exact (disjunction _ _ rfl).elim
  · rfl

/-- Every formula reaches itself. -/
theorem mem_joints_self (f : Formula) : f ∈ f.joints := by
  fun_cases joints f <;> exact List.mem_cons_self

/-- What is reached from a part that is reached is reached from the whole. -/
theorem joints_subset {g : Formula} (listed : g ∈ f.joints) : g.joints ⊆ f.joints := by
  fun_induction joints f with
  | case1 a b left right | case2 a b left right =>
    -- A part below is reached through one of the sides, and so is all that it reaches.
    rcases List.mem_cons.mp listed with rfl | below
    · exact List.Subset.refl _
    · intro p inside
      rcases List.mem_append.mp below with inLeft | inRight
      · exact List.mem_cons_of_mem _ (List.mem_append_left _ (left inLeft inside))
      · exact List.mem_cons_of_mem _ (List.mem_append_right _ (right inRight inside))
  | case3 f conjunction disjunction =>
    -- What joins nothing reaches itself alone.
    obtain rfl := List.mem_singleton.mp listed
    rw [joints_of_ne conjunction disjunction]
    exact List.Subset.refl _

/-- A disjunction that is reached from a formula is reached from one of its conjuncts. -/
theorem exists_conjunct_of_mem_joints (listed : .or l r ∈ f.joints) :
    ∃ c ∈ f.conjuncts, .or l r ∈ c.joints := by
  fun_induction conjuncts f with
  | case1 a b left right =>
    -- The disjunction is not this conjunction, so it is reached from a side.
    rcases List.mem_cons.mp listed with same | below
    · cases same
    · rcases List.mem_append.mp below with inLeft | inRight
      · obtain ⟨c, part, reached⟩ := left inLeft
        exact ⟨c, List.mem_append_left _ part, reached⟩
      · obtain ⟨c, part, reached⟩ := right inRight
        exact ⟨c, List.mem_append_right _ part, reached⟩
  | case2 f single => exact ⟨f, List.mem_singleton_self f, listed⟩

/-- No conjunct of what a formula is distributed to reaches a conjunction. -/
theorem and_not_mem_joints {c : Formula} (listed : c ∈ f.toConjunctive.conjuncts) :
    .and l r ∉ c.joints := by
  fun_induction toConjunctive f generalizing c with
  | case1 a b left right => exact (List.mem_append.mp listed).elim left right
  | case2 a b left right =>
    -- A pair of conjuncts reaches what both of them do, besides itself.
    obtain ⟨p, inLeft, q, inRight, rfl⟩ := mem_conjuncts_distribute.mp listed
    intro reached
    rcases List.mem_cons.mp reached with same | below
    · cases same
    · exact (List.mem_append.mp below).elim (left inLeft) (right inRight)
  -- Neither a conjunction nor a disjunction is left, so that only the formula itself is reached.
  | case3 f conjunction disjunction =>
    rw [conjuncts_of_ne_and conjunction, List.mem_singleton] at listed
    rw [listed, joints_of_ne conjunction disjunction, List.mem_singleton]
    exact fun same => conjunction l r same.symm

/-- A disjunction that is reached from what a formula is distributed to joins no conjunction. -/
theorem ne_and_of_mem_joints (listed : .or l r ∈ f.toConjunctive.joints) (a b : Formula) :
    l ≠ .and a b ∧ r ≠ .and a b := by
  -- The disjunction is reached from one conjunct, together with its sides.
  obtain ⟨c, part, reached⟩ := exists_conjunct_of_mem_joints listed
  have below := joints_subset reached
  have sides : l ∈ (or l r).joints ∧ r ∈ (or l r).joints := by simp [joints, mem_joints_self]
  -- Both sides are reached from a conjunct, which reaches no conjunction.
  constructor
  · rintro rfl
    exact and_not_mem_joints part (below sides.1)
  · rintro rfl
    exact and_not_mem_joints part (below sides.2)

end Joints

section Domain

variable {f l r : Formula}

/-- Every formula has a conjunct. -/
theorem exists_conjunct (f : Formula) : ∃ c, c ∈ f.conjuncts :=
  List.exists_mem_of_length_pos (f.conjunctCount_eq_length ▸ f.conjunctCount_pos)

/-- A disjunction is distributed to conjunctive normal form only if both sides are in that form. -/
theorem isConjunctive_distribute (conjunctive : (l.distribute r).isConjunctive = true) :
    l.isConjunctive = true ∧ r.isConjunctive = true := by
  -- Each conjunct on the left is paired with each conjunct on the right.
  have pairs : ∀ a ∈ l.conjuncts, ∀ b ∈ r.conjuncts,
      a.isDisjunction = true ∧ b.isDisjunction = true := by
    intro a inLeft b inRight
    have pair := isConjunctive_iff_conjuncts.mp conjunctive (.or a b)
      (mem_conjuncts_distribute.mpr ⟨a, inLeft, b, inRight, rfl⟩)
    exact (Bool.and_eq_true _ _).mp pair
  -- Each side has some conjunct for those of the other one to be paired with.
  obtain ⟨a, inLeft⟩ := l.exists_conjunct
  obtain ⟨b, inRight⟩ := r.exists_conjunct
  constructor
  · exact isConjunctive_iff_conjuncts.mpr fun c part => (pairs c part b inRight).1
  · exact isConjunctive_iff_conjuncts.mpr fun c part => (pairs a inLeft c part).2

/-- Only negation normal forms without quantifiers are distributed to conjunctive normal form. -/
theorem normal_of_isConjunctive_toConjunctive (conjunctive : f.toConjunctive.isConjunctive = true) :
    f.isNegationNormal = true ∧ f.isQuantifierFree = true := by
  fun_induction toConjunctive f with
  | case1 l r left right =>
    -- A conjunction in normal form joins sides that are in normal form.
    obtain ⟨first, second⟩ := (Bool.and_eq_true _ _).mp conjunctive
    exact normal_junction (Or.inl rfl) (left first) (right second)
  | case2 l r left right =>
    -- A disjunction in normal form has been distributed from sides in normal form.
    obtain ⟨first, second⟩ := isConjunctive_distribute conjunctive
    exact normal_junction (Or.inr rfl) (left first) (right second)
  | case3 f _ _ => exact normal_of_isConjunctive conjunctive

/--
Distribution keeps the meaning of every formula. In what it makes, no disjunction that is reached
from the root through conjunctions and disjunctions only has a conjunction as a side. It makes a
conjunctive normal form just of negation normal forms without quantifiers.
-/
theorem toConjunctive_exact (f : Formula) :
    f.toConjunctive.Equivalent f ∧
    (∀ l r, .or l r ∈ f.toConjunctive.joints → ∀ a b, l ≠ .and a b ∧ r ≠ .and a b) ∧
    (f.toConjunctive.isConjunctive = true ↔
      f.isNegationNormal = true ∧ f.isQuantifierFree = true) := by
  refine ⟨toConjunctive_equivalent f, fun l r => ne_and_of_mem_joints, ?_⟩
  -- One direction takes the normal form apart, and the other one builds it up.
  constructor
  · exact normal_of_isConjunctive_toConjunctive
  · rintro ⟨normal, free⟩
    exact isConjunctive_toConjunctive normal free

end Domain

end Formula

end ClauseForm
