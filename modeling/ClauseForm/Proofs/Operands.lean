import ClauseForm.Error
import ClauseForm.Inspection
import ClauseForm.Proofs.Distribution

/-!
Clauses are taken out of conjunctive normal forms and of nothing else. Other formulas are refused
for their first operand that is no literal, which walks with a stack meet first as well.
-/

namespace ClauseForm.Formula

section Operands

variable {f : Formula} {fs : List Formula}

/-- The formulas that the outer disjunctions join, from left to right. -/
def disjuncts : Formula → List Formula
  | .or l r => l.disjuncts ++ r.disjuncts
  | f => [f]

/-- The formulas that the outer conjunctions and the disjunctions right below them join. -/
def operands (f : Formula) : List Formula := f.conjuncts.flatMap disjuncts

/-- Formulas that are not a disjunction are their own only disjunct. -/
theorem disjuncts_of_ne_or (single : ∀ a b, f ≠ .or a b) : f.disjuncts = [f] := by
  unfold disjuncts
  -- Only a disjunction falls apart.
  split
  · rename_i a b
    exact (single a b rfl).elim
  · rfl

/-- Disjunctions of literals join literals only. -/
theorem isDisjunction_iff_disjuncts :
    f.isDisjunction = true ↔ ∀ g ∈ f.disjuncts, g.isLiteral = true := by
  -- The recursion opens disjunctions until none is left.
  fun_induction disjuncts f with
  | case1 l r left right =>
    rw [isDisjunction, Bool.and_eq_true, left, right, List.forall_mem_append]
  | case2 f single =>
    rw [List.forall_mem_singleton]
    -- Besides disjunctions, both allow the same.
    cases f with
    | atom a => rfl
    | not f => cases f <;> rfl
    | binary op l r =>
      cases op with
      | or => exact (single l r rfl).elim
      | and => rfl
      | implies => rfl
      | iff => rfl
    | quantified q x f => rfl

/-- Conjunctive normal forms have no operands but literals. -/
theorem isConjunctive_iff_operands :
    f.isConjunctive = true ↔ ∀ g ∈ f.operands, g.isLiteral = true := by
  -- The operands are the disjuncts of all conjuncts.
  rw [isConjunctive_iff_conjuncts, operands, List.forall_mem_flatMap]
  exact forall₂_congr fun c _ => isDisjunction_iff_disjuncts

/-- The search for literals fails for the first operand of the disjunctions that is none. -/
theorem failure?_literals (f : Formula) :
    failure? f.literals = f.disjuncts.find? fun g => !g.isLiteral := by
  fun_induction literals f with
  | case1 l r left right =>
    -- The right side matters where the left one has literals only.
    rw [disjuncts, List.find?_append, ← left, ← right]
    exact failure?_bind fun first => failure?_bind_pure
  | case2 a => rfl
  | case3 a => rfl
  | case4 f disjunction affirmed denied =>
    have refused : f.isLiteral = false := by
      unfold isLiteral
      split
      · exact (affirmed _ rfl).elim
      · exact (denied _ rfl).elim
      · rfl
    rw [disjuncts_of_ne_or disjunction, List.find?_cons, refused]
    rfl

/-- Extraction fails for the first operand of the formulas that is no literal. -/
theorem failure?_extractClauses (fs : List Formula) :
    failure? (extractClauses fs) = (fs.flatMap operands).find? fun g => !g.isLiteral := by
  -- The clause of a conjunct fails where the search for its literals does.
  have each (c : Formula) : failure? (c.literals.map Clause.mk) =
      c.disjuncts.find? fun g => !g.isLiteral := by
    rw [failure?_map, failure?_literals]
  -- The conjuncts are taken one by one, and so are the disjuncts of each of them.
  simp only [extractClauses, failure?_mapM, each]
  rw [← List.find?_flatMap, List.flatMap_assoc]
  rfl

/-- Extraction succeeds where no operand of the formulas is other than a literal. -/
theorem exists_extractClauses_iff :
    (∃ cs, extractClauses fs = .ok cs) ↔ ∀ f ∈ fs, f.isConjunctive = true := by
  -- Where the search finds no operand to be refused, every formula has the form.
  rw [← failure?_eq_none_iff, failure?_extractClauses, List.find?_eq_none, List.forall_mem_flatMap]
  refine forall₂_congr fun f _ => ?_
  rw [isConjunctive_iff_operands]
  simp

/-- No clause is empty, because every conjunct is joined of some literal. -/
theorem literals_ne_nil_of_mem {cs : List Clause} (done : extractClauses fs = .ok cs) :
    ∀ c ∈ cs, c.literals ≠ [] :=
  forall_of_forall₂_right (forall₂_extractClauses done) fun _ _ _ found => found.ne_nil

end Operands

section Walks

/-- How many nodes the formulas of a stack have in all. -/
def stackSize (stack : List Formula) : Nat := stack.foldr (fun f nodes => f.size + nodes) 0

/-- A formula has at least one node. -/
theorem size_pos (f : Formula) : 0 < f.size := by
  cases f <;> simp [size]

/-- Takes the formula on top of a stack, and puts the sides of a conjunction in its place. -/
def walkConjuncts : List Formula → List Formula
  | [] => []
  | .and l r :: stack => walkConjuncts (l :: r :: stack)
  | f :: stack => f :: walkConjuncts stack
termination_by stack => stackSize stack
decreasing_by
  · simp only [stackSize, List.foldr_cons, size]
    omega
  · have := f.size_pos
    simp only [stackSize, List.foldr_cons]
    omega

/-- Takes the formula on top of a stack, and puts the sides of a disjunction in its place. -/
def walkLiterals : List Formula → List Literal → Except Formula (List Literal)
  | [], found => .ok found
  | .or l r :: stack, found => walkLiterals (l :: r :: stack) found
  | .atom a :: stack, found => walkLiterals stack (found ++ [{ positive := true, atom := a }])
  | .not (.atom a) :: stack, found =>
    walkLiterals stack (found ++ [{ positive := false, atom := a }])
  | f :: _, _ => .error f
termination_by stack _ => stackSize stack
decreasing_by
  all_goals
    simp only [stackSize, List.foldr_cons, size]
    omega

/-- One clause for each conjunct that a walk comes by, with the literals that another one finds. -/
def walkClauses (fs : List Formula) : Except Formula (List Clause) :=
  (fs.flatMap fun f => walkConjuncts [f]).mapM fun c => (walkLiterals [c] []).map Clause.mk

/-- The conjuncts of the formula on top of a stack come before those of the others. -/
theorem walkConjuncts_cons (f : Formula) (stack : List Formula) :
    walkConjuncts (f :: stack) = f.conjuncts ++ walkConjuncts stack := by
  -- The right side of a conjunction waits below the left one.
  fun_induction conjuncts f generalizing stack with
  | case1 l r left right =>
    rw [walkConjuncts, left, right, List.append_assoc]
  | case2 f single =>
    rw [walkConjuncts]
    · rfl
    · exact single

/-- The literals of the formula on top of a stack are found before those of the others. -/
theorem walkLiterals_cons (f : Formula) (stack : List Formula) (found : List Literal) :
    walkLiterals (f :: stack) found =
      f.literals >>= fun ls => walkLiterals stack (found ++ ls) := by
  -- The right side of a disjunction waits below the left one.
  fun_induction literals f generalizing stack found with
  | case1 l r left right =>
    rw [walkLiterals, left, bind_assoc]
    refine congrArg _ (funext fun first => ?_)
    rw [right, bind_assoc]
    refine congrArg _ (funext fun second => ?_)
    rw [pure_bind, List.append_assoc]
  | case2 a => rw [walkLiterals]; rfl
  | case3 a => rw [walkLiterals]; rfl
  | case4 f disjunction affirmed denied =>
    rw [walkLiterals]
    · rfl
    · exact disjunction
    · exact affirmed
    · exact denied

/-- Walks with a stack take formulas apart into the same clauses, and refuse the same operand. -/
theorem walkClauses_eq (fs : List Formula) : walkClauses fs = extractClauses fs := by
  -- Each of the two walks does what its recursion does.
  have conjunctive (f : Formula) : walkConjuncts [f] = f.conjuncts := by
    rw [walkConjuncts_cons, walkConjuncts, List.append_nil]
  have literal (c : Formula) : walkLiterals [c] [] = c.literals := by
    rw [walkLiterals_cons]
    simp only [walkLiterals, List.nil_append]
    exact bind_pure _
  simp only [walkClauses, extractClauses, conjunctive, literal]

end Walks

/--
Clauses can be taken out of formulas just if all of these are in conjunctive normal form. Then there
are as many as the formulas have conjuncts, none of them is empty, and they say together what the
formulas say together. Otherwise the first operand that is no literal is refused, with its text.
Walks with a stack do the same.
-/
theorem extractClauses_exact (fs : List Formula) :
    ((∃ cs, extractClauses fs = .ok cs) ↔ ∀ f ∈ fs, f.isConjunctive = true) ∧
    (∀ cs, extractClauses fs = .ok cs →
      cs.length = conjunctTotal fs ∧ (∀ c ∈ cs, c.literals ≠ []) ∧
      ∀ (m : Structure) (values : Variable → m.Domain),
        (∀ c ∈ cs, c.Holds m values) ↔ ∀ f ∈ fs, f.Holds m values) ∧
    (¬ (∀ f ∈ fs, f.isConjunctive = true) →
      ∃ before operand after, fs.flatMap operands = before ++ operand :: after ∧
        (∀ g ∈ before, g.isLiteral = true) ∧ operand.isLiteral = false ∧
        extractClauses fs = .error operand ∧
        (extractClauses fs).mapError (fun g => Error.notClausal g.inspect) =
          .error (.notClausal operand.inspect)) ∧
    walkClauses fs = extractClauses fs := by
  refine ⟨exists_extractClauses_iff, fun cs done => ⟨length_extractClauses done,
    literals_ne_nil_of_mem done, fun m values => holds_extractClauses done⟩, fun other => ?_,
    walkClauses_eq fs⟩
  -- Where there are no clauses, there is an operand that extraction has failed for.
  rw [← exists_extractClauses_iff, ← failure?_eq_none_iff, failure?_extractClauses] at other
  obtain ⟨operand, first⟩ := Option.ne_none_iff_exists'.mp other
  have failed := failure?_eq_some_iff.mp ((failure?_extractClauses fs).trans first)
  obtain ⟨refused, before, after, parts, literal⟩ := List.find?_eq_some_iff_append.mp first
  refine ⟨before, operand, after, parts, fun g listed => ?_, ?_, failed, ?_⟩
  · -- What comes before the first one that is found is not looked for.
    simpa using literal g listed
  · -- The operand is no literal, as it was looked for.
    simpa using refused
  · -- Its text is that of the error.
    rw [failed]
    rfl

/-- Of a conjunction below a disjunction and a double negation behind it, the former is refused. -/
example : extractClauses [.atom (proposition 0),
      .and (.or (.atom (proposition 1)) (.and (.atom (proposition 0)) (.atom (proposition 1))))
        (.not (.not (.atom (proposition 0))))] =
    .error (.and (.atom (proposition 0)) (.atom (proposition 1))) := by rfl

end ClauseForm.Formula
