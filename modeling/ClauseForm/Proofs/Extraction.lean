import ClauseForm.Proofs.Attempts
import ClauseForm.Proofs.Conjunctive

/-! Formulas in conjunctive normal form have clauses that say what the formulas say. -/

namespace ClauseForm

namespace Formula

section Literals

variable {f : Formula} {ls : List Literal}

/-- The literals that a formula is joined of by disjunctions, from left to right. -/
inductive JoinedOf : Formula → List Literal → Prop
  | atom (a : Atom) : JoinedOf (.atom a) [{ positive := true, atom := a }]
  | not (a : Atom) : JoinedOf (.not (.atom a)) [{ positive := false, atom := a }]
  | or {l r : Formula} {first second : List Literal} :
    JoinedOf l first → JoinedOf r second → JoinedOf (.or l r) (first ++ second)

/-- The literals found are those that the formula is joined of. -/
theorem joinedOf_of_literals (done : f.literals = .ok ls) : JoinedOf f ls := by
  -- The search follows disjunctions and ends at literals.
  fun_induction literals f generalizing ls with
  | case1 l r left right =>
    obtain ⟨first, fromLeft, rest⟩ := bind_eq_ok.mp done
    obtain ⟨second, fromRight, last⟩ := bind_eq_ok.mp rest
    obtain rfl := pure_eq_ok.mp last
    exact .or (left fromLeft) (right fromRight)
  | case2 a =>
    cases done
    exact .atom a
  | case3 a =>
    cases done
    exact .not a
  -- No other formula has literals, so that the search would have failed.
  | case4 f _ _ _ => cases done

/-- The literals that a formula is joined of are found. -/
theorem JoinedOf.literals (joined : JoinedOf f ls) : f.literals = .ok ls := by
  -- The search takes the same path as the disjunctions.
  induction joined with
  | atom a => rfl
  | not a => rfl
  | or _ _ left right =>
    rw [Formula.literals, left, right]
    rfl

/-- A formula is joined of at least one literal. -/
theorem JoinedOf.ne_nil (joined : JoinedOf f ls) : ls ≠ [] := by
  -- Any literal of the left side is one of the whole.
  induction joined with
  | atom a => exact List.cons_ne_nil _ _
  | not a => exact List.cons_ne_nil _ _
  | or _ _ left _ => exact List.append_ne_nil_of_left_ne_nil left _

/-- A disjunction of literals has literals. -/
theorem exists_literals (disjunction : f.isDisjunction = true) : ∃ ls, f.literals = .ok ls := by
  -- The shape of the formula is that of the normal form, down to the literals.
  induction f with
  | atom a => exact ⟨_, rfl⟩
  | not f _ => cases f <;> first | exact ⟨_, rfl⟩ | cases disjunction
  | binary op l r left right =>
    cases op <;> simp only [isDisjunction, Bool.and_eq_true, Bool.false_eq_true] at disjunction
    -- Only a disjunction is left.
    obtain ⟨first, fromLeft⟩ := left disjunction.1
    obtain ⟨second, fromRight⟩ := right disjunction.2
    refine ⟨first ++ second, ?_⟩
    simp only [literals, bind_eq_ok, pure_eq_ok]
    exact ⟨first, fromLeft, second, fromRight, rfl⟩
  | quantified q x f _ => cases disjunction

/-- A formula holds where one of its literals does. -/
theorem JoinedOf.holds {m : Structure} {values : Variable → m.Domain} (joined : JoinedOf f ls) :
    (Clause.mk ls).Holds m values ↔ f.Holds m values := by
  induction joined with
  -- With a single literal the clause says what that says.
  | atom a => simp [Clause.Holds, Literal.Holds, Formula.Holds]
  | not a => simp [Clause.Holds, Literal.Holds, Formula.Holds]
  | or _ _ left right =>
    -- One of the literals holds on the left or on the right.
    have sides := or_congr left right
    simp only [Clause.Holds, List.mem_append, or_and_right, exists_or] at sides ⊢
    exact sides

/-- The literals of a known formula are known. -/
theorem JoinedOf.known {table : SymbolTable} (joined : JoinedOf f ls) (known : f.Known table) :
    (Clause.mk ls).Known table := by
  -- Every literal has the atom of some leaf.
  induction joined with
  | atom a => exact List.forall_mem_singleton.mpr known
  | not a => exact List.forall_mem_singleton.mpr known
  | or _ _ left right => exact List.forall_mem_append.mpr ⟨left known.1, right known.2⟩

end Literals

section Extraction

variable {fs : List Formula} {cs : List Clause}

/-- Each clause has the literals of the conjunct that it comes from. -/
theorem forall₂_extractClauses (done : extractClauses fs = .ok cs) :
    List.Forall₂ (fun f c => JoinedOf f c.literals) (fs.flatMap conjuncts) cs := by
  -- Nothing but the literals of a conjunct goes into its clause.
  refine (mapM_ok_iff.mp done).imp fun f c made => ?_
  cases found : f.literals with
  | error operand => simp [found, Except.map] at made
  | ok ls =>
    simp only [found, Except.map, Except.ok.injEq] at made
    exact made ▸ joinedOf_of_literals found

/-- Formulas whose conjuncts are joined of the literals of clauses are taken apart into those. -/
theorem extractClauses_of_forall₂
    (joined : List.Forall₂ (fun f c => JoinedOf f c.literals) (fs.flatMap conjuncts) cs) :
    extractClauses fs = .ok cs := by
  -- What is found in a conjunct becomes the clause that it is matched with.
  refine mapM_ok_iff.mpr (joined.imp fun f c found => ?_)
  rw [found.literals]
  rfl

/-- Formulas in conjunctive normal form can be taken apart into clauses. -/
theorem exists_extractClauses (conjunctive : ∀ f ∈ fs, f.isConjunctive = true) :
    ∃ cs, extractClauses fs = .ok cs := by
  -- Every conjunct is a disjunction of literals.
  refine exists_mapM_ok fun c inside => ?_
  obtain ⟨f, listed, part⟩ := List.mem_flatMap.mp inside
  have disjunctive := isConjunctive_iff_conjuncts.mp (conjunctive f listed) c part
  obtain ⟨ls, found⟩ := exists_literals disjunctive
  exact ⟨⟨ls⟩, by rw [found]; rfl⟩

/-- The outer conjunctions of a list join what each formula of it joins. -/
theorem conjunctTotal_eq_length (fs : List Formula) :
    conjunctTotal fs = (fs.flatMap conjuncts).length := by
  -- The conjuncts of the first formula come first.
  induction fs with
  | nil => rfl
  | cons f fs ih =>
    rw [List.flatMap_cons, List.length_append, ← ih, ← conjunctCount_eq_length]
    rfl

/-- There are as many clauses as conjuncts. -/
theorem length_extractClauses (done : extractClauses fs = .ok cs) :
    cs.length = conjunctTotal fs :=
  (conjunctTotal_eq_length fs).symm ▸ (forall₂_extractClauses done).length_eq.symm

/-- Formulas hold where the conjuncts of all of them do. -/
theorem holds_flatMap_conjuncts {m : Structure} {values : Variable → m.Domain} :
    (∀ c ∈ fs.flatMap conjuncts, c.Holds m values) ↔ ∀ f ∈ fs, f.Holds m values := by
  -- Formula by formula, what the conjuncts say together is what the formula says.
  rw [List.forall_mem_flatMap]
  exact forall₂_congr fun f _ => holds_iff_conjuncts.symm

/-- Formulas hold where all their clauses do, and only there. -/
theorem holds_extractClauses {m : Structure} {values : Variable → m.Domain}
    (done : extractClauses fs = .ok cs) :
    (∀ c ∈ cs, c.Holds m values) ↔ ∀ f ∈ fs, f.Holds m values := by
  rw [← holds_flatMap_conjuncts]
  -- The conjuncts correspond to the clauses one by one.
  have made := forall₂_extractClauses done
  constructor
  · -- Each formula is vouched for by the clauses of its conjuncts.
    intro all f inside
    obtain ⟨c, listed, found⟩ := exists_of_forall₂_right made.flip inside
    exact found.holds.mp (all c listed)
  · -- Each clause is vouched for by the conjunct that it comes from.
    intro all c listed
    obtain ⟨f, inside, found⟩ := exists_of_forall₂_right made listed
    exact found.holds.mpr (all f inside)

/-- Formulas are true where all their clauses are, and only there. -/
theorem trueIn_extractClauses {m : Structure} (done : extractClauses fs = .ok cs) :
    (∀ c ∈ cs, c.TrueIn m) ↔ ∀ f ∈ fs, f.TrueIn m := by
  -- All assignments are gone through on both sides.
  constructor
  · intro all f inside values
    exact (holds_extractClauses done).mp (fun c listed => all c listed values) f inside
  · intro all c listed values
    exact (holds_extractClauses done).mpr (fun f inside => all f inside values) c listed

/-- The clauses of known formulas are known. -/
theorem known_extractClauses {table : SymbolTable} (known : ∀ f ∈ fs, f.Known table)
    (done : extractClauses fs = .ok cs) : ∀ c ∈ cs, c.Known table := by
  -- A clause has the literals of a conjunct, and a conjunct is part of a formula.
  have parts : ∀ c ∈ fs.flatMap conjuncts, c.Known table := by
    intro c inside
    obtain ⟨f, listed, part⟩ := List.mem_flatMap.mp inside
    exact known_iff_conjuncts.mp (known f listed) c part
  intro c listed
  obtain ⟨f, inside, found⟩ := exists_of_forall₂_right (forall₂_extractClauses done) listed
  exact found.known (parts f inside)

end Extraction

end Formula

end ClauseForm
