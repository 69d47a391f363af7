import ClauseForm.Pipeline
import ClauseForm.Proofs.Attempts
import ClauseForm.Proofs.Conjunctive

/-! Limits decide whether distribution comes to an end, and leave what it makes as it is. -/

namespace ClauseForm

namespace Budget

variable {budget : Budget} {Place : Type} {elapsed : Place → Nat} {place : Place}

/-- Nothing is late where no deadline is set. -/
theorem isLate_untimed (untimed : budget.deadline = none) :
    budget.isLate elapsed place = false := by
  unfold isLate
  rw [untimed]

/-- The time is never refused where no deadline is set. -/
theorem checkTime_untimed (untimed : budget.deadline = none) :
    budget.checkTime elapsed place = .ok () := by
  unfold checkTime
  rw [isLate_untimed untimed]
  rfl

/-- Asking for a time that is known beforehand is a check of that time. -/
theorem askTime_pure (budget : Budget) (elapsed : Place → Nat) (place : Place) :
    (budget.askTime (pure (elapsed place) : Id Nat)).run.run = budget.checkTime elapsed place := by
  -- Where there is no deadline, the one does not ask and the other does not refuse.
  unfold askTime checkTime isLate
  cases budget.deadline with
  | none => rfl
  | some deadline => rfl

/-- A number of clauses passes just when it does not lie above the limit. -/
theorem checkCount_eq_ok {count : Nat} :
    budget.checkCount count = .ok () ↔ budget.isExceeded count = false := by
  -- The check passes a count that does not exceed the limit.
  unfold checkCount
  cases budget.isExceeded count <;> simp

/-- The check of a count never blames the time. -/
theorem checkCount_not_late {count : Nat} : budget.checkCount count ≠ .error .late := by
  -- It either passes or blames the count.
  unfold checkCount
  split <;> simp

/-- A count lies above the limit just when there is a limit and the count is larger. -/
theorem isExceeded_iff {count : Nat} :
    budget.isExceeded count = true ↔ 0 < budget.maxClauses ∧ budget.maxClauses < count := by
  simp [isExceeded]

/-- No count lies above a limit of zero, which sets none. -/
theorem isExceeded_unlimited {count : Nat} (unlimited : budget.maxClauses = 0) :
    budget.isExceeded count = false := by
  rw [← Bool.not_eq_true, isExceeded_iff]
  omega

/-- Where a count is within the limit, smaller ones are as well. -/
theorem isExceeded_mono {count more : Nat} (le : count ≤ more)
    (within : budget.isExceeded more = false) : budget.isExceeded count = false := by
  -- A smaller count above the limit would put the larger one above it too.
  rw [← Bool.not_eq_true, isExceeded_iff] at within ⊢
  omega

end Budget

namespace Formula

variable {budget : Budget} {f g : Formula} {elapsed : List Side → Nat}

/-- The sides of a conjunction are distributed at their times, and its clauses are counted then. -/
theorem toConjunctiveWithin_and (l r : Formula) :
    (Formula.and l r).toConjunctiveWithin budget elapsed = (do
      budget.checkTime elapsed []
      let l ← l.toConjunctiveWithin budget fun path => elapsed (.left :: path)
      let r ← r.toConjunctiveWithin budget fun path => elapsed (.right :: path)
      budget.checkCount (l.conjunctCount + r.conjunctCount)
      return .and l r) := by
  -- The steps are those of the recursion, the first of which is a check here.
  rw [← budget.askTime_pure]
  simp only [toConjunctiveWithin, toConjunctiveAsking, run_bind_id]
  rfl

/-- The sides of a disjunction are distributed at their times, and what it makes is counted then. -/
theorem toConjunctiveWithin_or (l r : Formula) :
    (Formula.or l r).toConjunctiveWithin budget elapsed = (do
      budget.checkTime elapsed []
      let l ← l.toConjunctiveWithin budget fun path => elapsed (.left :: path)
      let r ← r.toConjunctiveWithin budget fun path => elapsed (.right :: path)
      budget.checkCount (min (l.conjunctCount * r.conjunctCount) largestCount)
      return l.distribute r) := by
  -- It differs from a conjunction in what is counted and made.
  rw [← budget.askTime_pure]
  simp only [toConjunctiveWithin, toConjunctiveAsking, run_bind_id]
  rfl

/-- A formula that is neither a conjunction nor a disjunction is only looked at. -/
theorem toConjunctiveWithin_leaf (conjunction : ∀ l r, f ≠ .and l r)
    (disjunction : ∀ l r, f ≠ .or l r) :
    f.toConjunctiveWithin budget elapsed = (do
      budget.checkTime elapsed []
      return f) := by
  -- No other case of the recursion is left.
  rw [← budget.askTime_pure]
  unfold toConjunctiveWithin toConjunctiveAsking
  split
  · exact (conjunction _ _ rfl).elim
  · exact (disjunction _ _ rfl).elim
  · rw [run_bind_id]
    rfl

/-- Distribution within a budget makes what it makes without a limit. -/
theorem toConjunctiveWithin_ok (done : f.toConjunctiveWithin budget elapsed = .ok g) :
    g = f.toConjunctive := by
  -- A step within the budget either stops the run or goes on as without one.
  fun_induction toConjunctive f generalizing g elapsed with
  | case1 l r left right =>
    simp only [toConjunctiveWithin_and, bind_eq_ok, pure_eq_ok] at done
    obtain ⟨_, _, l', first, r', second, _, _, rfl⟩ := done
    rw [left first, right second]
  | case2 l r left right =>
    simp only [toConjunctiveWithin_or, bind_eq_ok, pure_eq_ok] at done
    obtain ⟨_, _, l', first, r', second, _, _, rfl⟩ := done
    rw [left first, right second]
  | case3 f conjunction disjunction =>
    rw [toConjunctiveWithin_leaf conjunction disjunction] at done
    obtain ⟨_, _, same⟩ := bind_eq_ok.mp done
    exact (pure_eq_ok.mp same).symm

/-- Distribution comes to an end where the clauses of the whole formula are within the limit. -/
theorem toConjunctiveWithin_untimed (untimed : budget.deadline = none)
    (within : budget.isExceeded f.toConjunctive.conjunctCount = false) :
    f.toConjunctiveWithin budget elapsed = .ok f.toConjunctive := by
  -- No part of a formula has more clauses than the whole.
  fun_induction toConjunctive f generalizing elapsed with
  | case1 l r left right =>
    have first : budget.isExceeded l.toConjunctive.conjunctCount = false :=
      Budget.isExceeded_mono (Nat.le_add_right _ _) within
    have second : budget.isExceeded r.toConjunctive.conjunctCount = false :=
      Budget.isExceeded_mono (Nat.le_add_left _ _) within
    simp only [toConjunctiveWithin_and, bind_eq_ok, pure_eq_ok]
    exact ⟨(), Budget.checkTime_untimed untimed, _, left first, _, right second, (),
      Budget.checkCount_eq_ok.mpr within, rfl⟩
  | case2 l r left right =>
    rw [conjunctCount_distribute] at within
    -- Neither side has zero clauses, so that neither makes the product smaller than the other.
    have first : budget.isExceeded l.toConjunctive.conjunctCount = false :=
      Budget.isExceeded_mono (Nat.le_mul_of_pos_right _ (conjunctCount_pos _)) within
    have second : budget.isExceeded r.toConjunctive.conjunctCount = false :=
      Budget.isExceeded_mono (Nat.le_mul_of_pos_left _ (conjunctCount_pos _)) within
    simp only [toConjunctiveWithin_or, bind_eq_ok, pure_eq_ok]
    exact ⟨(), Budget.checkTime_untimed untimed, _, left first, _, right second, (),
      Budget.checkCount_eq_ok.mpr (Budget.isExceeded_mono (Nat.min_le_left _ _) within), rfl⟩
  | case3 f conjunction disjunction =>
    rw [toConjunctiveWithin_leaf conjunction disjunction, Budget.checkTime_untimed untimed]
    rfl

/-- A node blames the time only if one of its sides does. -/
theorem node_not_late {left right : Except Overrun Formula} {count : Formula → Formula → Nat}
    {join : Formula → Formula → Formula} (untimed : budget.deadline = none)
    (first : left ≠ .error .late) (second : right ≠ .error .late) :
    (do
      budget.checkTime elapsed []
      let l ← left
      let r ← right
      budget.checkCount (count l r)
      return join l r) ≠ .error .late := by
  intro failed
  simp only [bind_eq_error, Budget.checkTime_untimed untimed] at failed
  -- The error comes from one of the five steps.
  rcases failed with time | ⟨_, _, late | ⟨_, _, late | ⟨_, _, many | ⟨_, _, last⟩⟩⟩⟩
  · cases time
  · exact first late
  · exact second late
  · exact Budget.checkCount_not_late many
  · cases last

/-- Without a deadline distribution never blames the time. -/
theorem toConjunctiveWithin_not_late (untimed : budget.deadline = none) :
    f.toConjunctiveWithin budget elapsed ≠ .error .late := by
  -- Conjunctions and disjunctions are treated in the same steps.
  fun_induction toConjunctive f generalizing elapsed with
  | case1 l r left right =>
    rw [toConjunctiveWithin_and]
    exact node_not_late untimed left right
  | case2 l r left right =>
    rw [toConjunctiveWithin_or]
    exact node_not_late untimed left right
  | case3 f conjunction disjunction =>
    rw [toConjunctiveWithin_leaf conjunction disjunction, Budget.checkTime_untimed untimed]
    intro failed
    cases failed

end Formula

namespace Progress

variable {budget : Budget} {clock : Clock} {index : Nat} {fs gs : List Formula}

/-- The formulas of a list are distributed one after the other, each at the times of its index. -/
theorem distributeAll_cons (f : Formula) (fs : List Formula) :
    distributeAll budget clock index (f :: fs) = (do
      let f ← f.toConjunctiveWithin budget (clock.entering index)
      let fs ← distributeAll budget clock (index + 1) fs
      return f :: fs) := by
  -- The first formula is distributed before the others are.
  simp only [distributeAll, distributeAllAsking, run_bind_id]
  rfl

/-- Distribution of a list within a budget makes what it makes without a limit. -/
theorem distributeAll_ok (done : distributeAll budget clock index fs = .ok gs) :
    gs = fs.map Formula.toConjunctive := by
  -- Each formula is distributed apart from the others.
  induction fs generalizing index gs with
  | nil => exact (Except.ok.inj done).symm
  | cons f fs ih =>
    simp only [distributeAll_cons, bind_eq_ok, pure_eq_ok] at done
    obtain ⟨g, first, rest, others, rfl⟩ := done
    rw [Formula.toConjunctiveWithin_ok first, ih others, List.map_cons]

/-- Distribution of a list comes to an end where its clauses are within the limit in total. -/
theorem distributeAll_untimed (untimed : budget.deadline = none)
    (within : budget.isExceeded (Formula.conjunctTotal (fs.map Formula.toConjunctive)) = false) :
    distributeAll budget clock index fs = .ok (fs.map Formula.toConjunctive) := by
  -- No formula has more clauses than the whole list.
  induction fs generalizing index with
  | nil => rfl
  | cons f fs ih =>
    have first : budget.isExceeded f.toConjunctive.conjunctCount = false :=
      Budget.isExceeded_mono (Nat.le_add_right _ _) within
    have rest : budget.isExceeded (Formula.conjunctTotal (fs.map Formula.toConjunctive)) = false :=
      Budget.isExceeded_mono (Nat.le_add_left _ _) within
    simp only [distributeAll_cons, bind_eq_ok, pure_eq_ok]
    exact ⟨_, Formula.toConjunctiveWithin_untimed untimed first, _, ih rest, rfl⟩

/-- Without a deadline the distribution of a list never blames the time. -/
theorem distributeAll_not_late (untimed : budget.deadline = none) :
    distributeAll budget clock index fs ≠ .error .late := by
  -- A list fails where one of its formulas does.
  induction fs generalizing index with
  | nil =>
    intro failed
    cases failed
  | cons f fs ih =>
    intro failed
    simp only [distributeAll_cons, bind_eq_error] at failed
    rcases failed with first | ⟨_, _, rest | ⟨_, _, last⟩⟩
    · exact Formula.toConjunctiveWithin_not_late untimed first
    · exact ih rest
    · cases last

variable {config : Config} {p p' : Progress}

/-- Where the stage of distribution succeeds, it has made formulas that are within the limit. -/
theorem exists_distributed (done : p.distribute config clock = .ok p') : ∃ fs,
    distributeAll config.budget clock 0 p.formulas = .ok fs ∧
      config.budget.isExceeded (Formula.conjunctTotal fs) = false ∧
      p' = { p with formulas := fs } := by
  -- Every way to fail leaves no result.
  unfold distribute at done
  cases made : distributeAll config.budget clock 0 p.formulas with
  | error overrun =>
    rw [made] at done
    cases done
  | ok fs =>
    rw [made] at done
    dsimp only [takeDistributed] at done
    split at done
    · cases done
    · rename_i within
      exact ⟨fs, rfl, Bool.eq_false_iff.mpr within, (Except.ok.inj done).symm⟩

/-- The stage of distribution makes conjunctive normal forms and changes nothing else. -/
theorem distribute_ok (done : p.distribute config clock = .ok p') :
    p' = { p with formulas := p.formulas.map Formula.toConjunctive } := by
  -- What has been made is known from the formulas alone.
  obtain ⟨fs, made, _, same⟩ := exists_distributed done
  rw [same, distributeAll_ok made]

/-- Where the stage of distribution succeeds, the clauses are within the limit. -/
theorem isExceeded_of_distribute (done : p.distribute config clock = .ok p') :
    config.budget.isExceeded
      (Formula.conjunctTotal (p.formulas.map Formula.toConjunctive)) = false := by
  -- The clauses that are counted in total are those of the conjunctive normal forms.
  obtain ⟨fs, made, within, _⟩ := exists_distributed done
  rwa [distributeAll_ok made] at within

/-- Settings without a timeout set no deadline. -/
theorem deadline_budget (untimed : config.timeoutMs = none) : config.budget.deadline = none := by
  -- A deadline comes from a timeout only.
  unfold Config.budget
  rw [untimed]
  rfl

/-- The stage of distribution succeeds where the clauses are within the limit. -/
theorem distribute_within (untimed : config.timeoutMs = none)
    (within : config.budget.isExceeded
      (Formula.conjunctTotal (p.formulas.map Formula.toConjunctive)) = false) :
    p.distribute config clock =
      .ok { p with formulas := p.formulas.map Formula.toConjunctive } := by
  -- Each formula has been distributed without a limit, and so has the list.
  rw [distribute, distributeAll_untimed (deadline_budget untimed) within]
  simp only [takeDistributed, within, Bool.false_eq_true, if_false]

/-- The stage of distribution fails where the clauses are more than the limit. -/
theorem distribute_exceeded (untimed : config.timeoutMs = none)
    (exceeded : config.budget.isExceeded
      (Formula.conjunctTotal (p.formulas.map Formula.toConjunctive)) = true) :
    ∃ left, p.distribute config clock = .error
      { error := .clauseLimitExceeded .distribution config.maxClauses, progress := left } := by
  -- Either some part has too many clauses already, or they are counted in the end.
  unfold distribute
  cases made : distributeAll config.budget clock 0 p.formulas with
  | error overrun =>
    cases overrun with
    | late => exact (distributeAll_not_late (deadline_budget untimed) made).elim
    | tooMany count => exact ⟨_, rfl⟩
  | ok fs =>
    rw [← distributeAll_ok made] at exceeded
    simp only [takeDistributed, exceeded, if_true]
    exact ⟨_, rfl⟩

end Progress

end ClauseForm
