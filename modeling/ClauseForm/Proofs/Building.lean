import ClauseForm.Proofs.Distribution
import ClauseForm.Proofs.Limits

/-!
Distribution within a budget makes what it makes without one or fails, and builds nothing that lies
above the limit on its way, whether it comes to an end or not.
-/

namespace ClauseForm

/-- A computation that may exceed a budget, and the formulas that it has built when it ends. -/
structure Building (α : Type) where
  built : List Formula
  result : Except Overrun α

namespace Building

variable {α β : Type}

/-- Goes on with a result if there is one. What has been built stays so in any case. -/
def andThen (first : Building α) (next : α → Building β) : Building β :=
  match first.result with
  | .ok a => { built := first.built ++ (next a).built, result := (next a).result }
  | .error overrun => { built := first.built, result := .error overrun }

instance : Monad Building where
  pure a := { built := [], result := .ok a }
  bind := andThen

/-- A check, for which nothing is built. -/
def check (checked : Except Overrun Unit) : Building Unit := { built := [], result := checked }

/-- A formula, and all that is built in order to make it. -/
def make (f : Formula) (built : List Formula) : Building Formula := { built, result := .ok f }

/-- What is returned is the result. -/
@[simp] theorem result_pure (a : α) : (pure a : Building α).result = .ok a := rfl

/-- Nothing is built by returning something. -/
@[simp] theorem built_pure (a : α) : (pure a : Building α).built = [] := rfl

/-- A check passes or fails as it is. -/
@[simp] theorem result_check (checked : Except Overrun Unit) : (check checked).result = checked :=
  rfl

/-- Nothing is built by a check. -/
@[simp] theorem built_check (checked : Except Overrun Unit) : (check checked).built = [] := rfl

/-- The formula that is made is the result. -/
@[simp] theorem result_make (f : Formula) (built : List Formula) :
    (make f built).result = .ok f := rfl

/-- All that is built to make a formula is on record. -/
@[simp] theorem built_make (f : Formula) (built : List Formula) :
    (make f built).built = built := rfl

/-- The results of two steps are those of the steps without a record. -/
@[simp] theorem result_bind (first : Building α) (next : α → Building β) :
    (first >>= next).result = first.result >>= fun a => (next a).result := by
  -- The record is not looked at in order to go on.
  show (first.andThen next).result = _
  unfold andThen
  cases first.result with
  | error overrun => rfl
  | ok a => rfl

/-- What two steps build is built by the first, or by the second if it is reached. -/
@[simp] theorem mem_built_bind {first : Building α} {next : α → Building β} {g : Formula} :
    g ∈ (first >>= next).built ↔
      g ∈ first.built ∨ ∃ a, first.result = .ok a ∧ g ∈ (next a).built := by
  -- After a failure of the first step there is nothing more.
  show g ∈ (first.andThen next).built ↔ _
  unfold andThen
  cases first.result with
  | error overrun => simp
  | ok a => simp

end Building

namespace Formula

/-- What putting a formula into each conjunct of another one builds, part by part. -/
def disjunctions (l : Formula) : Formula → List Formula
  | .and a b => l.disjunctions a ++ l.disjunctions b ++ [l.disjoinEach (.and a b)]
  | r => [l.disjoinEach r]

/-- What distributing a disjunction builds, each part before the conjunction that it goes into. -/
def distributions : Formula → Formula → List Formula
  | .and a b, r => a.distributions r ++ b.distributions r ++ [(Formula.and a b).distribute r]
  | l, r => l.disjunctions r

/--
Distribution within a budget as it runs, with a record of the conjunctions that it puts together
again and of all that it distributes.
-/
def buildWithin (budget : Budget) : Formula → (List Side → Nat) → Building Formula
  | .and l r, elapsed => do
    .check (budget.checkTime elapsed [])
    let l ← l.buildWithin budget fun path => elapsed (.left :: path)
    let r ← r.buildWithin budget fun path => elapsed (.right :: path)
    .check (budget.checkCount (l.conjunctCount + r.conjunctCount))
    .make (.and l r) [.and l r]
  | .or l r, elapsed => do
    .check (budget.checkTime elapsed [])
    let l ← l.buildWithin budget fun path => elapsed (.left :: path)
    let r ← r.buildWithin budget fun path => elapsed (.right :: path)
    .check (budget.checkCount (min (l.conjunctCount * r.conjunctCount) largestCount))
    .make (l.distribute r) (l.distributions r)
  | f, elapsed => do
    .check (budget.checkTime elapsed [])
    return f

section Counting

variable {f g l r : Formula} {budget : Budget} {elapsed : List Side → Nat}

/-- A formula put into each conjunct of another one leaves their number as it is. -/
theorem conjunctCount_disjoinEach (l r : Formula) :
    (l.disjoinEach r).conjunctCount = r.conjunctCount := by
  -- It goes into every conjunct, and the conjuncts stay apart.
  rw [conjunctCount_eq_length, conjunctCount_eq_length, conjuncts_disjoinEach, List.length_map]

/-- No part of what is built has more conjuncts than the formula disjoined with. -/
theorem conjunctCount_le_of_mem_disjunctions (made : g ∈ l.disjunctions r) :
    g.conjunctCount ≤ r.conjunctCount := by
  fun_induction disjunctions l r with
  | case1 a b left right =>
    -- The parts come from either side, and the whole has the conjuncts of both.
    simp only [List.mem_append, List.mem_singleton] at made
    rcases made with (first | second) | whole
    · exact Nat.le_trans (left first) (Nat.le_add_right _ _)
    · exact Nat.le_trans (right second) (Nat.le_add_left _ _)
    · rw [whole, conjunctCount_disjoinEach]
  | case2 r single =>
    rw [List.mem_singleton.mp made, conjunctCount_disjoinEach]

/-- No part of what is distributed has more conjuncts than the product of both sides. -/
theorem conjunctCount_le_of_mem_distributions (made : g ∈ l.distributions r) :
    g.conjunctCount ≤ l.conjunctCount * r.conjunctCount := by
  fun_induction distributions l r with
  | case1 a b r left right =>
    -- Each side of the conjunction is distributed apart from the other one.
    rw [conjunctCount, Nat.add_mul]
    simp only [List.mem_append, List.mem_singleton] at made
    rcases made with (first | second) | whole
    · exact Nat.le_trans (left first) (Nat.le_add_right _ _)
    · exact Nat.le_trans (right second) (Nat.le_add_left _ _)
    · rw [whole, conjunctCount_distribute, conjunctCount, Nat.add_mul]
  | case2 l r single =>
    -- A left side that is no conjunction counts once.
    have some := conjunctCount_pos l
    exact Nat.le_trans (conjunctCount_le_of_mem_disjunctions made) (Nat.le_mul_of_pos_left _ some)

/-- What is made when a formula is put into each conjunct of another one is on record. -/
theorem disjoinEach_mem_disjunctions (l r : Formula) : l.disjoinEach r ∈ l.disjunctions r := by
  -- It comes last, whether or not it has parts.
  fun_cases disjunctions l r with
  | case1 a b => exact List.mem_append_right _ (List.mem_singleton_self _)
  | case2 r single => exact List.mem_singleton_self _

/-- What is made when a disjunction is distributed is on record. -/
theorem distribute_mem_distributions (l r : Formula) : l.distribute r ∈ l.distributions r := by
  fun_cases distributions l r with
  | case1 a b r => exact List.mem_append_right _ (List.mem_singleton_self _)
  | case2 l r single =>
    -- A left side that is no conjunction is put into the conjuncts of the right one.
    rw [distribute]
    · exact disjoinEach_mem_disjunctions l r
    · exact single

/-- A formula that is neither a conjunction nor a disjunction is only looked at. -/
theorem buildWithin_leaf (conjunction : ∀ l r, f ≠ .and l r) (disjunction : ∀ l r, f ≠ .or l r) :
    f.buildWithin budget elapsed = do
      .check (budget.checkTime elapsed [])
      return f := by
  unfold buildWithin
  -- The two cases in which something would be built are excluded.
  split
  · exact (conjunction _ _ rfl).elim
  · exact (disjunction _ _ rfl).elim
  · rfl

/-- The record changes nothing about how distribution within a budget ends. -/
theorem result_buildWithin (budget : Budget) (f : Formula) (elapsed : List Side → Nat) :
    (f.buildWithin budget elapsed).result = f.toConjunctiveWithin budget elapsed := by
  -- Both take the same steps at every node.
  fun_induction toConjunctive f generalizing elapsed with
  | case1 l r left right =>
    simp only [buildWithin, toConjunctiveWithin_and, Building.result_bind, left, right]
    rfl
  | case2 l r left right =>
    simp only [buildWithin, toConjunctiveWithin_or, Building.result_bind, left, right]
    rfl
  | case3 f conjunction disjunction =>
    rw [buildWithin_leaf conjunction disjunction, toConjunctiveWithin_leaf conjunction disjunction]
    exact Building.result_bind _ _

/-- Where all steps at a node succeed, what the last one makes is on record. -/
theorem mem_built_node (count : Formula → Formula → Nat) (join : Formula → Formula → Formula)
    (parts : Formula → Formula → List Formula) (whole : ∀ l r, join l r ∈ parts l r)
    (done : (do
      budget.checkTime elapsed []
      let l ← l.toConjunctiveWithin budget fun path => elapsed (.left :: path)
      let r ← r.toConjunctiveWithin budget fun path => elapsed (.right :: path)
      budget.checkCount (count l r)
      return join l r) = .ok g) :
    g ∈ (do
      .check (budget.checkTime elapsed [])
      let l ← l.buildWithin budget fun path => elapsed (.left :: path)
      let r ← r.buildWithin budget fun path => elapsed (.right :: path)
      .check (budget.checkCount (count l r))
      .make (join l r) (parts l r) : Building Formula).built := by
  simp only [bind_eq_ok, pure_eq_ok] at done
  obtain ⟨_, intime, l', first, r', second, _, passed, rfl⟩ := done
  -- Each step is followed by the next one, because it has succeeded.
  simp only [Building.mem_built_bind, Building.result_check, Building.built_make,
    result_buildWithin]
  exact Or.inr ⟨(), intime, Or.inr ⟨l', first, Or.inr ⟨r', second,
    Or.inr ⟨(), passed, whole l' r'⟩⟩⟩⟩

/-- What distribution within a budget makes of a conjunction or a disjunction is on record. -/
theorem mem_built_of_toConjunctiveWithin (joined : (∃ l r, f = .and l r) ∨ ∃ l r, f = .or l r)
    (done : f.toConjunctiveWithin budget elapsed = .ok g) :
    g ∈ (f.buildWithin budget elapsed).built := by
  -- The two differ in what is counted and in what is made.
  rcases joined with ⟨l, r, rfl⟩ | ⟨l, r, rfl⟩
  · rw [toConjunctiveWithin_and] at done
    exact mem_built_node _ .and _ (fun _ _ => List.mem_singleton_self _) done
  · rw [toConjunctiveWithin_or] at done
    exact mem_built_node _ distribute _ distribute_mem_distributions done

/-- One clause lies above no limit. -/
theorem isExceeded_one : budget.isExceeded 1 = false := by
  rw [← Bool.not_eq_true, Budget.isExceeded_iff]
  omega

/-- A product of counts that passes the check is within the limit unless it is cut down for it. -/
theorem isExceeded_of_product {count : Nat} (countable : count ≤ largestCount)
    (passed : budget.checkCount (min count largestCount) = .ok ()) :
    budget.isExceeded count = false := by
  -- The count is not cut down, as it can be counted.
  rw [Nat.min_eq_left countable] at passed
  exact Budget.checkCount_eq_ok.mp passed

/-- Where distribution comes to an end, the clauses of the whole formula are within the limit. -/
theorem isExceeded_of_toConjunctiveWithin (countable : f.toConjunctive.conjunctCount ≤ largestCount)
    (done : f.toConjunctiveWithin budget elapsed = .ok g) :
    budget.isExceeded f.toConjunctive.conjunctCount = false := by
  -- The clauses of the outermost node are counted last.
  fun_cases toConjunctive f with
  | case1 l r =>
    simp only [toConjunctiveWithin_and, bind_eq_ok] at done
    obtain ⟨_, _, l', first, r', second, _, passed, _⟩ := done
    rw [toConjunctiveWithin_ok first, toConjunctiveWithin_ok second] at passed
    exact Budget.checkCount_eq_ok.mp passed
  | case2 l r =>
    simp only [toConjunctiveWithin_or, bind_eq_ok] at done
    obtain ⟨_, _, l', first, r', second, _, passed, _⟩ := done
    rw [toConjunctiveWithin_ok first, toConjunctiveWithin_ok second] at passed
    rw [toConjunctive, conjunctCount_distribute] at countable
    rw [conjunctCount_distribute]
    exact isExceeded_of_product countable passed
  | case3 _ conjunction _ =>
    -- A formula that is no conjunction has one clause.
    have single : f.conjunctCount = 1 := by
      rw [conjunctCount_eq_length, conjuncts_of_ne_and conjunction, List.length_singleton]
    rw [single]
    exact isExceeded_one

/-- Without a deadline, distribution fails where the clauses of the formula are above the limit. -/
theorem exists_tooMany (countable : f.toConjunctive.conjunctCount ≤ largestCount)
    (untimed : budget.deadline = none)
    (exceeded : budget.isExceeded f.toConjunctive.conjunctCount = true) :
    ∃ count, f.toConjunctiveWithin budget elapsed = .error (.tooMany count) := by
  cases ended : f.toConjunctiveWithin budget elapsed with
  | ok g =>
    -- All clauses would have been within the limit.
    have within := isExceeded_of_toConjunctiveWithin countable ended
    rw [exceeded] at within
    cases within
  | error overrun =>
    cases overrun with
    | late => exact (toConjunctiveWithin_not_late untimed ended).elim
    | tooMany count => exact ⟨count, rfl⟩

/-- Distribution that starts after its deadline is late at once. -/
theorem toConjunctiveWithin_late (late : budget.isLate elapsed [] = true) :
    f.toConjunctiveWithin budget elapsed = .error .late := by
  -- The time is looked at before anything else, whatever the formula.
  have refused : budget.checkTime elapsed [] = .error .late := by
    unfold Budget.checkTime
    rw [if_pos late]
  fun_cases toConjunctive f with
  | case1 l r =>
    rw [toConjunctiveWithin_and, refused]
    rfl
  | case2 l r =>
    rw [toConjunctiveWithin_or, refused]
    rfl
  | case3 _ conjunction disjunction =>
    rw [toConjunctiveWithin_leaf conjunction disjunction, refused]
    rfl

/-- Nothing that is built has more conjuncts than the limit allows, whether or not the run fails. -/
theorem isExceeded_of_mem_built (countable : f.toConjunctive.conjunctCount ≤ largestCount)
    (made : g ∈ (f.buildWithin budget elapsed).built) :
    budget.isExceeded g.conjunctCount = false := by
  -- A node builds something only once its clauses have been counted and have passed the check.
  fun_induction toConjunctive f generalizing elapsed with
  | case1 l r left right =>
    rw [conjunctCount] at countable
    simp only [buildWithin, Building.mem_built_bind, Building.built_check, Building.result_check,
      Building.built_make, result_buildWithin, List.not_mem_nil, false_or,
      List.mem_singleton] at made
    obtain ⟨_, _, early | ⟨l', first, late | ⟨r', second, _, passed, rfl⟩⟩⟩ := made
    · exact left (by omega) early
    · exact right (by omega) late
    · exact Budget.checkCount_eq_ok.mp passed
  | case2 l r left right =>
    rw [conjunctCount_distribute] at countable
    -- Neither side has more conjuncts than the product, because the other one has some.
    have first : l.toConjunctive.conjunctCount ≤ largestCount :=
      Nat.le_trans (Nat.le_mul_of_pos_right _ r.toConjunctive.conjunctCount_pos) countable
    have second : r.toConjunctive.conjunctCount ≤ largestCount :=
      Nat.le_trans (Nat.le_mul_of_pos_left _ l.toConjunctive.conjunctCount_pos) countable
    simp only [buildWithin, Building.mem_built_bind, Building.built_check, Building.result_check,
      Building.built_make, result_buildWithin, List.not_mem_nil, false_or] at made
    obtain ⟨_, _, early | ⟨l', doneLeft, late | ⟨r', doneRight, _, passed, part⟩⟩⟩ := made
    · exact left first early
    · exact right second late
    · rw [toConjunctiveWithin_ok doneLeft, toConjunctiveWithin_ok doneRight] at passed part
      have bounded := conjunctCount_le_of_mem_distributions part
      exact Budget.isExceeded_mono bounded (isExceeded_of_product countable passed)
  | case3 f conjunction disjunction =>
    -- Nothing is built here.
    rw [buildWithin_leaf conjunction disjunction] at made
    simp at made

end Counting

end Formula

/-- Where a formula cannot be distributed within the budget, the stage fails with that error. -/
theorem Progress.distribute_overrun {config : Config} {clock : Clock} {p : Progress}
    {overrun : Overrun} (failed : distributeAll config.budget clock 0 p.formulas = .error overrun) :
    ∃ left, p.distribute config clock =
      .error { error := overrun.error config.maxClauses, progress := left } := by
  -- What is left has the event reported, whichever it is.
  rw [distribute, failed]
  exact ⟨_, rfl⟩

namespace Formula

/--
Distribution multiplies the numbers of conjuncts. Where these can be counted, distribution within a
budget and without a deadline makes what it makes without a budget, or fails with the clause limit
if there are more conjuncts than it allows. Nothing that it builds has more than those, even if it
fails later on. After a deadline it fails at once.
-/
theorem toConjunctiveWithin_exact (f : Formula) (budget : Budget) (elapsed : List Side → Nat) :
    (∀ l r : Formula, (l.distribute r).conjunctCount = l.conjunctCount * r.conjunctCount) ∧
    (f.toConjunctive.conjunctCount ≤ largestCount →
      (budget.deadline = none →
        (f.toConjunctiveWithin budget elapsed).mapError (Overrun.error budget.maxClauses) =
          if budget.maxClauses = 0 ∨ f.toConjunctive.conjunctCount ≤ budget.maxClauses then
            .ok f.toConjunctive
          else .error (.clauseLimitExceeded .distribution budget.maxClauses)) ∧
      (f.buildWithin budget elapsed).result = f.toConjunctiveWithin budget elapsed ∧
      (0 < budget.maxClauses →
        ∀ g ∈ (f.buildWithin budget elapsed).built, g.conjunctCount ≤ budget.maxClauses)) ∧
    (∀ deadline, budget.deadline = some deadline → deadline ≤ elapsed [] →
      (f.toConjunctiveWithin budget elapsed).mapError (Overrun.error budget.maxClauses) =
        .error (.timeout .distribution)) := by
  refine ⟨conjunctCount_distribute, fun countable => ⟨fun untimed => ?_,
    result_buildWithin budget f elapsed, fun limited g made => ?_⟩, fun deadline set past => ?_⟩
  · -- The limit decides, since all clauses are counted at the outermost node at the latest.
    split
    · rename_i allowed
      have within : budget.isExceeded f.toConjunctive.conjunctCount = false := by
        rw [← Bool.not_eq_true, Budget.isExceeded_iff]
        omega
      rw [toConjunctiveWithin_untimed untimed within]
      rfl
    · rename_i refused
      have exceeded : budget.isExceeded f.toConjunctive.conjunctCount = true := by
        rw [Budget.isExceeded_iff]
        omega
      obtain ⟨count, failed⟩ := exists_tooMany countable untimed exceeded
      rw [failed]
      rfl
  · -- Everything on record has passed the check.
    have within := isExceeded_of_mem_built countable made
    rw [← Bool.not_eq_true, Budget.isExceeded_iff] at within
    omega
  · -- The first thing that is done is to look at the time.
    have late : budget.isLate elapsed [] = true := by
      unfold Budget.isLate
      rw [set]
      exact decide_eq_true past
    rw [toConjunctiveWithin_late late]
    rfl

/--
A formula of four clauses passes a limit of four. Under a limit of three both of its sides are built
before it fails, and after a deadline nothing is.
-/
theorem toConjunctiveWithin_exact_dilemma :
    (dilemma.toConjunctiveWithin { maxClauses := 4 } fun _ => 0).mapError (Overrun.error 4) =
      .ok dilemma.toConjunctive ∧
    (dilemma.toConjunctiveWithin { maxClauses := 3 } fun _ => 0).mapError (Overrun.error 3) =
      .error (.clauseLimitExceeded .distribution 3) ∧
    (dilemma.buildWithin { maxClauses := 3 } fun _ => 0).built.length = 2 ∧
    (∀ g ∈ (dilemma.buildWithin { maxClauses := 3 } fun _ => 0).built, g.conjunctCount ≤ 3) ∧
    (dilemma.toConjunctiveWithin { deadline := some 5, maxClauses := 4 } fun _ => 5).mapError
      (Overrun.error 4) = .error (.timeout .distribution) := by
  -- The numbers of clauses can be counted here, so that all parts of the theorem apply.
  have countable : dilemma.toConjunctive.conjunctCount ≤ largestCount := by decide
  have four := toConjunctiveWithin_exact dilemma { maxClauses := 4 } fun _ => 0
  have three := toConjunctiveWithin_exact dilemma { maxClauses := 3 } fun _ => 0
  have late := toConjunctiveWithin_exact dilemma { deadline := some 5, maxClauses := 4 } fun _ => 5
  refine ⟨(four.2.1 countable).1 rfl, (three.2.1 countable).1 rfl, by decide, ?_, ?_⟩
  · exact (three.2.1 countable).2.2 (by decide)
  · exact late.2.2 5 rfl (Nat.le_refl 5)

end Formula

end ClauseForm
