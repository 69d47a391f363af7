import Mathlib.Data.List.Forall2

/-! Computations that may fail are taken apart, one after another and over lists. -/

namespace ClauseForm

section Steps

variable {α β ε : Type}

/-- Two steps succeed just when the first does and the second does with what the first made. -/
theorem bind_eq_ok {first : Except ε α} {next : α → Except ε β} {b : β} :
    (first >>= next) = .ok b ↔ ∃ a, first = .ok a ∧ next a = .ok b := by
  -- The second step is reached only if the first has succeeded.
  cases first with
  | error cause =>
    constructor
    · intro failed
      cases failed
    · rintro ⟨_, failed, _⟩
      cases failed
  | ok a =>
    constructor
    · exact fun done => ⟨a, rfl, done⟩
    · rintro ⟨_, same, done⟩
      cases same
      exact done

/-- Two steps fail just when the first does, or the second does with what the first made. -/
theorem bind_eq_error {first : Except ε α} {next : α → Except ε β} {cause : ε} :
    (first >>= next) = .error cause ↔
      first = .error cause ∨ ∃ a, first = .ok a ∧ next a = .error cause := by
  -- An error of the first step passes through.
  cases first with
  | error other =>
    constructor
    · intro failed
      cases failed
      exact Or.inl rfl
    · rintro (failed | ⟨_, failed, _⟩)
      · cases failed
        rfl
      · cases failed
  | ok a =>
    constructor
    · exact fun failed => Or.inr ⟨a, rfl, failed⟩
    · rintro (failed | ⟨_, same, failed⟩)
      · cases failed
      · cases same
        exact failed

/-- A step that does nothing else returns what it is given. -/
theorem pure_eq_ok {a b : α} : (pure a : Except ε α) = .ok b ↔ a = b := by
  -- Successes are the same just when their results are.
  simp only [pure, Except.pure, Except.ok.injEq]

/-- Where nothing but failures may happen, two steps run as they do without anything around them. -/
theorem run_bind_id (first : ExceptT ε Id α) (next : α → ExceptT ε Id β) :
    (first >>= next).run.run = first.run.run >>= fun a => (next a).run.run := by
  -- The second step is reached in both cases or in neither.
  rw [ExceptT.run_bind, Id.run_bind]
  cases first.run.run with
  | error cause => rfl
  | ok a => rfl

/-- A computation whose result passes a check has succeeded. -/
theorem exists_ok_of_any {attempt : Except ε α} {check : α → Bool}
    (passes : attempt.toOption.any check = true) : ∃ a, attempt = .ok a ∧ check a = true := by
  -- A failure has no result to check.
  cases attempt with
  | error cause => cases passes
  | ok a => exact ⟨a, rfl, passes⟩

/-- A list is mapped successfully just when each of its members is. -/
theorem mapM_ok_iff {step : α → Except ε β} {xs : List α} {ys : List β} :
    xs.mapM step = .ok ys ↔ List.Forall₂ (fun x y => step x = .ok y) xs ys := by
  induction xs generalizing ys with
  | nil =>
    rw [List.mapM_nil, List.forall₂_nil_left_iff]
    exact pure_eq_ok.trans eq_comm
  | cons x xs ih =>
    -- The first member comes first, and the others follow.
    simp only [List.mapM_cons, bind_eq_ok, pure_eq_ok, List.forall₂_cons_left_iff, ih]
    constructor
    · rintro ⟨y, first, others, rest, rfl⟩
      exact ⟨y, others, first, rest, rfl⟩
    · rintro ⟨y, others, first, rest, rfl⟩
      exact ⟨y, first, others, rest, rfl⟩

/-- A list is mapped successfully where no member fails. -/
theorem exists_mapM_ok {step : α → Except ε β} {xs : List α}
    (succeeds : ∀ x ∈ xs, ∃ y, step x = .ok y) : ∃ ys, xs.mapM step = .ok ys := by
  -- One success after the other makes up the list of results.
  simp only [mapM_ok_iff]
  induction xs with
  | nil => exact ⟨[], .nil⟩
  | cons x xs ih =>
    obtain ⟨⟨y, first⟩, rest⟩ := List.forall_mem_cons.mp succeeds
    obtain ⟨ys, mapped⟩ := ih rest
    exact ⟨y :: ys, .cons first mapped⟩

/-- Every member of the second of two matched lists has a partner in the first. -/
theorem exists_of_forall₂_right {matched : α → β → Prop} {xs : List α} {ys : List β}
    (pairs : List.Forall₂ matched xs ys) {y : β} (listed : y ∈ ys) : ∃ x ∈ xs, matched x y := by
  -- The pairs are looked through from left to right.
  induction pairs with
  | nil => cases listed
  | cons first _ ih =>
    rcases List.mem_cons.mp listed with rfl | later
    · exact ⟨_, List.mem_cons_self, first⟩
    · obtain ⟨x, inside, found⟩ := ih later
      exact ⟨x, List.mem_cons_of_mem _ inside, found⟩

/-- What matches imply for the members of the first of two matched lists holds for the second. -/
theorem forall_of_forall₂_right {matched : α → β → Prop} {xs : List α} {ys : List β}
    {p : β → Prop} (pairs : List.Forall₂ matched xs ys) (each : ∀ x ∈ xs, ∀ y, matched x y → p y) :
    ∀ y ∈ ys, p y := by
  -- The partner in the first list vouches for the member of the second one.
  intro y listed
  obtain ⟨x, inside, found⟩ := exists_of_forall₂_right pairs listed
  exact each x inside y found

end Steps

section Failures

variable {α β ε : Type}

/-- The cause for which a computation fails, if it does. -/
def failure? : Except ε α → Option ε
  | .ok _ => none
  | .error cause => some cause

/-- A computation succeeds where it fails for no cause. -/
theorem failure?_eq_none_iff {attempt : Except ε α} :
    failure? attempt = none ↔ ∃ a, attempt = .ok a := by
  -- A success has no cause, and a failure has one.
  cases attempt <;> simp [failure?]

/-- A computation fails for a cause just when that is its error. -/
theorem failure?_eq_some_iff {attempt : Except ε α} {cause : ε} :
    failure? attempt = some cause ↔ attempt = .error cause := by
  -- A cause can be told from another one.
  cases attempt <;> simp [failure?]

/-- Two steps fail as the first one does, or else as the second one does with every result. -/
theorem failure?_bind {first : Except ε α} {next : α → Except ε β} {later : Option ε}
    (after : ∀ a, failure? (next a) = later) :
    failure? (first >>= next) = (failure? first).or later := by
  -- The second step is reached only if the first has succeeded.
  cases first with
  | error cause => rfl
  | ok a => exact after a

/-- Another form of the result does not matter for failure. -/
theorem failure?_bind_pure {attempt : Except ε α} {form : α → β} :
    failure? (attempt >>= fun a => pure (form a)) = failure? attempt := by
  -- Both the error and the success come through.
  cases attempt <;> rfl

/-- Mapping the result of a computation does not matter for failure. -/
theorem failure?_map {attempt : Except ε α} {form : α → β} :
    failure? (attempt.map form) = failure? attempt := by
  cases attempt <;> rfl

/-- A list is mapped until the first member fails. -/
theorem failure?_mapM {step : α → Except ε β} {xs : List α} :
    failure? (xs.mapM step) = xs.findSome? fun x => failure? (step x) := by
  induction xs with
  | nil => rfl
  | cons x xs ih =>
    -- If the first member succeeds, then the others decide.
    have others : ∀ y : β, failure? (do return y :: (← xs.mapM step)) =
        xs.findSome? fun x => failure? (step x) := by
      intro y
      rw [failure?_bind_pure, ih]
    rw [List.mapM_cons, failure?_bind others, List.findSome?_cons]
    cases failure? (step x) <;> rfl

end Failures

end ClauseForm
