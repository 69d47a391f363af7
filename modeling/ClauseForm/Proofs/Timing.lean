import ClauseForm.Proofs.Limits
import ClauseForm.Timing

/-!
A run that asks for the time ends as it does on some clock that tells all times beforehand, wherever
the answers come from.
-/

namespace ClauseForm

section Answers

variable {α β ε σ : Type}

/-- What a computation makes if its questions are answered from a state, and the state after it. -/
def answered (asking : ExceptT ε (StateM σ) α) (s : σ) : Except ε α × σ :=
  (asking.run.run s).run

/-- Of two steps, the second one is answered from the state that the first one has left. -/
theorem answered_bind (first : ExceptT ε (StateM σ) α) (next : α → ExceptT ε (StateM σ) β) (s : σ) :
    (answered (first >>= next) s).1 =
      (answered first s).1 >>= fun a => (answered (next a) (answered first s).2).1 := by
  -- After a failure nothing is asked.
  unfold answered
  rw [ExceptT.run_bind, StateT.run_bind, Id.run_bind]
  rcases (first.run.run s).run with ⟨made, left⟩
  cases made with
  | error cause => rfl
  | ok a => rfl

variable {budget : Budget}

/-- Asking for the time is a check of the time that is answered. -/
theorem answered_askTime {Place : Type} (budget : Budget) (look : StateM σ Nat) (s : σ)
    (elapsed : Place → Nat) (place : Place) (told : (look.run s).run.1 = elapsed place) :
    (answered (budget.askTime look) s).1 = budget.checkTime elapsed place := by
  -- Where there is no deadline, nothing is asked and nothing refused.
  unfold Budget.askTime Budget.checkTime Budget.isLate
  rw [← told]
  cases budget.deadline with
  | none => rfl
  | some deadline => rfl

end Answers

namespace Formula

variable {σ : Type} {budget : Budget}

/-- The times at the nodes of a formula, from the one at its root and those of its sides. -/
def nodeTimes (root : Nat) (left right : List Side → Nat) : List Side → Nat
  | [] => root
  | .left :: path => left path
  | .right :: path => right path

/-- A node is distributed at the times that are answered for it and for its sides. -/
theorem exists_times_node {l r : Formula} (count : Formula → Formula → Nat)
    (join : Formula → Formula → Formula)
    (left : ∀ (look : List Side → StateM σ Nat) (s : σ), ∃ elapsed,
      (answered (l.toConjunctiveAsking budget look) s).1 = l.toConjunctiveWithin budget elapsed)
    (right : ∀ (look : List Side → StateM σ Nat) (s : σ), ∃ elapsed,
      (answered (r.toConjunctiveAsking budget look) s).1 = r.toConjunctiveWithin budget elapsed)
    (look : List Side → StateM σ Nat) (s : σ) : ∃ elapsed : List Side → Nat,
      (answered (do
        budget.askTime (look [])
        let l ← l.toConjunctiveAsking budget fun path => look (.left :: path)
        let r ← r.toConjunctiveAsking budget fun path => look (.right :: path)
        budget.checkCount (count l r)
        return join l r) s).1 = (do
          budget.checkTime elapsed []
          let l ← l.toConjunctiveWithin budget fun path => elapsed (.left :: path)
          let r ← r.toConjunctiveWithin budget fun path => elapsed (.right :: path)
          budget.checkCount (count l r)
          return join l r) := by
  -- Each side is answered from the state that is left when its turn comes.
  let asked := (answered (budget.askTime (look [])) s).2
  obtain ⟨first, sameLeft⟩ := left (fun path => look (.left :: path)) asked
  let between := (answered (l.toConjunctiveAsking budget fun path => look (.left :: path)) asked).2
  obtain ⟨second, sameRight⟩ := right (fun path => look (.right :: path)) between
  refine ⟨nodeTimes ((look []).run s).run.1 first second, ?_⟩
  -- The steps are separated, and each check and each side is replaced by what it comes to.
  simp only [answered_bind]
  rw [answered_askTime budget (look []) s (nodeTimes _ first second) [] rfl, sameLeft, sameRight]
  rfl

/-- A formula is distributed at the times that are answered for its nodes. -/
theorem exists_times_toConjunctiveAsking (f : Formula) (look : List Side → StateM σ Nat) (s : σ) :
    ∃ elapsed, (answered (f.toConjunctiveAsking budget look) s).1 =
      f.toConjunctiveWithin budget elapsed := by
  -- Conjunctions and disjunctions differ in what is counted and made.
  fun_induction toConjunctive f generalizing look s with
  | case1 l r left right =>
    simp only [toConjunctiveWithin_and]
    exact exists_times_node _ _ left right look s
  | case2 l r left right =>
    simp only [toConjunctiveWithin_or]
    exact exists_times_node _ _ left right look s
  | case3 f conjunction disjunction =>
    refine ⟨fun _ => ((look []).run s).run.1, ?_⟩
    rw [toConjunctiveWithin_leaf conjunction disjunction,
      ← answered_askTime budget (look []) s (fun _ => ((look []).run s).run.1) [] rfl]
    unfold toConjunctiveAsking
    -- Of the three cases that the run distinguishes, only the last one is left.
    split
    · exact (conjunction _ _ rfl).elim
    · exact (disjunction _ _ rfl).elim
    · exact answered_bind _ _ s

end Formula

/-- Two clocks show the same times in the course of a stage. -/
structure Clock.SameDuring (clock other : Clock) (stage : Stage) : Prop where
  started : clock.started stage = other.started stage
  entering : stage = .distribution → clock.entering = other.entering
  finished : clock.finished stage = other.finished stage

/-- A clock that shows the times of one clock in the course of a stage, else those of another. -/
def Clock.during (stage : Stage) (clock other : Clock) : Clock :=
  { started := Function.update other.started stage (clock.started stage)
    entering := if stage = .distribution then clock.entering else other.entering
    finished := Function.update other.finished stage (clock.finished stage) }

/-- In the course of the stage such a clock shows the times of the one. -/
theorem Clock.sameDuring_self (stage : Stage) (clock other : Clock) :
    (Clock.during stage clock other).SameDuring clock stage where
  started := Function.update_self ..
  entering distribution := if_pos distribution
  finished := Function.update_self ..

/-- In the course of any other stage it shows the times of the other. -/
theorem Clock.sameDuring_of_ne {stage later : Stage} (different : later ≠ stage)
    (clock other : Clock) : (Clock.during stage clock other).SameDuring other later where
  started := Function.update_of_ne different ..
  entering distribution := if_neg fun same => different (distribution.trans same.symm)
  finished := Function.update_of_ne different ..

/-- Clocks that show the same times as a third one show the same times. -/
theorem Clock.SameDuring.trans {clock other third : Clock} {stage : Stage}
    (first : clock.SameDuring other stage) (second : other.SameDuring third stage) :
    clock.SameDuring third stage where
  started := first.started.trans second.started
  entering distribution := (first.entering distribution).trans (second.entering distribution)
  finished := first.finished.trans second.finished

namespace Progress

variable {σ : Type} {config : Config} {clock other : Clock} {stage : Stage}

/-- The formulas of a list are distributed at the times that are answered for their nodes. -/
theorem exists_entering_distributeAllAsking (budget : Budget) (fs : List Formula)
    (look : Nat → List Side → StateM σ Nat) (index : Nat) (s : σ) :
    ∃ entering : Nat → List Side → Nat, ∀ clock : Clock,
      (∀ i ≥ index, clock.entering i = entering i) →
        (answered (distributeAllAsking budget look index fs) s).1 =
          distributeAll budget clock index fs := by
  -- The times for the first formula are put in front of those for the others.
  induction fs generalizing index s with
  | nil => exact ⟨fun _ _ => 0, fun _ _ => rfl⟩
  | cons f fs ih =>
    obtain ⟨here, first⟩ := f.exists_times_toConjunctiveAsking (look index) s
    obtain ⟨later, rest⟩ := ih (index + 1)
      (answered (f.toConjunctiveAsking budget (look index)) s).2
    refine ⟨Function.update later index here, fun clock agrees => ?_⟩
    have now : clock.entering index = here := (agrees index le_rfl).trans (Function.update_self ..)
    have after (i : Nat) (behind : i ≥ index + 1) : clock.entering i = later i :=
      (agrees i (by omega)).trans (Function.update_of_ne (by omega) ..)
    simp only [distributeAllAsking, answered_bind, distributeAll_cons]
    rw [first, rest clock after, now]
    rfl

/-- The work of a stage is done at the times that are answered if it asks for any. -/
theorem exists_entering_performAsking (config : Config) (elapsed : StateM σ Nat) (p : Progress)
    (stage : Stage) (s : σ) : ∃ entering : Nat → List Side → Nat, ∀ clock : Clock,
      (stage = .distribution → clock.entering = entering) →
        (answered (p.performAsking config elapsed stage) s).1 = p.perform config clock stage := by
  by_cases distribution : stage = .distribution
  · obtain ⟨entering, same⟩ := exists_entering_distributeAllAsking config.budget
      p.formulas (fun _ _ => elapsed) 0 s
    refine ⟨entering, fun clock agrees => ?_⟩
    -- A clock that shows these times at all places will do.
    have made := same clock fun i _ => congrFun (agrees distribution) i
    subst distribution
    show p.takeDistributed config (answered (distributeAllAsking _ _ _ _) s).1 = _
    rw [made]
    rfl
  · -- No other stage looks at the clock.
    refine ⟨fun _ _ => 0, fun clock _ => ?_⟩
    rw [performAsking, if_neg distribution]
    cases stage with
    | distribution => exact (distribution rfl).elim
    | _ => rfl

/-- The conclusion of a stage looks at the start and the end of that stage alone. -/
theorem conclude_congr (started : clock.started stage = other.started stage)
    (finished : clock.finished stage = other.finished stage) (p : Progress) :
    p.conclude config clock stage = p.conclude config other stage := by
  unfold conclude finish Budget.isLate
  rw [started, finished]

/-- Extraction looks at the start and the end of its own stage alone. -/
theorem extract_congr (started : clock.started .clauseExtraction = other.started .clauseExtraction)
    (finished : clock.finished .clauseExtraction = other.finished .clauseExtraction)
    (p start : Progress) : p.extract config clock start = p.extract config other start := by
  unfold extract finish
  rw [started, finished]

/-- A stage is advanced at the times that are answered in its course. -/
theorem exists_clock_advanceAsking (config : Config) (elapsed : StateM σ Nat) (p : Progress)
    (stage : Stage) (s : σ) : ∃ clock : Clock, ∀ other : Clock, other.SameDuring clock stage →
      (answered (p.advanceAsking config elapsed stage) s).1 = p.advance config other stage := by
  -- The time is asked for at the start, by the work and at the end.
  let started := (elapsed.run s).run
  obtain ⟨entering, worked⟩ := exists_entering_performAsking config elapsed p stage started.2
  let left := (answered (p.performAsking config elapsed stage) started.2).2
  let finished := (elapsed.run left).run.1
  refine ⟨{ started := fun _ => started.1, entering, finished := fun _ => finished },
    fun other same => ?_⟩
  unfold advanceAsking advance
  simp only [answered_bind]
  show ((answered (p.performAsking config elapsed stage) started.2).1 >>= fun p =>
    p.conclude config { Clock.still finished with started := fun _ => started.1 } stage) = _
  rw [worked other same.entering]
  exact congrArg (_ >>= ·) (funext (conclude_congr same.started.symm same.finished.symm))

/-- Stages are advanced one after the other at the times that are answered in their courses. -/
theorem exists_clock_foldlM (config : Config) (elapsed : StateM σ Nat) {stages : List Stage}
    (once : stages.Nodup) (p : Progress) (s : σ) : ∃ clock : Clock, ∀ other : Clock,
      (∀ stage ∈ stages, other.SameDuring clock stage) →
        (answered (stages.foldlM (advanceAsking config elapsed) p) s).1 =
          stages.foldlM (advance config other) p := by
  -- As no stage occurs twice, the times during the first one can be set apart from the others.
  induction stages generalizing p s with
  | nil => exact ⟨.still 0, fun _ _ => rfl⟩
  | cons stage stages ih =>
    obtain ⟨first, rest⟩ := List.nodup_cons.mp once
    obtain ⟨clock, here⟩ := exists_clock_advanceAsking config elapsed p stage s
    simp only [List.foldlM_cons, answered_bind]
    cases made : (answered (p.advanceAsking config elapsed stage) s).1 with
    | error failure =>
      -- After a failure the later times do not matter.
      refine ⟨clock, fun other same => ?_⟩
      rw [← here other (same stage List.mem_cons_self), made]
      rfl
    | ok q =>
      obtain ⟨after, later⟩ := ih rest q (answered (p.advanceAsking config elapsed stage) s).2
      refine ⟨.during stage clock after, fun other same => ?_⟩
      have now := (same stage List.mem_cons_self).trans (Clock.sameDuring_self stage clock after)
      have next : ∀ t ∈ stages, other.SameDuring after t := by
        intro t listed
        have different : t ≠ stage := ne_of_mem_of_not_mem listed first
        exact (same t (List.mem_cons_of_mem _ listed)).trans
          (Clock.sameDuring_of_ne different clock after)
      rw [← here other now, made]
      exact later other next

end Progress

/--
Wherever the answers of a run come from that asks for the time, the run ends as one that is told all
times by some clock. What holds of runs on every clock thus holds of a run while time passes.
-/
theorem exists_clock_normalizeAsking {σ : Type} (config : Config) (elapsed : StateM σ Nat)
    (formulas : List Formula) (symbols : SymbolTable) (sink : Sink) (s : σ) :
    ∃ clock, ((normalizeAsking config elapsed formulas symbols sink).run s).run.1 =
      normalize config clock formulas symbols sink := by
  -- All stages on formulas are taken together first.
  let start : Progress := { formulas, symbols, sink }
  obtain ⟨clock, advanced⟩ := Progress.exists_clock_foldlM config elapsed
    (show Stage.formulaStages.Nodup by decide) start s
  let left :=
    (answered (Stage.formulaStages.foldlM (Progress.advanceAsking config elapsed) start) s).2
  let finished := (elapsed.run left).run.1
  -- Extraction comes after all those stages, and is told the last answer.
  let whole : Clock := .during .clauseExtraction (.still finished) clock
  refine ⟨whole, ?_⟩
  have apart : ∀ stage ∈ Stage.formulaStages, whole.SameDuring clock stage := by
    intro stage listed
    have different : stage ≠ .clauseExtraction := ne_of_mem_of_not_mem listed (by decide)
    exact Clock.sameDuring_of_ne different _ _
  have own : whole.SameDuring (.still finished) .clauseExtraction := Clock.sameDuring_self ..
  show Progress.outcome (answered (do
    let p ← Stage.formulaStages.foldlM (Progress.advanceAsking config elapsed) start
    let finished ← elapsed
    p.extract config (.still finished) start) s).1 = _
  simp only [answered_bind]
  rw [advanced whole apart]
  show Progress.outcome (_ >>= fun p : Progress => p.extract config (.still finished) start) = _
  refine congrArg Progress.outcome (congrArg (_ >>= ·) (funext fun p => ?_))
  exact Progress.extract_congr own.started.symm own.finished.symm p start

end ClauseForm
