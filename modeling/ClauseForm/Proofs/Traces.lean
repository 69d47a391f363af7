import ClauseForm.Proofs.Soundness
import ClauseForm.Proofs.Writers

/-! The sections of a trace show what the stages make, one after the other. -/

namespace ClauseForm

namespace Draft

/-- Lines that show what a stage makes in its turn of a draft, if all of it has names. -/
def lines? (order : PrenexOrder) (d : Draft) (stage : Stage) : Option (List String) :=
  let made := d.afterFirst order stage.number
  match stage with
  | .clauseExtraction =>
    (Formula.extractClauses made.formulas).toOption.bind fun cs =>
      cs.mapM (Clause.text? made.symbols)
  | _ => made.formulas.mapM (Formula.text? made.symbols)

/-- Sections for some stages, which show what these make of a draft. -/
def ShownBy (order : PrenexOrder) (d : Draft) :
    List Stage → List (Stage × List String) → Prop :=
  List.Forall₂ fun stage part => part.1 = stage ∧ d.lines? order stage = some part.2

variable {order : PrenexOrder} {d : Draft} {shows : List Stage} {stage : Stage}
  {sections others : List (Stage × List String)}

/-- A stage on formulas shows what it makes of them. -/
theorem lines?_formulaStages {count : Nat} {e : Draft} (within : count < Stage.formulaStages.length)
    (made : e = d.afterFirst order (count + 1)) :
    d.lines? order Stage.formulaStages[count] = e.formulas.mapM (Formula.text? e.symbols) := by
  rw [← Stage.number_formulaStages within] at made
  rw [made]
  -- Extraction is none of these stages.
  have listed := List.getElem_mem within
  generalize Stage.formulaStages[count] = stage at listed ⊢
  cases stage with
  | clauseExtraction => exact absurd listed (by decide)
  | _ => rfl

/-- Extraction shows the clauses of what all other stages make. -/
theorem lines?_clauseExtraction {e : Draft} {cs : List Clause} (made : e = d.afterFirst order 8)
    (taken : Formula.extractClauses e.formulas = .ok cs) :
    d.lines? order .clauseExtraction = cs.mapM (Clause.text? e.symbols) := by
  -- Extraction is the ninth stage, and the first eight are all that change a draft.
  have same : d.afterFirst order Stage.clauseExtraction.number = e := made.symm
  simp [lines?, same, taken, Except.toOption]

/-- Each stage has one section. -/
theorem ShownBy.stages (shown : d.ShownBy order shows sections) :
    sections.map Prod.fst = shows := by
  induction shown with
  | nil => rfl
  | cons first _ ih => rw [List.map_cons, first.1, ih]

/-- The sections are determined by the stages. -/
theorem ShownBy.unique (shown : d.ShownBy order shows sections)
    (again : d.ShownBy order shows others) : sections = others := by
  induction shown generalizing others with
  | nil =>
    cases again
    rfl
  | cons first _ ih =>
    obtain _ | ⟨other, rest⟩ := again
    -- The first sections have the same stage and show the same lines.
    have lines := Option.some.inj (first.2.symm.trans other.2)
    have same := Prod.ext (first.1.trans other.1.symm) lines
    rw [same, ih rest]

/-- One more section shows one more stage. -/
theorem ShownBy.append {lines : List String} (shown : d.ShownBy order shows sections)
    (last : d.lines? order stage = some lines) :
    d.ShownBy order (shows ++ [stage]) (sections ++ [(stage, lines)]) :=
  List.rel_append shown (.cons ⟨rfl, last⟩ .nil)

/-- The section of a stage is found among the others. -/
theorem ShownBy.lookup (shown : d.ShownBy order shows sections) (listed : stage ∈ shows) :
    sections.lookup stage = d.lines? order stage := by
  induction shown with
  | nil => cases listed
  | @cons _ part _ _ first _ ih =>
    obtain ⟨name, lines⟩ := part
    obtain ⟨rfl, made⟩ := first
    -- The first section is that of the stage, or else it is passed over.
    by_cases same : stage = name
    · subst same
      rw [made, List.lookup_cons_self]
    · rw [List.lookup_cons, beq_false_of_ne same]
      exact ih ((List.mem_cons.mp listed).resolve_left same)

end Draft

namespace Progress

variable {config : Config} {clock : Clock} {stage : Stage} {start p q : Progress}
  {kept : List (Stage × List String)} (traced : config.trace = true)

include traced

/-- A trace adds its section to those that have been recorded. -/
theorem recorded_trace {lines? : Option (List String)} (before : p.sink = .recording kept)
    (done : p.trace config stage lines? = .ok q) : ∃ lines, lines? = some lines ∧
      q.sink = .recording (kept ++ [(stage, lines)]) := by
  unfold trace at done
  rw [if_pos traced] at done
  -- The lines have names, or the trace would have failed.
  split at done
  · cases done
  · rename_i lines
    -- The recording sink takes every section.
    rw [before] at done
    cases done
    exact ⟨lines, rfl, rfl⟩

/-- A stage that succeeds adds a section with what it has made. -/
theorem recorded_advance (before : p.sink = .recording kept)
    (done : p.advance config clock stage = .ok q) : ∃ lines,
      q.formulas.mapM (Formula.text? q.symbols) = some lines ∧
      q.sink = .recording (kept ++ [(stage, lines)]) := by
  obtain ⟨worked, first, last⟩ := bind_eq_ok.mp done
  obtain ⟨t, shown, made, handed⟩ := exists_traced last
  -- The work of the stage has left the sink as it was.
  have unchanged : worked.sink = p.sink := by
    rw [← sink_perform p, first]
    rfl
  obtain ⟨lines, written, recorded⟩ :=
    recorded_trace (p := worked.finish clock stage) traced (unchanged.trans before) shown
  have same : q.draft = worked.draft := conclude_ok last
  have formulas : q.formulas = worked.formulas := congrArg Draft.formulas same
  have symbols : q.symbols = worked.symbols := congrArg Draft.symbols same
  rw [formulas, symbols, handed]
  exact ⟨lines, written, recorded⟩

/-- A run through the first stages has recorded what each of them has made. -/
theorem recorded_advanceFirst {count : Nat} (within : count ≤ Stage.formulaStages.length)
    (empty : start.sink = .recording []) (done : start.advanceFirst config clock count = .ok p) :
    ∃ sections, start.draft.ShownBy config.prenexOrder (Stage.formulaStages.take count) sections ∧
      p.sink = .recording sections := by
  -- Each stage adds its section behind those of the stages before it.
  induction count generalizing p with
  | zero =>
    cases done
    exact ⟨[], .nil, empty⟩
  | succ count ih =>
    have made := advanceFirst_ok within done
    rw [advanceFirst_succ within] at done
    obtain ⟨before, first, last⟩ := bind_eq_ok.mp done
    obtain ⟨sections, shown, recorded⟩ := ih (by omega) first
    obtain ⟨lines, written, now⟩ := recorded_advance traced recorded last
    refine ⟨sections ++ [(Stage.formulaStages[count], lines)], ?_, now⟩
    rw [List.take_succ_eq_append_getElem within]
    refine shown.append ?_
    exact (Draft.lines?_formulaStages within made).trans written

/-- Extraction has recorded the clauses where it succeeds. -/
theorem recorded_extract {result : Normalized} {p' : Progress}
    (before : p.sink = .recording kept)
    (done : p.extract config clock start = .ok (result, p')) : ∃ lines,
      result.clauses.mapM (Clause.text? p.symbols) = some lines ∧
      p'.sink = .recording (kept ++ [(.clauseExtraction, lines)]) := by
  unfold extract at done
  split at done
  · cases done
  · rename_i clauses made
    -- What comes after the trace does not concern the sink.
    obtain ⟨t, shown, rest⟩ := bind_eq_ok.mp done
    obtain ⟨lines, written, recorded⟩ := recorded_trace
      (p := p.report (.flattened p.formulas.length clauses.length)) traced before shown
    cases rest
    exact ⟨lines, written, recorded⟩

end Progress

/--
A run over known formulas records sections for all stages, or else for those before distribution,
where that is what stops it.
-/
theorem recorded_normalize (config : Config) (clock : Clock) {formulas : List Formula}
    {symbols : SymbolTable} (known : ∀ f ∈ formulas, f.Known symbols)
    (traced : config.trace = true) (untimed : config.timeoutMs = none) : ∃ sections,
    Draft.ShownBy config.prenexOrder { formulas, symbols } (Stage.all.take
      (if config.budget.isExceeded (Formula.clauseTotal formulas) then 7 else 9)) sections ∧
    (normalize config clock formulas symbols (.recording [])).sink = .recording sections := by
  have reliable : (Sink.recording []).NeverFails := Sink.neverFails_of_isRoomy rfl
  by_cases count : config.budget.isExceeded (Formula.clauseTotal formulas) = true
  · rw [if_pos count]
    obtain ⟨p, failure, run, failed, _, ended⟩ :=
      exists_exceeded clock known untimed reliable count
    obtain ⟨sections, shown, recorded⟩ :=
      Progress.recorded_advanceFirst traced (by decide) rfl run
    refine ⟨sections, shown, ?_⟩
    -- Distribution fails before it is traced.
    have unchanged : failure.progress.sink = p.sink := by
      rw [← Progress.sink_perform p, failed]
      rfl
    rw [ended]
    exact unchanged.trans recorded
  · -- Otherwise the run comes to its end, and extraction is traced last.
    rw [if_neg count]
    obtain ⟨result, succeeded⟩ : ∃ result,
        (normalize config clock formulas symbols (.recording [])).result = .ok result :=
      exists_normalize known untimed reliable (Bool.eq_false_of_not_eq_true count)
    obtain ⟨p, p', run, last, ended⟩ := exists_of_normalize succeeded
    obtain ⟨sections, shown, recorded⟩ :=
      Progress.recorded_advanceFirst traced (by decide) rfl run
    obtain ⟨lines, written, now⟩ := Progress.recorded_extract traced recorded last
    obtain ⟨taken, _, _⟩ := Progress.extract_ok last
    have came := Progress.advanceFirst_ok (by decide) run
    have showing := (Draft.lines?_clauseExtraction came taken).trans written
    refine ⟨sections ++ [(Stage.clauseExtraction, lines)], shown.append showing, ?_⟩
    rw [ended]
    exact now

/--
A run over known formulas hands the same sections to every sink, whatever the times are. They show
the stages in their order, and all of them if the run succeeds, with its formulas and clauses at the
end. Writers are sent the text of these sections, and keep the beginning that they have room for.
-/
theorem normalize_traced (config : Config) {formulas : List Formula} {symbols : SymbolTable}
    (known : ∀ f ∈ formulas, f.Known symbols) (traced : config.trace = true)
    (untimed : config.timeoutMs = none) : ∃ sections,
    sections.map Prod.fst <+: Stage.all ∧ ∀ clock,
    (normalize config clock formulas symbols (.recording [])).sink = .recording sections ∧
    (∀ made, (normalize config clock formulas symbols (.recording [])).result = .ok made →
      sections.map Prod.fst = Stage.all ∧
      sections.lookup .distribution = made.formulas.mapM
        (Formula.text? (normalize config clock formulas symbols (.recording [])).symbols) ∧
      sections.lookup .clauseExtraction = made.clauses.mapM
        (Clause.text? (normalize config clock formulas symbols (.recording [])).symbols)) ∧
    Writes (normalize config clock formulas symbols) (traceText sections).toUTF8 := by
  obtain ⟨sections, shown, _⟩ := recorded_normalize config (.still 0) known traced untimed
  refine ⟨sections, ?_, fun clock => ?_⟩
  · rw [shown.stages]
    exact List.take_prefix _ _
  -- Another clock records the same sections, and those are handed to every sink.
  obtain ⟨same, again, recorded⟩ := recorded_normalize config clock known traced untimed
  rw [again.unique shown] at recorded
  obtain ⟨handed, hands⟩ := exists_handsOver config clock formulas symbols
  have those : handed = sections := Sink.recording.inj (hands.recorded.symm.trans recorded)
  rw [those] at hands
  refine ⟨recorded, fun made succeeded => ?_, hands.writes⟩
  obtain ⟨taken, whole⟩ := normalize_ok succeeded
  rw [isExceeded_of_normalize known succeeded, if_neg Bool.false_ne_true] at shown
  -- Nothing is left out of the nine stages.
  have complete : Draft.ShownBy config.prenexOrder { formulas, symbols } Stage.all sections :=
    shown
  have distributed := Draft.lines?_formulaStages (by decide : 7 < Stage.formulaStages.length) whole
  have extracted := Draft.lines?_clauseExtraction whole taken
  exact ⟨complete.stages, (complete.lookup (by decide)).trans distributed,
    (complete.lookup (by decide)).trans extracted⟩

/-- The sections that a recording sink keeps. -/
def Sink.kept : Sink → List (Stage × List String)
  | .recording sections => sections
  | _ => []

/-- The trace of a run that makes a Skolem constant. -/
def unboundedSections : List (Stage × List String) :=
  [(.implicationElimination, ["all x.some y.less(x,y)"]),
    (.negationNormalForm, ["all x.some y.less(x,y)"]),
    (.standardization, ["all x.some y.less(x,y)"]),
    (.prenex, ["some y.all x.less(x,y)"]),
    (.skolemization, ["all x.less(x,sk0)"]),
    (.renaming, ["all x.less(x,sk0)"]),
    (.universalStripping, ["less(x,sk0)"]),
    (.distribution, ["less(x,sk0)"]),
    (.clauseExtraction, ["less(x,sk0)"])]

/-- A writer with room for forty bytes of this trace keeps those and stops the run. -/
theorem normalize_traced_unbounded :
    (normalize { trace := true } (.still 0) [unbounded] comparisonSymbols (.recording [])).sink =
      .recording unboundedSections ∧
    (normalize { trace := true } (.still 0) [unbounded] comparisonSymbols
      (.writing (some 40) .empty)).result = .error (.access .sinkFull) ∧
    (normalize { trace := true } (.still 0) [unbounded] comparisonSymbols
      (.writing (some 40) .empty)).sink =
        .writing (some 40) "After eliminating implication:\n all x.so".toUTF8 := by
  have known : ∀ f ∈ [unbounded], f.Known comparisonSymbols := by decide +kernel
  obtain ⟨sections, _, each⟩ := normalize_traced { trace := true } known rfl rfl
  obtain ⟨recorded, _, writes⟩ := each (.still 0)
  -- What the theorem says to exist can be computed.
  have computed : (normalize { trace := true } (.still 0) [unbounded] comparisonSymbols
      (.recording [])).sink.kept = unboundedSections := by
    decide +kernel
  obtain rfl : sections = unboundedSections := by
    rw [recorded] at computed
    exact computed
  have cut : (traceText unboundedSections).toUTF8.extract 0 40 =
      "After eliminating implication:\n all x.so".toUTF8 := by decide +kernel
  obtain ⟨failed, left⟩ := writes.full 40 (by decide +kernel)
  rw [cut] at left
  exact ⟨recorded, failed, left⟩

end ClauseForm
