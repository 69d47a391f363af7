import ClauseForm.Proofs.Growth
import ClauseForm.Proofs.Run

/-! A run keeps account of its witnesses and its renamings, and a profile sums up what it made. -/

namespace ClauseForm

/-- A quantifier with the variable that is taken from it and the one that it is given. -/
abbrev Exchange := Quantifier × Variable × Variable

/-- What a renaming takes and gives. -/
def Renaming.exchange (r : Renaming) : Exchange := (r.quantifier, r.old, r.new)

/-- What is taken and given where the event is a renaming. -/
def Event.exchange? : Event → Option Exchange
  | .renamed q x y => some (q, x, y)
  | _ => none

/-- What is taken and given by the renamings among reports, in their order. -/
def exchanges (reports : List Report) : List Exchange :=
  reports.filterMap (·.event.exchange?)

/-- Further reports come after those that there are. -/
theorem exchanges_append (reports more : List Report) :
    exchanges (reports ++ more) = exchanges reports ++ exchanges more :=
  List.filterMap_append

/-- Reports of renamings say what these take and give. -/
theorem exchanges_renamings (renamings : List Renaming) :
    exchanges (renamings.map Renaming.report) = renamings.map Renaming.exchange := by
  -- Each report is of the event that a variable is renamed.
  rw [exchanges, List.filterMap_map, ← List.filterMap_eq_map]
  rfl

/-- Reports of witnesses are none of renamings. -/
theorem exchanges_witnesses (witnesses : List Witness) :
    exchanges (witnesses.map Witness.report) = [] := by
  -- No witness is a renaming.
  rw [exchanges, List.filterMap_map, List.filterMap_eq_nil_iff]
  intro w _
  rfl

namespace Draft

/-- The witnesses that skolemization makes for the formulas of a draft. -/
def witnesses (d : Draft) : List Witness :=
  (Formula.skolemizeAll d.formulas d.symbols).1.flatMap Skolemized.witnesses

/-- The renamings that a stage makes in the formulas of a draft. -/
def renamings (d : Draft) : Stage → List Renaming
  | .standardization => (Formula.standardizeAll d.formulas d.symbols).2.2
  | .renaming => (Formula.renameAcross d.formulas d.symbols).2.renamings
  | _ => []

end Draft

namespace Progress

/-- The accounts of a run: how many witnesses were made last, and what renamings took and gave. -/
def accounts (p : Progress) : Nat × List Exchange := (p.skolemSymbols, exchanges p.reports)

variable {config : Config} {clock : Clock} {stage : Stage} {p p' start : Progress}

/-- Tracing enters nothing into the accounts. -/
theorem accounts_trace {lines? : Option (List String)}
    (done : p.trace config stage lines? = .ok p') : p'.accounts = p.accounts := by
  unfold trace at done
  split at done
  · split at done
    · cases done
    · -- What the sink makes of the section does not matter to the run, unless it fails.
      dsimp only at done
      split at done
      · cases done
        rfl
      · cases done
  · cases done
    rfl

/-- An event that is no renaming enters nothing into the accounts. -/
theorem accounts_report (p : Progress) (event : Event) (other : event.exchange? = none) :
    (p.report event).accounts = p.accounts := by
  -- The report that is added tells of no exchange.
  have last : exchanges [{ event, symbols := p.symbols }] = [] := by
    simp [exchanges, other]
  rw [accounts, report, note, exchanges_append, last, List.append_nil]
  rfl

/-- The conclusion of a stage enters nothing into the accounts. -/
theorem accounts_conclude (done : p.conclude config clock stage = .ok p') :
    p'.accounts = p.accounts := by
  -- The conclusion traces the stage, and reports it before.
  obtain ⟨traced, first, rest⟩ := bind_eq_ok.mp done
  have finished : (p.finish clock stage).accounts = p.accounts :=
    accounts_report { p with stageTimes := _ } _ rfl
  have same : traced.accounts = p.accounts := (accounts_trace first).trans finished
  -- What follows the trace fails, or at most tells how many witnesses there are.
  split at rest
  · cases rest
  · split at rest
    · cases rest
    · split at rest
      · cases rest
        exact (accounts_report traced _ rfl).trans same
      · cases rest
        exact same

/-- The work of a stage counts the witnesses and adds the renamings that the stage makes. -/
theorem accounts_perform (done : p.perform config clock stage = .ok p') : p'.accounts =
    (if stage = .skolemization then p.draft.witnesses.length else p.skolemSymbols,
      exchanges p.reports ++ (p.draft.renamings stage).map Renaming.exchange) := by
  match stage, done with
  | .standardization, done | .renaming, done =>
    cases done
    simp only [accounts, note, exchanges_append, exchanges_renamings]
    rfl
  | .skolemization, done =>
    cases done
    -- The constants have grown by one for each witness.
    have grown := Formula.count_skolemizeAll p.formulas p.symbols .const
    rw [if_pos (Or.inl rfl)] at grown
    simp only [accounts, note, exchanges_append, exchanges_witnesses, List.append_nil, grown,
      Nat.add_sub_cancel_left]
    simp [Draft.renamings, Draft.witnesses, draft]
  | .distribution, done =>
    -- Distribution changes the formulas alone.
    rw [distribute_ok done]
    simp [accounts, Draft.renamings]
  | .implicationElimination, done | .negationNormalForm, done | .prenex, done
  | .universalStripping, done | .clauseExtraction, done =>
    cases done
    simp [accounts, Draft.renamings]

/-- A stage counts the witnesses and adds the renamings that it makes. -/
theorem accounts_advance (done : p.advance config clock stage = .ok p') : p'.accounts =
    (if stage = .skolemization then p.draft.witnesses.length else p.skolemSymbols,
      exchanges p.reports ++ (p.draft.renamings stage).map Renaming.exchange) := by
  -- Its conclusion enters nothing after its work.
  obtain ⟨worked, first, rest⟩ := bind_eq_ok.mp done
  rw [accounts_conclude rest, accounts_perform first]

/--
What holds at the outset and is passed on by every stage that succeeds holds after any number of
stages. A stage may rely on the work of those before it being done.
-/
theorem advanceFirst_induct {motive : Nat → Progress → Prop} {count : Nat}
    (within : count ≤ Stage.formulaStages.length) (outset : motive 1 start)
    (step : ∀ (stage : Stage) (p p' : Progress), motive stage.number p →
      p.draft = start.draft.afterFirst config.prenexOrder (stage.number - 1) →
      p.advance config clock stage = .ok p' → motive (stage.number + 1) p')
    (done : start.advanceFirst config clock count = .ok p) : motive (count + 1) p := by
  induction count generalizing p with
  | zero =>
    cases done
    exact outset
  | succ count ih =>
    rw [advanceFirst_succ within] at done
    obtain ⟨before, first, last⟩ := bind_eq_ok.mp done
    have held := ih (by omega) first
    have came := advanceFirst_ok (by omega) first
    -- The number of a stage is one more than the number of stages before it.
    have number := Stage.number_formulaStages within
    rw [← number] at held ⊢
    refine step _ before p held ?_ last
    rw [came, number, Nat.add_sub_cancel]

/-- A run that has come to its clauses has counted the witnesses and told of both renamings. -/
theorem accounts_advanceFirst (blank : start.accounts = (0, []))
    (done : start.advanceFirst config clock 8 = .ok p) : p.accounts =
      ((start.draft.afterFirst config.prenexOrder 4).witnesses.length,
        ((start.draft.afterFirst config.prenexOrder 2).renamings .standardization ++
          (start.draft.afterFirst config.prenexOrder 5).renamings .renaming).map
            Renaming.exchange) := by
  let made := (start.draft.afterFirst config.prenexOrder 4).witnesses.length
  let first := (start.draft.afterFirst config.prenexOrder 2).renamings .standardization
  let second := (start.draft.afterFirst config.prenexOrder 5).renamings .renaming
  -- Before its fifth stage a run has made no witnesses, and only the third and sixth rename.
  have all := advanceFirst_induct (motive := fun n p => p.accounts =
      (if 5 < n then made else 0,
        ((if 3 < n then first else []) ++ if 6 < n then second else []).map Renaming.exchange))
    (by decide) blank ?_ done
  · exact all
  · intro stage before after held came advanced
    -- The stage adds to what the stages before it have entered.
    obtain ⟨count, events⟩ := Prod.mk.inj held
    rw [accounts_advance advanced, count, events, came]
    cases stage <;> simp [Stage.number, Draft.renamings, made, first, second]

section Extracting

variable {result : Normalized} (done : p.extract config clock start = .ok (result, p'))

include done

/-- Extraction tells of no renaming. -/
theorem exchanges_extract : exchanges p'.reports = exchanges p.reports := by
  -- Only an extraction that succeeds makes a profile.
  unfold extract at done
  split at done
  · cases done
  · rename_i clauses made
    obtain ⟨traced, first, rest⟩ := bind_eq_ok.mp done
    cases rest
    -- The reports before and after the trace are of other events.
    have before := accounts_trace first
    rw [accounts_report _ _ rfl] at before
    have finished : (traced.finish clock .clauseExtraction).accounts = traced.accounts :=
      accounts_report { traced with stageTimes := _ } _ rfl
    have after := accounts_report (traced.finish clock .clauseExtraction)
      (.normalized (traced.finish clock .clauseExtraction).formulas.length clauses.length) rfl
    exact congrArg Prod.snd (after.trans (finished.trans before))

/-- Where a run counts, its profile has the counts of the run and those of its clauses. -/
theorem exists_profile_extract (counting : config.profiling = true) : ∃ counts : Profile,
    result.profile = some (counts.countClauses result.clauses) ∧
      counts.freshVariables = p.symbols.count .var - start.symbols.count .var ∧
      counts.skolemSymbols = p.skolemSymbols := by
  unfold extract at done
  split at done
  · cases done
  · -- A run that counts makes the profile in the end.
    obtain ⟨traced, first, rest⟩ := bind_eq_ok.mp done
    -- The trace in between changes neither the symbols nor the count of witnesses.
    have symbols := congrArg Draft.symbols (trace_ok first)
    have made := congrArg Prod.fst (accounts_trace first)
    cases rest
    refine ⟨_, if_pos counting, ?_, made⟩
    exact congrArg (fun table : SymbolTable => table.count .var - start.symbols.count .var) symbols

end Extracting

end Progress

section Whole

variable {config : Config} {clock : Clock} {formulas : List Formula} {symbols : SymbolTable}
  {sink : Sink} {result : Normalized}
  (succeeded : (normalize config clock formulas symbols sink).result = .ok result)

include succeeded

/-- A run tells of the renamings that standardizing and renaming across formulas make, in turn. -/
theorem exchanges_normalize : exchanges (normalize config clock formulas symbols sink).reports =
    ((Draft.afterFirst config.prenexOrder { formulas, symbols } 2).renamings .standardization ++
      (Draft.afterFirst config.prenexOrder { formulas, symbols } 5).renamings .renaming).map
        Renaming.exchange := by
  -- The stages rename, and extraction does not.
  obtain ⟨p, p', first, last, ended⟩ := exists_of_normalize succeeded
  rw [ended]
  exact (Progress.exchanges_extract last).trans
    (congrArg Prod.snd (Progress.accounts_advanceFirst rfl first))

/--
A run that counts has a profile: how much the variables have grown, how many witnesses were made,
and what can be read off the clauses.
-/
theorem exists_profile (counting : config.profiling = true) : ∃ counts : Profile,
    result.profile = some (counts.countClauses result.clauses) ∧
      counts.freshVariables = (normalize config clock formulas symbols sink).symbols.count .var -
        symbols.count .var ∧
      counts.skolemSymbols =
        (Draft.afterFirst config.prenexOrder { formulas, symbols } 4).witnesses.length := by
  -- The counts are taken from what the run has come to before extraction.
  obtain ⟨p, p', first, last, ended⟩ := exists_of_normalize succeeded
  obtain ⟨counts, shown, grown, made⟩ := Progress.exists_profile_extract last counting
  refine ⟨counts, shown, ?_, ?_⟩
  · -- Extraction keeps the symbols, so that they are those of the end.
    rw [grown, ended, ← (Progress.extract_ok last).2.2]
    rfl
  · exact made.trans (congrArg Prod.fst (Progress.accounts_advanceFirst rfl first))

end Whole

end ClauseForm
