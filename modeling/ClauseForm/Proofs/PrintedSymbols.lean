import ClauseForm.Proofs.Interruption
import ClauseForm.Proofs.Soundness
import ClauseForm.Proofs.SymbolMaps

/-! Whatever a run reports, traces or answers, each symbol printed has a name at that moment. -/

namespace ClauseForm

section InUse

/-- The symbols in use have numbers below the number of names of their kind. -/
def SymbolTable.inUse (table : SymbolTable) : SymbolSet := fun kind => {s | s.id < table.count kind}

variable {table : SymbolTable}

/-- The symbols in use are those that have names. -/
theorem SymbolTable.inUse_eq_known (table : SymbolTable) : table.inUse = table.known := by
  -- The numbers that carry names are those below the size.
  funext kind
  ext s
  exact knows_iff.symm

/-- A term is over symbols in use if it is known. -/
theorem Term.over_inUse_iff {t : Term} : t.Over table.inUse ↔ t.Known table := by
  -- To be known is to be over the symbols that have names.
  rw [table.inUse_eq_known, known_iff_over]

/-- A formula is over symbols in use if it is known. -/
theorem Formula.over_inUse_iff {f : Formula} : f.Over table.inUse ↔ f.Known table := by
  rw [table.inUse_eq_known, known_iff_over]

/-- A clause is over symbols in use if it is known. -/
theorem Clause.over_inUse_iff {c : Clause} : c.Over table.inUse ↔ c.Known table := by
  rw [table.inUse_eq_known, known_iff_over]

end InUse

/-- Events whose symbols all belong to a set. -/
def Event.Over (range : SymbolSet) : Event → Prop
  | .renamed _ x y => x ∈ range .var ∧ y ∈ range .var
  | .witnessed x witness => x ∈ range .var ∧ witness.Over range
  -- All other events involve stages and numbers only.
  | _ => True

/-- An event over symbols in use has a message. -/
theorem Event.Over.message {event : Event} {table : SymbolTable}
    (inUse : event.Over table.inUse) : (event.message? table).isSome := by
  cases event with
  | renamed q x y =>
    -- Both variables have names.
    obtain ⟨old, new⟩ := inUse
    obtain ⟨first, one⟩ := Option.isSome_iff_exists.mp (SymbolTable.knows_iff.mpr old)
    obtain ⟨second, two⟩ := Option.isSome_iff_exists.mp (SymbolTable.knows_iff.mpr new)
    simp [message?, one, two]
  | witnessed x witness =>
    -- The variable has a name, and the witness has a text.
    obtain ⟨bound, term⟩ := inUse
    obtain ⟨first, one⟩ := Option.isSome_iff_exists.mp (SymbolTable.knows_iff.mpr bound)
    obtain ⟨second, two⟩ := Option.isSome_iff_exists.mp (Term.over_inUse_iff.mp term).named
    simp [message?, Term.text?, one, two]
  | _ => rfl

/-- A report made between two states of a table, of an event over symbols in use at that moment. -/
structure Report.Timely (before after : SymbolTable) (r : Report) : Prop where
  inUse : r.event.Over r.symbols.inUse
  past : before.Grows r.symbols
  future : r.symbols.Grows after

namespace Report.Timely

variable {a b c : SymbolTable} {r : Report}

/-- A timely report can be printed as a line. -/
theorem line (timely : r.Timely a b) : r.line?.isSome := by
  -- The line is the message of the event.
  simpa [Report.line?] using timely.inUse.message

/-- A timely report stays timely when the table grows further. -/
theorem later (timely : r.Timely a b) (grows : b.Grows c) : r.Timely a c :=
  { timely with future := timely.future.trans grows }

/-- A timely report has been made since any earlier state of the table. -/
theorem earlier (timely : r.Timely b c) (grows : a.Grows b) : r.Timely a c :=
  { timely with past := grows.trans timely.past }

end Report.Timely

section Renamings

/-- Namings whose renamings have been made since a state of the table, over symbols then in use. -/
def Naming.Reported (base : SymbolTable) (naming : Naming) : Prop :=
  ∀ r ∈ naming.renamings, r.report.Timely base naming.symbols

variable {base symbols : SymbolTable} {naming : Naming} {fs : List Formula}

/-- A settled quantifier is reported when its old and its new variable are in use. -/
theorem Naming.Reported.settle (reported : naming.Reported base) (past : base.Grows naming.symbols)
    (claims : Quantifier → Bool) (q : Quantifier) {x : Variable} (known : naming.symbols.Knows x) :
    (naming.settle claims q x).2.Reported base := by
  -- A quantifier is renamed only if it claims a variable that is taken.
  rw [Naming.settle, Naming.claim]
  split
  · split
    · -- The report comes after the new variable has been made.
      have grows := naming.symbols.grows_freshVariable
      have new := naming.symbols.freshVariable_new.2
      intro r listed
      rcases List.mem_append.mp listed with old | last
      · exact (reported r old).later grows
      · obtain rfl := List.mem_singleton.mp last
        have before := grows.knows known
        exact { inUse := ⟨SymbolTable.knows_iff.mp before, SymbolTable.knows_iff.mp new⟩
                past := past.trans grows
                future := .refl _ }
    · exact reported
  · exact reported

/-- Every renaming of a walk over a known formula is reported in time. -/
theorem Formula.Known.reported_claimBinders {f : Formula} (claims : Quantifier → Bool)
    (known : f.Known naming.symbols) (reported : naming.Reported base)
    (past : base.Grows naming.symbols) (names : Variable → Variable) :
    (f.claimBinders claims names naming).2.Reported base := by
  -- The table grows along the walk, so that what is known at the start is known at each quantifier.
  induction f generalizing names naming with
  | atom a => exact reported
  | not f ih => exact ih known reported past names
  | binary op l r left right =>
    have grows := l.claimBinders_grows claims names naming
    have first := left known.1 reported past names
    exact right (known.2.grows grows) first (past.trans grows) names
  | quantified q x f ih =>
    have grows := naming.settle_grows claims q x
    have first := reported.settle past claims q known.1
    exact ih (known.2.grows grows) first (past.trans grows) _

/-- Every renaming is reported in time when known formulas are standardized. -/
theorem Formula.timely_standardizeAll (known : ∀ f ∈ fs, f.Known symbols) :
    ∀ r ∈ (standardizeAll fs symbols).2.2,
      r.report.Timely symbols (standardizeAll fs symbols).2.1 := by
  -- What later formulas report is reported since the state before the first one as well.
  induction fs generalizing symbols with
  | nil =>
    intro r listed
    cases listed
  | cons f fs ih =>
    have grows := f.standardize_grows symbols
    intro r listed
    rcases List.mem_append.mp listed with first | later
    · -- The renamings of the first formula come before the table grows with the others.
      let naming : Naming := { taken := f.freeVariables, symbols }
      have none : naming.Reported symbols := by simp [naming, Naming.Reported]
      have member : f.Known naming.symbols := known f (by simp)
      have reported : (f.standardize symbols).2.Reported symbols :=
        member.reported_claimBinders _ none (.refl _) _
      exact (reported r first).later (standardizeAll_grows fs _)
    · -- The others start from the table that the first one leaves.
      refine (ih (fun g member => ?_) r later).earlier grows
      exact (known g (by simp [member])).grows grows

/-- Every renaming is reported in time when known formulas claim variables from one supply. -/
theorem Formula.reported_claimUniversals (known : ∀ f ∈ fs, f.Known naming.symbols)
    (reported : naming.Reported base) (past : base.Grows naming.symbols) :
    (claimUniversals fs naming).2.Reported base := by
  -- The naming is handed on from each formula to the next one.
  induction fs generalizing naming with
  | nil => exact reported
  | cons f fs ih =>
    have grows := f.claimBinders_grows (· == .universal) id naming
    have first := (known f (by simp)).reported_claimBinders (· == .universal) reported past id
    exact ih (fun g member => (known g (by simp [member])).grows grows) first (past.trans grows)

end Renamings

section Witnesses

variable {symbols : SymbolTable}

/-- Every witness is reported in time, when it has been made but not put in place yet. -/
theorem Formula.Known.timely_skolemizeIn {f : Formula} {scope : List Variable}
    (known : f.Known symbols) (inScope : ∀ x ∈ scope, symbols.Knows x) :
    ∀ w ∈ (f.skolemizeIn scope symbols).witnesses,
      w.report.Timely symbols (f.skolemizeIn scope symbols).symbols := by
  -- The cases are those of the function, which goes through the quantifiers in front.
  fun_induction skolemizeIn f scope symbols with
  | case1 x f scope symbols term after made rest ih =>
    have grows := freshWitness_grows made
    have named := freshWitness_known made inScope
    have further : after.Grows rest.symbols := ((f.substitute x term).skolemizes scope after).grows
    intro w listed
    rcases List.mem_cons.mp listed with rfl | later
    -- The quantifier comes before its scope, and is known.
    · have before := grows.knows known.1
      exact { inUse := ⟨SymbolTable.knows_iff.mp before, Term.over_inUse_iff.mpr named⟩
              past := grows
              future := further }
    · have body : (f.substitute x term).Known after := (known.2.grows grows).substitute named
      refine (ih body (fun y inside => ?_) w later).earlier grows
      exact grows.knows (inScope y inside)
  -- A universal quantifier adds its variable to the scope.
  | case2 x f scope symbols rest ih =>
    refine ih known.2 fun y inside => ?_
    rcases mem_extendScope.mp inside with old | rfl
    · exact inScope y old
    · exact known.1
  | case3 f scope symbols existential universal =>
    intro w listed
    cases listed

/-- Every witness is reported in time when known formulas are Skolemized. -/
theorem Formula.timely_skolemizeAll {fs : List Formula} (known : ∀ f ∈ fs, f.Known symbols) :
    ∀ w ∈ (skolemizeAll fs symbols).1.flatMap Skolemized.witnesses,
      w.report.Timely symbols (skolemizeAll fs symbols).2 := by
  -- The table grows from one formula to the next.
  induction fs generalizing symbols with
  | nil =>
    intro w listed
    cases listed
  | cons f fs ih =>
    have grows := (f.skolemizes [] symbols).grows
    intro w listed
    rcases List.mem_append.mp listed with first | later
    · have timely : w.report.Timely symbols (f.skolemizeIn [] symbols).symbols :=
        (known f (by simp)).timely_skolemizeIn (by simp) w first
      exact timely.later (skolemizeAll_grows fs _)
    · refine (ih (fun g member => ?_) w later).earlier grows
      exact (known g (by simp [member])).grows grows

end Witnesses

/--
A section that shows what a stage has made of a draft. The symbols shown are those in use after that
stage.
-/
inductive Draft.Shows (order : PrenexOrder) (d : Draft) : Stage × List String → Prop
  | formulas {count : Nat} (within : count < Stage.formulaStages.length) {e : Draft}
      (made : e = d.afterFirst order (count + 1))
      (inUse : ∀ f ∈ e.formulas, f.Over e.symbols.inUse) {lines : List String}
      (written : e.formulas.mapM (Formula.text? e.symbols) = some lines) :
    Shows order d (Stage.formulaStages[count], lines)
  | clauses {e : Draft} (made : e = d.afterFirst order Stage.formulaStages.length)
      {cs : List Clause} (taken : Formula.extractClauses e.formulas = .ok cs)
      (inUse : ∀ c ∈ cs, c.Over e.symbols.inUse) {lines : List String}
      (written : cs.mapM (Clause.text? e.symbols) = some lines) :
    Shows order d (.clauseExtraction, lines)

namespace Progress

/-- A run that has come somewhere and has printed no symbol on the way that had no name then. -/
structure Resolves (p : Progress) (order : PrenexOrder) (start : Progress) : Prop where
  formulas : ∀ f ∈ p.formulas, f.Over p.symbols.inUse
  grows : start.symbols.Grows p.symbols
  reports : ∀ r ∈ p.reports, r.Timely start.symbols p.symbols
  /-- The sink has been handed sections that show what stages have made. -/
  sections : ∃ sections, p.sink = start.sink.receiveAll sections ∧
    ∀ part ∈ sections, start.draft.Shows order part

/-- An attempt to go on, which resolves all symbols and never fails for want of a name. -/
structure AttemptResolves (order : PrenexOrder) (start : Progress)
    (attempt : Except Failure Progress) : Prop where
  resolves : (reached attempt).Resolves order start
  named : ∀ failure, attempt = .error failure → failure.error ≠ .unknownSymbol

section Steps

variable {order : PrenexOrder} {start p q : Progress}

/-- A run that has not begun has printed nothing. -/
theorem Resolves.refl (known : ∀ f ∈ start.formulas, f.Known start.symbols)
    (fresh : start.reports = []) : start.Resolves order start where
  formulas f listed := Formula.over_inUse_iff.mpr (known f listed)
  grows := .refl _
  reports := by simp [fresh]
  sections := ⟨[], rfl, by simp⟩

/-- A run goes on resolving symbols if it hands nothing to its sink and reports in time. -/
theorem Resolves.goOn (resolves : p.Resolves order start)
    (formulas : ∀ f ∈ q.formulas, f.Over q.symbols.inUse) (grows : p.symbols.Grows q.symbols)
    (reports : ∀ r ∈ q.reports, r ∈ p.reports ∨ r.Timely p.symbols q.symbols)
    (sink : q.sink = p.sink) : q.Resolves order start where
  formulas := formulas
  grows := resolves.grows.trans grows
  reports r listed := by
    -- Old reports stay timely when the table grows.
    rcases reports r listed with old | new
    · exact (resolves.reports r old).later grows
    · exact new.earlier resolves.grows
  sections := sink ▸ resolves.sections

/-- An event over symbols in use may be reported where the run stands. -/
theorem Resolves.report (resolves : p.Resolves order start) (event : Event)
    (inUse : event.Over p.symbols.inUse) : (p.report event).Resolves order start := by
  -- The table is the same, and nothing is handed to the sink.
  refine resolves.goOn resolves.formulas (.refl _) (fun r listed => ?_) rfl
  rcases List.mem_append.mp listed with old | last
  · exact Or.inl old
  · obtain rfl := List.mem_singleton.mp last
    exact Or.inr ⟨inUse, .refl _, .refl _⟩

/-- A stage is reported without any symbol. -/
theorem Resolves.finish (resolves : p.Resolves order start) (clock : Clock) (stage : Stage) :
    (p.finish clock stage).Resolves order start := by
  -- First the time is noted, and then the stage is reported.
  let times := Profile.noteTime stage (clock.finished stage - clock.started stage) p.stageTimes
  have noted : Resolves { p with stageTimes := times } order start :=
    resolves.goOn resolves.formulas (.refl _) (fun r listed => Or.inl listed) rfl
  exact noted.report (.stageDone stage) trivial

/-- A run that goes on has not failed at all. -/
theorem AttemptResolves.ok (resolves : p.Resolves order start) :
    AttemptResolves order start (.ok p) := by
  -- No failure is a success.
  refine ⟨resolves, fun failure failed => ?_⟩
  cases failed

/-- A run may fail where it stands, but not for want of a name. -/
theorem AttemptResolves.fail (resolves : p.Resolves order start) {error : Error}
    (other : error ≠ .unknownSymbol) : AttemptResolves order start (p.fail error) := by
  -- The failure is the one that was given.
  refine ⟨resolves, fun failure failed => ?_⟩
  cases failed
  exact other

/-- A run may report why it fails in terms of symbols in use. -/
theorem AttemptResolves.failReporting (resolves : p.Resolves order start) {event : Event}
    {error : Error} (inUse : event.Over p.symbols.inUse) (other : error ≠ .unknownSymbol) :
    AttemptResolves order start (p.failReporting event error) :=
  .fail (resolves.report event inUse) other

/-- Attempts that resolve all symbols do so one after the other. -/
theorem AttemptResolves.bind {attempt : Except Failure Progress}
    {next : Progress → Except Failure Progress} (first : AttemptResolves order start attempt)
    (each : ∀ p, attempt = .ok p → p.Resolves order start →
      AttemptResolves order start (next p)) :
    AttemptResolves order start (attempt >>= next) := by
  cases attempt with
  | error failure =>
    -- The second attempt is never made.
    exact ⟨first.resolves, fun other failed => first.named other failed⟩
  | ok p => exact each p rfl first.resolves

end Steps

section Stages

variable {config : Config} {clock : Clock} {stage : Stage} {start p : Progress}

/-- Distribution prints no symbol, and where it fails it leaves the formulas as they were. -/
theorem Resolves.distribute (resolves : p.Resolves config.prenexOrder start)
    (inUse : ∀ f ∈ p.formulas.map Formula.toConjunctive, f.Over p.symbols.inUse) :
    AttemptResolves config.prenexOrder start (p.distribute config clock) := by
  unfold Progress.distribute
  cases made : distributeAll config.budget clock 0 p.formulas with
  | error overrun =>
    -- Neither cause of the failure, nor what is reported of it, has symbols in it.
    cases overrun with
    | late => exact .failReporting resolves trivial nofun
    | tooMany count => exact .failReporting resolves trivial nofun
  | ok fs =>
    -- The clauses in total are counted in the end.
    dsimp only [takeDistributed]
    split
    · exact .failReporting resolves trivial nofun
    · rw [distributeAll_ok made]
      exact .ok (resolves.goOn inUse (.refl _) (fun r listed => Or.inl listed) rfl)

/-- The work of a stage resolves all symbols if what it makes is known. -/
theorem Resolves.perform (resolves : p.Resolves config.prenexOrder start)
    (known : ∀ f ∈ (p.draft.after config.prenexOrder stage).formulas,
      f.Known (p.draft.after config.prenexOrder stage).symbols) :
    AttemptResolves config.prenexOrder start (p.perform config clock stage) := by
  have before : ∀ f ∈ p.formulas, f.Known p.symbols := fun f listed =>
    Formula.over_inUse_iff.mp (resolves.formulas f listed)
  have inUse := fun f listed => Formula.over_inUse_iff.mpr (known f listed)
  have grows := p.draft.grows_after config.prenexOrder stage
  -- The three stages that give out symbols report each of them, and the others report none.
  match stage, inUse, grows with
  | .standardization, inUse, grows =>
    refine .ok (resolves.goOn inUse grows (fun r listed => ?_) rfl)
    refine (List.mem_append.mp listed).imp_right fun new => ?_
    obtain ⟨renamed, made, rfl⟩ := List.mem_map.mp new
    exact Formula.timely_standardizeAll before renamed made
  | .skolemization, inUse, grows =>
    refine .ok (resolves.goOn inUse grows (fun r listed => ?_) rfl)
    refine (List.mem_append.mp listed).imp_right fun new => ?_
    obtain ⟨witness, made, rfl⟩ := List.mem_map.mp new
    exact Formula.timely_skolemizeAll before witness made
  | .renaming, inUse, grows =>
    refine .ok (resolves.goOn inUse grows (fun r listed => ?_) rfl)
    refine (List.mem_append.mp listed).imp_right fun new => ?_
    obtain ⟨renamed, made, rfl⟩ := List.mem_map.mp new
    have none : Naming.Reported p.symbols { taken := [], symbols := p.symbols } := by
      simp [Naming.Reported]
    exact Formula.reported_claimUniversals before none (.refl _) renamed made
  | .distribution, inUse, grows => exact resolves.distribute inUse
  | .implicationElimination, inUse, grows | .negationNormalForm, inUse, grows
  | .prenex, inUse, grows | .universalStripping, inUse, grows
  | .clauseExtraction, inUse, grows =>
    exact .ok (resolves.goOn inUse grows (fun r listed => Or.inl listed) rfl)

/-- Tracing resolves all symbols if there are lines, which show what a stage has made. -/
theorem Resolves.trace {order : PrenexOrder} (resolves : p.Resolves order start)
    {lines? : Option (List String)} (named : lines?.isSome)
    (shows : ∀ lines, lines? = some lines → start.draft.Shows order (stage, lines)) :
    AttemptResolves order start (p.trace config stage lines?) := by
  obtain ⟨lines, rfl⟩ := Option.isSome_iff_exists.mp named
  -- Whether or not the sink takes the section, it has been handed one more.
  have handed : Resolves { p with sink := (p.sink.receive stage lines).1 } order start := by
    obtain ⟨sections, came, all⟩ := resolves.sections
    refine { resolves with sections := ⟨sections ++ [(stage, lines)], ?_, ?_⟩ }
    · simp [Sink.receiveAll, came]
    · intro part listed
      rcases List.mem_append.mp listed with old | last
      · exact all part old
      · obtain rfl := List.mem_singleton.mp last
        exact shows lines rfl
  unfold Progress.trace
  split
  · dsimp only
    split
    · exact .ok handed
    · exact .fail handed nofun
  · -- Without tracing the sink is not asked.
    exact .ok resolves

/-- The conclusion of a stage resolves all symbols of what the stage has made. -/
theorem Resolves.conclude {count : Nat} (within : count < Stage.formulaStages.length)
    (resolves : p.Resolves config.prenexOrder start)
    (came : p.draft = start.draft.afterFirst config.prenexOrder (count + 1)) :
    AttemptResolves config.prenexOrder start
      (p.conclude config clock Stage.formulaStages[count]) := by
  have known : ∀ f ∈ p.formulas, f.Known p.symbols := fun f listed =>
    Formula.over_inUse_iff.mp (resolves.formulas f listed)
  have named : (p.formulas.mapM (Formula.text? p.symbols)).isSome :=
    isSome_mapM fun f listed => (known f listed).text
  have traced : AttemptResolves config.prenexOrder start
      ((p.finish clock Stage.formulaStages[count]).trace config Stage.formulaStages[count]
        (p.formulas.mapM (Formula.text? p.symbols))) :=
    (resolves.finish clock _).trace named fun lines written =>
      .formulas within came resolves.formulas written
  -- After the trace a run tells nothing but stages and numbers.
  refine traced.bind fun t _ resolves => ?_
  split
  · exact .fail resolves nofun
  · split
    · exact .failReporting resolves trivial nofun
    · split
      · exact .ok (resolves.report (.skolemSymbols _) trivial)
      · exact .ok resolves

end Stages

section Runs

variable {config : Config} {clock : Clock} {start p : Progress} {count : Nat}

/-- A run through the first stages resolves all symbols, wherever it stops. -/
theorem resolves_advanceFirst (known : ∀ f ∈ start.formulas, f.Known start.symbols)
    (fresh : start.reports = []) (within : count ≤ Stage.formulaStages.length) :
    AttemptResolves config.prenexOrder start (start.advanceFirst config clock count) := by
  -- Nothing is done before the first stage.
  induction count with
  | zero => exact .ok (.refl known fresh)
  | succ count ih =>
    rw [advanceFirst_succ within]
    refine (ih (by omega)).bind fun p before resolves => ?_
    -- The stage works on what the stages before it have made of known formulas.
    have came := advanceFirst_ok (Nat.le_of_lt within) before
    have next : start.draft.afterFirst config.prenexOrder (count + 1) =
        p.draft.after config.prenexOrder Stage.formulaStages[count] := by
      rw [Draft.afterFirst_succ within, came]
    have prepared : (start.draft.afterFirst config.prenexOrder (count + 1)).Prepared
        config.prenexOrder (count + 1 + 1) := Draft.prepared_afterFirst known within
    rw [next] at prepared
    refine (resolves.perform prepared.known).bind fun q done resolves => ?_
    exact resolves.conclude within ((perform_ok done).trans next.symm)

end Runs

end Progress

/--
A run over a draft that has printed no symbol without a name. Reports have been made, and sections
have been handed to the sink, over symbols in use at that moment, and so is the answer in the end.
-/
structure Outcome.Resolves (run : Outcome) (order : PrenexOrder) (d : Draft) (sink : Sink) :
    Prop where
  reports : ∀ r ∈ run.reports, r.Timely d.symbols run.symbols ∧ r.line?.isSome
  sections : ∃ sections, run.sink = sink.receiveAll sections ∧
    ∀ part ∈ sections, d.Shows order part
  /-- The run has not failed for want of a name. -/
  named : ∀ error, run.result = .error error → error ≠ .unknownSymbol
  formulas : ∀ made, run.result = .ok made → ∀ f ∈ made.formulas, f.Over run.symbols.inUse
  clauses : ∀ made, run.result = .ok made → ∀ c ∈ made.clauses, c.Over run.symbols.inUse ∧
    (c.text? run.symbols).isSome ∧ (c.named? run.symbols).isSome

namespace Progress

variable {config : Config} {clock : Clock} {formulas : List Formula} {symbols : SymbolTable}
  {sink : Sink} {start p : Progress}

/-- A run that fails leaves what it has resolved up to there. -/
theorem AttemptResolves.outcome {failure : Failure}
    (failed : AttemptResolves config.prenexOrder start (.error failure)) :
    (outcome (.error failure)).Resolves config.prenexOrder start.draft start.sink where
  reports r listed := ⟨failed.resolves.reports r listed, (failed.resolves.reports r listed).line⟩
  sections := failed.resolves.sections
  named error same := by
    cases same
    exact failed.named failure rfl
  formulas := nofun
  clauses := nofun

/-- A run that succeeds answers with symbols in use. -/
theorem Resolves.outcome {result : Normalized} (resolves : p.Resolves config.prenexOrder start)
    (formulas : result.formulas = p.formulas) (clauses : ∀ c ∈ result.clauses, c.Known p.symbols) :
    (outcome (.ok (result, p))).Resolves config.prenexOrder start.draft start.sink where
  -- Reports and sections stay, and formulas and clauses are those of the result.
  reports r listed := ⟨resolves.reports r listed, (resolves.reports r listed).line⟩
  sections := resolves.sections
  named := nofun
  formulas made same := by
    cases same
    exact formulas ▸ resolves.formulas
  clauses made same c listed := by
    cases same
    have known := clauses c listed
    exact ⟨Clause.over_inUse_iff.mpr known, known.text, known.named⟩

/-- The last step of a run may resolve its symbols after those of the steps before it. -/
theorem AttemptResolves.outcome_bind {attempt : Except Failure Progress}
    {next : Progress → Except Failure (Normalized × Progress)}
    (first : AttemptResolves config.prenexOrder start attempt)
    (each : ∀ p, attempt = .ok p → p.Resolves config.prenexOrder start →
      (Progress.outcome (next p)).Resolves config.prenexOrder start.draft start.sink) :
    (Progress.outcome (attempt >>= next)).Resolves config.prenexOrder start.draft start.sink := by
  -- A failure is the end of the run, and otherwise its last step decides.
  cases attempt with
  | error failure => exact first.outcome
  | ok p => exact each p rfl first.resolves

/-- Extraction resolves all symbols of the clauses, whether or not it succeeds. -/
theorem Resolves.extract (resolves : p.Resolves config.prenexOrder start)
    (came : p.draft = start.draft.afterFirst config.prenexOrder Stage.formulaStages.length) :
    (Progress.outcome (p.extract config clock start)).Resolves config.prenexOrder start.draft
      start.sink := by
  have known : ∀ f ∈ p.formulas, f.Known p.symbols := fun f listed =>
    Formula.over_inUse_iff.mp (resolves.formulas f listed)
  unfold Progress.extract
  split
  · -- An operand that is no clause is shown with numbers.
    rename_i operand _
    have failed : AttemptResolves config.prenexOrder start
        (p.fail (.notClausal operand.inspect)) := .fail resolves nofun
    exact failed.outcome
  · -- The clauses are known, as they have only symbols of the formulas.
    rename_i clauses taken
    have clear := Formula.known_extractClauses known taken
    have named : (clauses.mapM (Clause.text? p.symbols)).isSome :=
      isSome_mapM fun c listed => (clear c listed).text
    have counted := resolves.report (.flattened p.formulas.length clauses.length) trivial
    have traced : AttemptResolves config.prenexOrder start
        ((p.report (.flattened p.formulas.length clauses.length)).trace config .clauseExtraction
          (clauses.mapM (Clause.text? p.symbols))) :=
      counted.trace named fun lines written => .clauses came taken
        (fun c listed => Clause.over_inUse_iff.mpr (clear c listed)) written
    -- The trace leaves the table alone, in which the clauses are known.
    refine traced.outcome_bind fun t done resolves => ?_
    have same := trace_ok done
    have formulas : p.formulas = t.formulas := (congrArg Draft.formulas same).symm
    have symbols : p.symbols = t.symbols := (congrArg Draft.symbols same).symm
    have finished := (resolves.finish clock .clauseExtraction).report
      (.normalized t.formulas.length clauses.length) trivial
    exact finished.outcome rfl (symbols ▸ clear)

end Progress

/--
Every symbol is in use wherever a run over known formulas prints it, whether the run succeeds or
fails: in what each stage leaves, in reports and sections at the moment when they are made, and in
the formulas and clauses of the result.
-/
theorem normalize_resolves (config : Config) (clock : Clock) {formulas : List Formula}
    {symbols : SymbolTable} (sink : Sink) (known : ∀ f ∈ formulas, f.Known symbols) :
    (∀ count ≤ Stage.formulaStages.length, ∀ p : Progress, p = Progress.reached
        (Progress.advanceFirst config clock { formulas, symbols, sink } count) →
      ∀ f ∈ p.formulas, f.Over p.symbols.inUse) ∧
    (normalize config clock formulas symbols sink).Resolves config.prenexOrder
      { formulas, symbols } sink := by
  let start : Progress := { formulas, symbols, sink }
  constructor
  · -- The stages decide about what each of them leaves.
    rintro count within p rfl
    have stages : Progress.AttemptResolves config.prenexOrder start
        (start.advanceFirst config clock count) :=
      Progress.resolves_advanceFirst known rfl within
    exact stages.resolves.formulas
  · -- Extraction follows all stages.
    rw [normalize_eq]
    have stages : Progress.AttemptResolves config.prenexOrder start
        (start.advanceFirst config clock 8) :=
      Progress.resolves_advanceFirst known rfl le_rfl
    exact stages.outcome_bind fun p done resolves =>
      resolves.extract (Progress.advanceFirst_ok le_rfl done)

/-- A sink that refuses the fifth section, where Skolem functions are first shown. -/
def refusingFifth : Sink :=
  .other (fun sections => if sections.length < 5 then none else some .sinkFull) []

/-- A run that is stopped after it has given out Skolem functions has printed them with names. -/
theorem normalize_resolves_refused :
    (normalize { trace := true } (.still 0) [unbounded, unbounded] comparisonSymbols
      refusingFifth).result.toOption.isNone = true ∧
    (normalize { trace := true } (.still 0) [unbounded, unbounded] comparisonSymbols
      refusingFifth).Resolves .existentialsFirst
        { formulas := [unbounded, unbounded], symbols := comparisonSymbols } refusingFifth := by
  have known : ∀ f ∈ [unbounded, unbounded], f.Known comparisonSymbols := by decide +kernel
  have stopped : (normalize { trace := true } (.still 0) [unbounded, unbounded] comparisonSymbols
      refusingFifth).result.toOption.isNone = true := by
    decide +kernel
  -- What is printed does not depend on how the run ends.
  obtain ⟨_, resolves⟩ := normalize_resolves { trace := true } (.still 0) refusingFifth known
  exact ⟨stopped, resolves⟩

end ClauseForm
