import ClauseForm.Proofs.Interruption

/-! A run hands the same sections to every sink, which has no part in it but to refuse one. -/

namespace ClauseForm

namespace Sink

/-- The sink after sections, up to the first one that it refuses, and the cause if it does. -/
def deliver : Sink → List (Stage × List String) → Sink × Option AccessError
  | sink, [] => (sink, none)
  | sink, (stage, lines) :: sections =>
    match sink.receive stage lines with
    | (after, none) => after.deliver sections
    | (after, some cause) => (after, some cause)

variable {sink after : Sink} {first rest : List (Stage × List String)} {cause : AccessError}

/-- Where the first sections are taken, the others are delivered after them. -/
theorem deliver_append_of_taken (taken : sink.deliver first = (after, none)) :
    sink.deliver (first ++ rest) = after.deliver rest := by
  induction first generalizing sink with
  | nil =>
    cases taken
    rfl
  | cons part first ih =>
    -- A sink that refuses this section has not taken all of them.
    simp only [deliver, List.cons_append] at taken ⊢
    split at taken
    · exact ih taken
    · cases taken

/-- Where one of the first sections is refused, no other one is delivered. -/
theorem deliver_append_of_refused (refused : sink.deliver first = (after, some cause)) :
    sink.deliver (first ++ rest) = (after, some cause) := by
  induction first generalizing sink with
  | nil => cases refused
  | cons part first ih =>
    -- Either this section is refused or a later one.
    simp only [deliver, List.cons_append] at refused ⊢
    split at refused
    · exact ih refused
    · exact refused

/-- A recording sink keeps all sections. -/
theorem deliver_recording (kept sections : List (Stage × List String)) :
    (recording kept).deliver sections = (.recording (kept ++ sections), none) := by
  -- Each section comes behind those that are kept already.
  induction sections generalizing kept with
  | nil => simp [deliver]
  | cons part sections ih => simp [deliver, receive, ih]

end Sink

namespace Progress

/-- The run where it stands, with another sink. -/
def onto (p : Progress) (sink : Sink) : Progress := { p with sink }

/-- A result, with another sink in the run that has come to it. -/
def resultOnto (made : Normalized × Progress) (sink : Sink) : Normalized × Progress :=
  (made.1, made.2.onto sink)

section Relaying

variable {Made : Type} {place : Made → Sink → Made}

/-- The attempt with another sink where it has come to. -/
def divert (place : Made → Sink → Made) (sink : Sink) : Except Failure Made → Except Failure Made
  | .ok made => .ok (place made sink)
  | .error failure => .error { failure with progress := failure.progress.onto sink }

/--
An attempt that may be made with any sink, and hands some sections to it. With all sinks that take
them the attempt ends in the same way, and with any other sink it fails at the first refusal.
-/
def Relays (place : Made → Sink → Made) (attempt : Sink → Except Failure Made) : Prop :=
  ∃ sections ending, ∀ sink : Sink,
    (∃ after, sink.deliver sections = (after, none) ∧ attempt sink = divert place after ending) ∨
    ∃ cause p, sink.deliver sections = (p.sink, some cause) ∧
      attempt sink = .error { error := .access cause, progress := p }

/-- An attempt that hands nothing to its sink relays. -/
theorem relays_divert (ending : Except Failure Made) :
    Relays place fun sink => divert place sink ending :=
  ⟨[], ending, fun sink => Or.inl ⟨sink, rfl, rfl⟩⟩

/-- Attempts that relay do so one after the other. -/
theorem Relays.bind {attempt : Sink → Except Failure Progress}
    {next : Progress → Except Failure Made} (first : Relays onto attempt)
    (each : ∀ p : Progress, Relays place fun sink => next (p.onto sink)) :
    Relays place fun sink => attempt sink >>= next := by
  obtain ⟨sections, ending, begun⟩ := first
  cases ending with
  | error failure =>
    -- The second attempt is never made.
    refine ⟨sections, .error failure, fun sink => ?_⟩
    rcases begun sink with ⟨after, taken, ended⟩ | ⟨cause, p, refused, ended⟩
    · exact Or.inl ⟨after, taken, congrArg (· >>= next) ended⟩
    · exact Or.inr ⟨cause, p, refused, congrArg (· >>= next) ended⟩
  | ok p =>
    obtain ⟨further, last, went⟩ := each p
    refine ⟨sections ++ further, last, fun sink => ?_⟩
    rcases begun sink with ⟨after, taken, ended⟩ | ⟨cause, q, refused, ended⟩
    · -- What the first attempt has left of the sink is what the second one goes on with.
      have going : (attempt sink >>= next) = next (p.onto after) := congrArg (· >>= next) ended
      simpa only [Sink.deliver_append_of_taken taken, going] using went after
    · exact Or.inr ⟨cause, q, Sink.deliver_append_of_refused refused,
        congrArg (· >>= next) ended⟩

/-- An attempt still relays if what follows does not look at the sink. -/
theorem Relays.map {attempt : Sink → Except Failure Progress}
    {next : Progress → Except Failure Made} (first : Relays onto attempt)
    (unseen : ∀ (p : Progress) sink, next (p.onto sink) = divert place sink (next p)) :
    Relays place fun sink => attempt sink >>= next := by
  refine first.bind fun p => ?_
  simp only [unseen]
  exact relays_divert (next p)

end Relaying

/-- A loop relays if each of its steps does. -/
theorem relays_foldlM {Item : Type} {step : Progress → Item → Except Failure Progress}
    (each : ∀ (p : Progress) a, Relays onto fun sink => step (p.onto sink) a)
    (items : List Item) (p : Progress) :
    Relays onto fun sink => items.foldlM step (p.onto sink) := by
  -- The first step is made with any sink, and the others with what it leaves of the sink.
  induction items generalizing p with
  | nil => exact relays_divert (.ok p)
  | cons a items ih => exact (each p a).bind ih

section Steps

variable {config : Config} {clock : Clock} {stage : Stage}

/-- Tracing hands over one section, or none. -/
theorem relays_trace (lines? : Option (List String)) (p : Progress) :
    Relays onto fun sink => trace config stage lines? (p.onto sink) := by
  unfold trace
  split
  · cases lines? with
    | none =>
      -- Lines that cannot be written are not handed to any sink.
      exact relays_divert (p.fail .unknownSymbol)
    | some lines =>
      refine ⟨[(stage, lines)], .ok p, fun sink => ?_⟩
      dsimp only [Sink.deliver, onto]
      -- The sink takes the section or refuses it.
      rcases sink.receive stage lines with ⟨after, _ | cause⟩
      · exact Or.inl ⟨after, rfl, rfl⟩
      · exact Or.inr ⟨cause, p.onto after, rfl, rfl⟩
  · exact relays_divert (.ok p)

/-- Distribution does not look at the sink. -/
theorem distribute_onto (p : Progress) (sink : Sink) :
    distribute config clock (p.onto sink) = divert onto sink (p.distribute config clock) := by
  unfold distribute takeDistributed
  -- The formulas are the same, and so is everything that depends on them.
  dsimp only [onto]
  split
  · rfl
  · split <;> rfl

/-- The work of a stage does not look at the sink. -/
theorem perform_onto (p : Progress) (sink : Sink) :
    perform config clock (p.onto sink) stage =
      divert onto sink (p.perform config clock stage) := by
  -- Of the stages, distribution looks at more than formulas and symbols.
  cases stage with
  | distribution => exact distribute_onto p sink
  | _ => rfl

/-- The work of a stage leaves the sink alone, whether it succeeds or fails. -/
theorem sink_perform (p : Progress) : (reached (p.perform config clock stage)).sink = p.sink := by
  have same : p.perform config clock stage =
      divert onto p.sink (p.perform config clock stage) := perform_onto p p.sink
  -- An attempt that is diverted has the sink that it is diverted to.
  rw [same]
  cases p.perform config clock stage <;> rfl

/-- The conclusion of a stage relays what it traces. -/
theorem relays_conclude (p : Progress) :
    Relays onto fun sink => conclude config clock stage (p.onto sink) := by
  have traced : Relays onto fun sink => trace config stage
      (p.formulas.mapM (Formula.text? p.symbols)) ((p.finish clock stage).onto sink) :=
    relays_trace _ _
  refine traced.map fun t sink => ?_
  -- No check looks at the sink.
  dsimp only [onto]
  split
  · rfl
  · split
    · rfl
    · split <;> rfl

/-- A stage relays what it traces. -/
theorem relays_advance (p : Progress) (stage : Stage) :
    Relays onto fun sink => advance config clock (p.onto sink) stage := by
  -- First the stage does its work, which hands nothing over.
  have worked : Relays onto fun sink => perform config clock (p.onto sink) stage := by
    simp only [perform_onto]
    exact relays_divert _
  exact worked.bind relays_conclude

/-- Extraction relays the clauses that it traces, and sums up the run in any case. -/
theorem relays_extract (p start : Progress) :
    Relays resultOnto fun sink => extract config clock (p.onto sink) start := by
  -- Whether there are clauses is decided by the formulas alone.
  unfold extract
  dsimp only [onto]
  cases Formula.extractClauses p.formulas with
  | error operand => exact relays_divert (p.fail (.notClausal operand.inspect))
  | ok clauses =>
    have traced : Relays onto fun sink => trace config .clauseExtraction
        (clauses.mapM (Clause.text? p.symbols))
        ((p.report (.flattened p.formulas.length clauses.length)).onto sink) :=
      relays_trace _ _
    exact traced.map fun t sink => rfl

end Steps

/-- With another sink where it has ended, a run has the same outcome but for the sink. -/
theorem outcome_divert (sink : Sink) (ending : Except Failure (Normalized × Progress)) :
    outcome (divert resultOnto sink ending) = { outcome ending with sink } := by
  -- The sink is kept beside everything else.
  cases ending <;> rfl

end Progress

/-- A run that may be made with any sink, and hands these sections to it. -/
structure HandsOver (run : Sink → Outcome) (sections : List (Stage × List String)) : Prop where
  recorded : (run (.recording [])).sink = .recording sections
  /-- With a sink that takes them all, the run ends as with the recording sink. -/
  taken : ∀ {sink after}, sink.deliver sections = (after, none) →
    run sink = { run (.recording []) with sink := after }
  /-- A sink that refuses one of them ends the run there. -/
  refused : ∀ {sink after cause}, sink.deliver sections = (after, some cause) →
    (run sink).result = .error (.access cause) ∧ (run sink).sink = after

/-- Whole attempts that relay hand over the same sections to every sink. -/
theorem Progress.Relays.handsOver {attempt : Sink → Except Failure (Normalized × Progress)}
    (relays : Relays resultOnto attempt) :
    ∃ sections, HandsOver (fun sink => outcome (attempt sink)) sections := by
  obtain ⟨sections, ending, ran⟩ := relays
  have taken : ∀ {sink after}, sink.deliver sections = (after, none) →
      outcome (attempt sink) = { outcome ending with sink := after } := by
    intro sink after taken
    -- No sink both takes all sections and refuses one.
    rcases ran sink with ⟨same, took, ended⟩ | ⟨cause, p, refused, _⟩
    · rw [taken] at took
      cases took
      rw [ended, outcome_divert]
    · rw [taken] at refused
      cases congrArg Prod.snd refused
  -- The recording sink takes all sections.
  have recorded : outcome (attempt (.recording [])) =
      { outcome ending with sink := .recording sections } :=
    taken (Sink.deliver_recording [] sections)
  refine ⟨sections, by rw [recorded], fun whole => by rw [taken whole, recorded], ?_⟩
  intro sink after cause refused
  -- A sink that refuses a section ends the run with what has been done up to there.
  rcases ran sink with ⟨same, took, _⟩ | ⟨reason, p, stopped, ended⟩
  · rw [refused] at took
    cases took
  · rw [refused] at stopped
    obtain ⟨rfl, same⟩ := Prod.mk.inj stopped
    cases same
    rw [ended]
    exact ⟨rfl, rfl⟩

/-- A run hands the same sections to every sink. -/
theorem exists_handsOver (config : Config) (clock : Clock) (formulas : List Formula)
    (symbols : SymbolTable) : ∃ sections,
      HandsOver (normalize config clock formulas symbols) sections := by
  -- A run looks at nothing of its beginning but the formulas and the symbols.
  let start : Progress := { formulas, symbols, sink := .discarding }
  have staged : Progress.Relays Progress.onto fun sink =>
      Progress.advanceFirst config clock (start.onto sink) 8 :=
    Progress.relays_foldlM Progress.relays_advance _ start
  have whole : Progress.Relays Progress.resultOnto fun sink =>
      Progress.advanceFirst config clock (start.onto sink) 8 >>=
        fun p => p.extract config clock start :=
    staged.bind fun p => Progress.relays_extract p start
  exact whole.handsOver

end ClauseForm
