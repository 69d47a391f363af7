import ClauseForm.Proofs.Soundness

/-! Structures that make closed formulas true can be changed on new symbols to fit the clauses. -/

namespace ClauseForm

/-- A formula is closed where it has the free variables of a closed one. -/
theorem Formula.closed_of_mem_free {f g : Formula}
    (same : ∀ z, z ∈ g.freeVariables ↔ z ∈ f.freeVariables) (closed : f.freeVariables = []) :
    g.freeVariables = [] :=
  List.eq_nil_iff_forall_not_mem.mpr fun z free => List.not_mem_nil (closed ▸ (same z).mp free)

namespace Draft

/--
What formulas need before a stage so that their existential quantifiers can be given witnesses. They
are closed until then, and until they are put in front of universal quantifiers, existential ones
depend on none of these.
-/
structure Ready (order : PrenexOrder) (n : Nat) (d : Draft) : Prop where
  closed : n ≤ 5 → ∀ f ∈ d.formulas, f.freeVariables = []
  outside : n ≤ 4 → order = .existentialsFirst →
    ∀ f ∈ d.formulas, f.pushNegation.existentialsOutside = true

variable {order : PrenexOrder} {d : Draft} {stage : Stage}

/-- A stage leaves the formulas ready for the next one. -/
theorem ready_after (prepared : d.Prepared order stage.number)
    (ready : d.Ready order stage.number) :
    (d.after order stage).Ready order (stage.number + 1) := by
  -- Each stage keeps the formulas closed, and the first three leave the nesting of quantifiers.
  match stage, prepared, ready with
  | .implicationElimination, _, ⟨closed, outside⟩ =>
    refine ⟨fun _ => List.forall_mem_map.mpr fun f listed => ?_,
      fun _ same => List.forall_mem_map.mpr fun f listed => ?_⟩
    · exact Formula.closed_of_mem_free (fun z => Formula.mem_free_eliminateImplications)
        (closed (by decide) f listed)
    · rw [Formula.pushNegation, Formula.signed_eliminateImplications]
      exact outside (by decide) same f listed
  | .negationNormalForm, _, ⟨closed, outside⟩ =>
    refine ⟨fun _ => List.forall_mem_map.mpr fun f listed => ?_,
      fun _ same => List.forall_mem_map.mpr fun f listed => ?_⟩
    · exact Formula.closed_of_mem_free (fun z => Formula.mem_free_signed true)
        (closed (by decide) f listed)
    · rw [Formula.pushNegation_of_isNegationNormal (Formula.isNegationNormal_pushNegation f)]
      exact outside (by decide) same f listed
  | .standardization, ⟨known, _⟩, ⟨closed, outside⟩ =>
    have pairs := Formula.standardizeAll_spec known
    refine ⟨fun _ => forall_of_forall₂_right pairs fun f listed g pair => ?_,
      fun _ same => forall_of_forall₂_right pairs fun f listed g pair => ?_⟩
    · exact Formula.closed_of_mem_free pair.1.free (closed (by decide) f listed)
    · -- Renaming keeps the shape, on which alone the nesting of quantifiers depends.
      have shape := (pair.1.shape.signed true).existentialsOutside
      exact shape.symm.trans (outside (by decide) same f listed)
  | .prenex, ⟨_, forms⟩, ⟨closed, _⟩ =>
    have apart := forms.apart (by decide)
    refine ⟨fun _ => List.forall_mem_map.mpr fun f listed => ?_, fun early => ?_⟩
    · exact Formula.closed_of_mem_free (fun z => Formula.mem_free_toPrenex (apart f listed))
        (closed (by decide) f listed)
    · exact absurd early (by decide)
  | .skolemization, _, _ | .renaming, _, _ | .universalStripping, _, _ | .distribution, _, _
  | .clauseExtraction, _, _ =>
    -- Nothing is asked for once witnesses have been found.
    exact ⟨fun early => absurd early (by decide), fun early => absurd early (by decide)⟩

/-- Apart from the choice of witnesses, a stage keeps formulas true. -/
theorem trueIn_after (prepared : d.Prepared order stage.number)
    (ready : d.Ready order stage.number) (other : stage ≠ .skolemization) {m : Structure}
    (holds : ∀ f ∈ d.formulas, f.TrueIn m) : ∀ g ∈ (d.after order stage).formulas, g.TrueIn m := by
  -- Each of these stages keeps what is true under all assignments.
  match stage, prepared, ready with
  | .implicationElimination, _, _ =>
    exact List.forall_mem_map.mpr fun f listed =>
      (Formula.eliminateImplications_equivalent f).trueIn.mpr (holds f listed)
  | .negationNormalForm, _, _ =>
    exact List.forall_mem_map.mpr fun f listed =>
      (Formula.pushNegation_equivalent f).trueIn.mpr (holds f listed)
  | .standardization, ⟨known, _⟩, _ =>
    exact forall_of_forall₂_right (Formula.standardizeAll_spec known) fun f listed g pair =>
      pair.1.equivalent.trueIn.mpr (holds f listed)
  | .prenex, ⟨_, forms⟩, ⟨_, outside⟩ =>
    have normal := forms.normal (by decide)
    have apart := forms.apart (by decide)
    refine List.forall_mem_map.mpr fun f listed => ?_
    cases order with
    | preserve =>
      exact (Formula.toPrenex_preserve_equivalent (normal f listed)
        (apart f listed)).trueIn.mpr (holds f listed)
    | existentialsFirst =>
      have free := outside (by decide) rfl f listed
      rw [Formula.pushNegation_of_isNegationNormal (normal f listed)] at free
      exact (Formula.toPrenex_existentialsFirst_equivalent (normal f listed)
        (apart f listed) free).trueIn.mpr (holds f listed)
  | .skolemization, _, _ => exact absurd rfl other
  | .renaming, ⟨known, _⟩, _ =>
    exact forall_of_forall₂_right (Formula.renameAcross_spec known) fun f listed g pair =>
      pair.1.equivalent.trueIn.mpr (holds f listed)
  | .universalStripping, ⟨_, forms⟩, _ =>
    have prenex := forms.prenex (by decide)
    have skolemized := forms.skolemized (by decide)
    exact List.forall_mem_map.mpr fun f listed =>
      (Formula.trueIn_stripUniversals (prenex f listed) (skolemized f listed)).mpr
        (holds f listed)
  | .distribution, _, _ =>
    exact List.forall_mem_map.mpr fun f listed =>
      (Formula.toConjunctive_equivalent f).trueIn.mpr (holds f listed)
  | .clauseExtraction, _, _ => exact holds

/-- A stage keeps formulas true with suitable meanings of the symbols that it gives out. -/
theorem exists_meanings_after (prepared : d.Prepared order stage.number)
    (ready : d.Ready order stage.number) {m : Structure} (first : Meanings m.Domain)
    (holds : ∀ f ∈ d.formulas, f.TrueIn (m.reinterpret first)) :
    ∃ second : Meanings m.Domain,
      first.DifferOnNew d.symbols (d.after order stage).symbols second ∧
      ∀ g ∈ (d.after order stage).formulas, g.TrueIn (m.reinterpret second) := by
  -- Only witnesses need new symbols with a meaning.
  by_cases witnesses : stage = .skolemization
  · subst witnesses
    obtain ⟨second, differ, kept⟩ := Formula.skolemizeAll_meanings prepared.known
      (ready.closed (by decide)) (prepared.forms.apart (by decide)) first holds
    exact ⟨second, differ, List.forall_mem_map.mpr kept⟩
  · exact ⟨first, .refl _ _ first, trueIn_after prepared ready witnesses holds⟩

/-- Any number of stages keep formulas true with suitable meanings of the new symbols. -/
theorem exists_meanings_afterFirst (known : ∀ f ∈ d.formulas, f.Known d.symbols)
    (ready : d.Ready order 1) {m : Structure} (first : Meanings m.Domain)
    (holds : ∀ f ∈ d.formulas, f.TrueIn (m.reinterpret first)) {count : Nat}
    (within : count ≤ Stage.formulaStages.length) :
    ∃ last : Meanings m.Domain,
      first.DifferOnNew d.symbols (d.afterFirst order count).symbols last ∧
      ∀ g ∈ (d.afterFirst order count).formulas, g.TrueIn (m.reinterpret last) := by
  suffices all : (d.afterFirst order count).Ready order (count + 1) ∧
      d.symbols.Grows (d.afterFirst order count).symbols ∧ ∃ last : Meanings m.Domain,
        first.DifferOnNew d.symbols (d.afterFirst order count).symbols last ∧
        ∀ g ∈ (d.afterFirst order count).formulas, g.TrueIn (m.reinterpret last) from all.2.2
  refine prepared_induct known within
    (motive := fun n e => e.Ready order n ∧ d.symbols.Grows e.symbols ∧
      ∃ last : Meanings m.Domain, first.DifferOnNew d.symbols e.symbols last ∧
        ∀ g ∈ e.formulas, g.TrueIn (m.reinterpret last))
    ⟨ready, .refl _, first, .refl _ _ first, holds⟩ ?_
  -- The meanings chosen for earlier stages are kept by later ones.
  rintro stage e prepared ⟨ready, past, middle, differ, kept⟩
  obtain ⟨last, further, true⟩ := exists_meanings_after prepared ready middle kept
  have future := grows_after order e stage
  exact ⟨ready_after prepared ready, past.trans future, last,
    differ.trans further past future, true⟩

end Draft

/--
Where a run over closed formulas succeeds, every structure that makes them true makes all clauses
true with suitable meanings of the symbols given out by the run. Where existential quantifiers are
put first, none of them may depend on a universal quantifier.
-/
theorem normalize_satisfiable {config : Config} {clock : Clock} {formulas : List Formula}
    {symbols : SymbolTable} {sink : Sink} {result : Normalized}
    (known : ∀ f ∈ formulas, f.Known symbols) (closed : ∀ f ∈ formulas, f.isClosed = true)
    (outside : config.prenexOrder = .preserve ∨
      ∀ f ∈ formulas, f.pushNegation.existentialsOutside = true)
    (succeeded : (normalize config clock formulas symbols sink).result = .ok result)
    (m : Structure) (satisfied : ∀ f ∈ formulas, f.TrueIn m) :
    ∃ meanings : Meanings m.Domain,
      m.meanings.DifferOnNew symbols (normalize config clock formulas symbols sink).symbols
        meanings ∧
      ∀ c ∈ result.clauses, c.TrueIn (m.reinterpret meanings) := by
  obtain ⟨extracted, made⟩ := normalize_ok succeeded
  have ready : Draft.Ready config.prenexOrder 1 { formulas, symbols } := by
    refine ⟨fun _ f listed => List.isEmpty_iff.mp (closed f listed), fun _ first => ?_⟩
    -- In the order that moves no existential quantifier nothing is asked for.
    refine outside.resolve_left fun preserve => ?_
    cases preserve.symm.trans first
  -- All stages on formulas keep them true, and extraction keeps what they say.
  have all : 8 ≤ Stage.formulaStages.length := by decide
  obtain ⟨meanings, differ, kept⟩ :=
    Draft.exists_meanings_afterFirst known ready m.meanings satisfied all
  rw [← made] at differ kept
  exact ⟨meanings, differ, (Formula.trueIn_extractClauses extracted).mpr kept⟩

/-- Each number has one above it, and a function can be chosen that finds it. -/
theorem normalize_satisfiable_naturals : ∃ result,
    (normalize { prenexOrder := .preserve } (.still 0) [unbounded] comparisonSymbols
      .discarding).result = .ok result ∧
    ∃ meanings : Meanings naturals.Domain,
      naturals.meanings.DifferOnNew comparisonSymbols
        (normalize { prenexOrder := .preserve } (.still 0) [unbounded] comparisonSymbols
          .discarding).symbols meanings ∧
      ∀ c ∈ result.clauses, c.TrueIn (naturals.reinterpret meanings) := by
  -- The formula is known and closed, and true in the structure.
  have succeeds : (normalize { prenexOrder := .preserve } (.still 0) [unbounded] comparisonSymbols
      .discarding).result.toOption.any (fun _ => true) = true := by decide +kernel
  have known : ∀ f ∈ [unbounded], f.Known comparisonSymbols := by decide +kernel
  have satisfied : ∀ f ∈ [unbounded], f.TrueIn naturals := by
    rw [List.forall_mem_singleton]
    intro values (d : Nat)
    -- The next number is above.
    refine ⟨d + 1, ?_⟩
    show [d, d + 1].Pairwise (· < ·)
    simp
  obtain ⟨result, succeeded, _⟩ := exists_ok_of_any succeeds
  exact ⟨result, succeeded,
    normalize_satisfiable known (by decide) (Or.inl rfl) succeeded naturals satisfied⟩

end ClauseForm
