import ClauseForm.Proofs.Growth
import ClauseForm.Proofs.Profiles

/-! What a profile says of witnesses and new variables can be counted on the formulas given. -/

namespace ClauseForm

namespace Formula

/-- The negation normal forms of formulas. -/
def negationNormals (fs : List Formula) : List Formula :=
  fs.map fun f => f.eliminateImplications.pushNegation

/--
How many variables are given out for formulas: one for each quantifier within a formula that cannot
have its own, and one for each formula but one that would keep a variable universally bound.
-/
def freshlyNamed (fs : List Formula) : Nat :=
  (fs.map repeats).sum +
    ∑ x ∈ (fs.flatMap boundVariables).toFinset, (fs.countP (bindsFirstByAll x) - 1)

end Formula

namespace Draft

open Formula

variable (order : PrenexOrder) {d : Draft} {x : Variable}

/-- Before standardizing, a run makes the negation normal forms of its formulas. -/
theorem formulas_afterFirst_two (d : Draft) :
    (d.afterFirst order 2).formulas = negationNormals d.formulas := List.map_map

/-- Between standardizing and renaming, the variables bound universally stay the same. -/
theorem universals_afterFirst_five :
    ((d.afterFirst order 5).formulas.flatMap universals).Perm
      ((d.afterFirst order 3).formulas.flatMap universals) := by
  -- Neither witnesses nor the order of quantifiers matter for universal quantifiers.
  have kept : (d.afterFirst order 5).formulas.flatMap universals =
      (d.afterFirst order 4).formulas.flatMap universals :=
    flatMap_universals_skolemizeAll _ _
  have moved : (d.afterFirst order 4).formulas.flatMap universals =
      (d.afterFirst order 3).formulas.flatMap fun f => (f.toPrenex order).universals :=
    List.flatMap_map _ _ _
  rw [kept, moved]
  exact List.Perm.flatMap_left _ fun f _ => universals_toPrenex_perm order f

/-- A run gives out a constant and a function for each witness. -/
theorem count_afterFirst_eight {kind : Kind} (pair : kind = .const ∨ kind = .func) :
    (d.afterFirst order 8).symbols.count kind =
      d.symbols.count kind + (d.afterFirst order 4).witnesses.length := by
  -- No kind of a Skolem symbol is that of variables.
  have other : kind ≠ .var := by
    rintro rfl
    rcases pair with pair | pair <;> cases pair
  -- Variables are given out before and after, and nothing else.
  have renamed : (d.afterFirst order 8).symbols.count kind =
      (d.afterFirst order 5).symbols.count kind := count_claimUniversals _ _ other
  have witnessed : (d.afterFirst order 5).symbols.count kind =
      (d.afterFirst order 3).symbols.count kind + (d.afterFirst order 4).witnesses.length :=
    (count_skolemizeAll _ _ kind).trans (congrArg (_ + ·) (if_pos pair))
  have standardized : (d.afterFirst order 3).symbols.count kind = d.symbols.count kind := by
    show ((d.afterFirst order 2).after order .standardization).symbols.count kind = _
    rw [after_standardization]
    exact count_thread_standardizing _ _ other
  rw [renamed, witnessed, standardized]

section Counting

variable (known : ∀ f ∈ d.formulas, f.Known d.symbols)

include known

/-- The negation normal forms are known. -/
theorem known_negationNormals : ∀ f ∈ negationNormals d.formulas, f.Known d.symbols :=
  List.forall_mem_map.mpr fun f listed => (known f listed).eliminateImplications.signed true

/-- A variable that a negation normal form binds is known. -/
theorem knows_of_bound
    (bound : x ∈ ((negationNormals d.formulas).flatMap boundVariables).toFinset) :
    d.symbols.Knows x := by
  -- It stands at a quantifier of a known formula.
  obtain ⟨f, listed, inside⟩ := List.mem_flatMap.mp (List.mem_toFinset.mp bound)
  obtain ⟨b, member, rfl⟩ := List.mem_map.mp inside
  exact (known_negationNormals known f listed).binders b member

/-- How often a variable is bound universally is what the negation normal forms say, if known. -/
theorem count_universals_afterFirst_five (familiar : d.symbols.Knows x) :
    ((d.afterFirst order 5).formulas.flatMap universals).count x =
      (negationNormals d.formulas).countP (bindsFirstByAll x) := by
  -- After standardizing, only the order of these variables has changed.
  rw [(universals_afterFirst_five order).count_eq x]
  show ((standardizeAll (d.afterFirst order 2).formulas d.symbols).1.flatMap universals).count x = _
  rw [formulas_afterFirst_two order d]
  exact count_universals_of_knows (known_negationNormals known) familiar

/-- A variable that is given out is bound universally at most once. -/
theorem knows_of_count_universals
    (twice : 2 ≤ ((d.afterFirst order 5).formulas.flatMap universals).count x) :
    d.symbols.Knows x := by
  by_contra unfamiliar
  -- If it were not known, it would have been given out, and bound by one quantifier.
  rw [(universals_afterFirst_five order).count_eq x] at twice
  have once : ((standardizeAll (negationNormals d.formulas) d.symbols).1.flatMap
      universals).count x ≤ 1 :=
    count_universals_of_not_knows (known_negationNormals known) unfamiliar
  rw [← formulas_afterFirst_two order d] at once
  exact absurd (twice.trans once) (by decide)

/-- Renaming across formulas gives out what can be counted on the negation normal forms. -/
theorem sum_count_universals :
    ∑ x ∈ ((d.afterFirst order 5).formulas.flatMap universals).toFinset,
        (((d.afterFirst order 5).formulas.flatMap universals).count x - 1) =
      ∑ x ∈ ((negationNormals d.formulas).flatMap boundVariables).toFinset,
        ((negationNormals d.formulas).countP (bindsFirstByAll x) - 1) := by
  refine Finset.sum_congr_of_eq_on_inter (fun x inside outside => ?_) (fun x inside outside => ?_)
    fun x inside bound => ?_
  · -- A variable that is not bound in the formulas at first is given out, and bound only once.
    by_contra more
    have familiar := knows_of_count_universals (x := x) order known (by omega)
    rw [count_universals_afterFirst_five order known familiar] at more
    obtain ⟨f, listed, first⟩ := List.countP_pos_iff.mp (Nat.pos_of_ne_zero (by omega) :
      0 < (negationNormals d.formulas).countP (bindsFirstByAll x))
    exact outside (List.mem_toFinset.mpr (List.mem_flatMap.mpr
      ⟨f, listed, mem_bound_of_bindsFirstByAll first⟩))
  · -- A variable that is bound at first is known, and may not be bound universally at all.
    rw [← count_universals_afterFirst_five order known (knows_of_bound known inside)]
    have unbound : x ∉ (d.afterFirst order 5).formulas.flatMap universals :=
      fun bound => outside (List.mem_toFinset.mpr bound)
    rw [List.count_eq_zero.mpr unbound, Nat.zero_sub]
  · -- Any other variable is counted on both sides.
    rw [count_universals_afterFirst_five order known (knows_of_bound known bound)]

/-- A run gives out as many variables as can be counted on the negation normal forms. -/
theorem count_var_afterFirst_eight : (d.afterFirst order 8).symbols.count .var =
    d.symbols.count .var + freshlyNamed (negationNormals d.formulas) := by
  -- Both times variables are given out, the formulas are known to the table.
  have second : (d.afterFirst order 2).Prepared order 3 := prepared_afterFirst known (by decide)
  have fifth : (d.afterFirst order 5).Prepared order 6 := prepared_afterFirst known (by decide)
  have standardized : (d.afterFirst order 3).symbols.count .var =
      d.symbols.count .var + ((negationNormals d.formulas).map repeats).sum := by
    rw [← formulas_afterFirst_two order d]
    exact count_standardizeAll second.known
  -- Witnesses give out no variables, and neither do the last stages.
  have witnessed : (d.afterFirst order 5).symbols.count .var =
      (d.afterFirst order 3).symbols.count .var := count_skolemizeAll _ _ .var
  have renamed : (d.afterFirst order 8).symbols.count .var =
      (d.afterFirst order 5).symbols.count .var +
        ∑ x ∈ ((d.afterFirst order 5).formulas.flatMap universals).toFinset,
          (((d.afterFirst order 5).formulas.flatMap universals).count x - 1) :=
    count_renameAcross fifth.known
  rw [renamed, witnessed, standardized, sum_count_universals order known, freshlyNamed,
    Nat.add_assoc]

/-- A run makes as many witnesses as its negation normal forms have existential quantifiers. -/
theorem length_witnesses_afterFirst_four : (d.afterFirst order 4).witnesses.length =
    ((negationNormals d.formulas).map existentials).sum := by
  -- Existential quantifiers are counted before and after they are moved.
  have prepared : (d.afterFirst order 4).Prepared order 5 := prepared_afterFirst known (by decide)
  have moved : (d.afterFirst order 4).formulas.map existentials =
      (d.afterFirst order 3).formulas.map fun f => (f.toPrenex order).existentials :=
    List.map_map
  have standardized : (d.afterFirst order 3).formulas.map existentials =
      (negationNormals d.formulas).map existentials := by
    rw [← formulas_afterFirst_two order d]
    exact map_existentials_standardizeAll _ _
  rw [witnesses, length_witnesses_skolemizeAll (prepared.forms.prenex (by decide)), moved]
  simp only [existentials_toPrenex]
  rw [standardized]

/-- Whatever a run renames was known before the run, and whatever it gives was not. -/
theorem exchange_afterFirst {r : Renaming}
    (listed : r ∈ (d.afterFirst order 2).renamings .standardization ++
      (d.afterFirst order 5).renamings .renaming) :
    d.symbols.Knows r.old ∧ ¬ d.symbols.Knows r.new := by
  rcases List.mem_append.mp listed with first | second
  · -- A variable that standardizing takes is bound in some negation normal form.
    have prepared : (d.afterFirst order 2).Prepared order 3 := prepared_afterFirst known (by decide)
    obtain ⟨old, new⟩ := exchange_standardizeAll prepared.known first
    rw [formulas_afterFirst_two order d] at old
    exact ⟨knows_of_bound known (List.mem_toFinset.mpr old), new⟩
  · -- A variable that is taken from universal quantifiers repeats itself among these.
    have prepared : (d.afterFirst order 5).Prepared order 6 := prepared_afterFirst known (by decide)
    obtain ⟨twice, new⟩ := exchange_renameAcross prepared.known second
    have grows : d.symbols.Grows (d.afterFirst order 5).symbols :=
      (paired_afterFirst order d (by decide)).grows
    exact ⟨knows_of_count_universals order known twice, fun familiar => new (grows.knows familiar)⟩

end Counting

end Draft

section Whole

open Formula

variable {config : Config} {clock : Clock} {formulas : List Formula} {symbols : SymbolTable}
  {sink : Sink} {result : Normalized}

/-- What a run that counts says of its witnesses and new variables can be counted beforehand. -/
theorem exists_counted (known : ∀ f ∈ formulas, f.Known symbols)
    (counting : config.profiling = true)
    (succeeded : (normalize config clock formulas symbols sink).result = .ok result) :
    ∃ profile, result.profile = some profile ∧
      profile.skolemSymbols = ((negationNormals formulas).map existentials).sum ∧
      profile.freshVariables = freshlyNamed (negationNormals formulas) := by
  let d : Draft := { formulas, symbols }
  -- The profile shows what the stages count.
  obtain ⟨counts, shown, grown, made⟩ := exists_profile succeeded counting
  refine ⟨_, shown, ?_, ?_⟩
  · -- What is read off the clauses does not touch the other counts.
    show counts.skolemSymbols = _
    rw [made]
    exact Draft.length_witnesses_afterFirst_four (d := d) _ known
  · -- The table has grown by the new variables.
    have final : (normalize config clock formulas symbols sink).symbols = _ :=
      congrArg Draft.symbols (normalize_ok succeeded).2
    show counts.freshVariables = _
    rw [grown, final, Draft.count_var_afterFirst_eight (d := d) _ known, Nat.add_sub_cancel_left]

/--
The numbers of witnesses and of new variables in the profile of a run are those counted on the
negation normal forms, whatever the order of quantifiers. The table has grown by just as many
symbols, and no variable that takes the place of another one is ever replaced itself.
-/
theorem normalize_recounted (known : ∀ f ∈ formulas, f.Known symbols)
    (counting : config.profiling = true)
    (succeeded : (normalize config clock formulas symbols sink).result = .ok result) :
    ∃ profile, result.profile = some profile ∧
      profile.skolemSymbols =
        ((negationNormals formulas).map fun g => g.binders.countP (·.1 == .existential)).sum ∧
      (∀ kind, kind = .const ∨ kind = .func →
        (normalize config clock formulas symbols sink).symbols.count kind =
          symbols.count kind + profile.skolemSymbols) ∧
      (normalize config clock formulas symbols sink).symbols.count .var =
        symbols.count .var + profile.freshVariables ∧
      profile.freshVariables = ((negationNormals formulas).map fun g =>
          g.binders.length - (g.boundVariables.toFinset \ g.freeVariables.toFinset).card).sum +
        ∑ x ∈ ((negationNormals formulas).flatMap boundVariables).toFinset,
          ((negationNormals formulas).countP (bindsFirstByAll x) - 1) ∧
      (∀ q x y, (q, x, y) ∈ exchanges (normalize config clock formulas symbols sink).reports →
        ∀ p z, (p, y, z) ∉ exchanges (normalize config clock formulas symbols sink).reports) ∧
      ∀ (other : Config) (clock : Clock) (sink : Sink) (result : Normalized),
        other.profiling = true → (normalize other clock formulas symbols sink).result = .ok result →
        ∃ same, result.profile = some same ∧ same.skolemSymbols = profile.skolemSymbols ∧
          same.freshVariables = profile.freshVariables := by
  let d : Draft := { formulas, symbols }
  -- What is counted depends on the formulas only.
  obtain ⟨profile, shown, witnesses, fresh⟩ := exists_counted known counting succeeded
  have final : (normalize config clock formulas symbols sink).symbols = _ :=
    congrArg Draft.symbols (normalize_ok succeeded).2
  refine ⟨profile, shown, witnesses, fun kind pair => ?_, ?_, fresh,
    fun q x y taken p z again => ?_, fun other clock sink result counting succeeded => ?_⟩
  · rw [final, witnesses, Draft.count_afterFirst_eight (d := d) _ pair,
      Draft.length_witnesses_afterFirst_four (d := d) _ known]
  · rw [final, fresh]
    exact Draft.count_var_afterFirst_eight (d := d) _ known
  · -- What a renaming takes was known before the run, unlike what a renaming gives.
    rw [exchanges_normalize succeeded] at taken again
    obtain ⟨r, listed, one⟩ := List.mem_map.mp taken
    obtain ⟨r', listed', two⟩ := List.mem_map.mp again
    have given : r.new = y := congrArg (·.2.2) one
    have asked : r'.old = y := congrArg (·.2.1) two
    have new := (Draft.exchange_afterFirst (d := d) _ known listed).2
    have old := (Draft.exchange_afterFirst (d := d) _ known listed').1
    exact new (given ▸ asked ▸ old)
  · -- The formulas that are counted do not depend on the settings.
    obtain ⟨same, shown, again⟩ := exists_counted known counting succeeded
    exact ⟨same, shown, again.1.trans witnesses.symm, again.2.trans fresh.symm⟩

end Whole

section Numbers

/-- Variables that are bound more than once, by quantifiers of both kinds, and free as well. -/
def recurring : List Formula :=
  [.quantified .universal ⟨0⟩ (.iff (.quantified .existential ⟨0⟩ (less ⟨0⟩ ⟨0⟩))
      (.quantified .existential ⟨1⟩ (less ⟨0⟩ ⟨1⟩))),
    .and (.quantified .universal ⟨0⟩ (less ⟨0⟩ ⟨1⟩)) (.quantified .universal ⟨1⟩ (less ⟨1⟩ ⟨1⟩))]

/-- Three variables are given out within the first formula, one within the second, one for both. -/
theorem normalize_recounted_recurring : ∃ result profile,
    (normalize { prenexOrder := .preserve, profiling := true } (.still 0) recurring
      comparisonSymbols .discarding).result = .ok result ∧
    result.profile = some profile ∧ profile.skolemSymbols = 2 ∧ profile.freshVariables = 5 ∧
    (normalize { prenexOrder := .preserve, profiling := true } (.still 0) recurring
      comparisonSymbols .discarding).symbols.count .var = 7 := by
  -- The counts are computed for the formulas beforehand.
  have known : ∀ f ∈ recurring, f.Known comparisonSymbols := by decide +kernel
  have made : (normalize { prenexOrder := .preserve, profiling := true } (.still 0) recurring
      comparisonSymbols .discarding).result.toOption.any (fun _ => true) = true := by
    decide +kernel
  obtain ⟨result, succeeded, _⟩ := exists_ok_of_any made
  obtain ⟨profile, shown, witnesses, _, grown, fresh, _⟩ :=
    normalize_recounted known rfl succeeded
  have five : profile.freshVariables = 5 := fresh.trans (by decide +kernel)
  refine ⟨result, profile, succeeded, shown, witnesses.trans (by decide +kernel), five, ?_⟩
  rw [grown, five]
  decide +kernel

end Numbers

end ClauseForm
