import ClauseForm.Proofs.Equivariance
import ClauseForm.Proofs.Standardization

/-! The result of a run does not depend on the numbers and names of symbols. -/

namespace ClauseForm

/-- The symbols of a set together with those given out between two states of a table. -/
def SymbolSet.grown (domain : SymbolSet) (before after : SymbolTable) : SymbolSet :=
  fun kind => domain kind ∪ {s | before.New after s}

namespace SymbolMap

/-- Goes on with what a table gives out after another one as far as a first table gives it out. -/
def extend (image : SymbolMap) (first second : SymbolTable) : SymbolMap := fun kind s =>
  if first.Knows s then image kind s else ⟨second.count kind + (s.id - first.count kind)⟩

section Extension

variable {image : SymbolMap} {first second : SymbolTable} {domain : SymbolSet}

/-- Known symbols are taken where the map takes them. -/
theorem extend_known {kind : Kind} {s : Symbol kind} (known : first.Knows s) :
    image.extend first second kind s = image kind s := if_pos known

/-- Unknown symbols are taken to those given out next, in order. -/
theorem extend_unknown {kind : Kind} {s : Symbol kind} (unknown : ¬ first.Knows s) :
    image.extend first second kind s = ⟨second.count kind + (s.id - first.count kind)⟩ :=
  if_neg unknown

/-- The extended map takes what one table gives out next to what the other one gives out next. -/
theorem extend_follows (kinds : Set Kind) :
    (image.extend first second).Follows kinds
      (fun kind => domain kind ∪ {s | ¬ first.Knows s}) first second where
  next kind _ n := by
    -- What is given out next has not been known so far.
    have unknown : ¬ first.Knows (⟨first.count kind + n⟩ : Symbol kind) := by
      rw [SymbolTable.knows_iff]
      exact Nat.not_lt.mpr (Nat.le_add_right _ _)
    rw [extend_unknown unknown]
    exact congrArg (fun n => Symbol.mk (second.count kind + n)) (Nat.add_sub_cancel_left _ _)
  supplied _ _ unknown := Or.inr unknown

/-- The extended map is injective where the map is, and on all symbols not known. -/
theorem extend_injOn {kind : Kind} (known : ∀ s ∈ domain kind, first.Knows s)
    (maps : ∀ s ∈ domain kind, second.Knows (image kind s))
    (injective : Set.InjOn (image kind) (domain kind)) :
    Set.InjOn (image.extend first second kind) (domain kind ∪ {s | ¬ first.Knows s}) := by
  -- Known symbols are taken to known ones, and unknown ones to unknown ones.
  have apart {s t : Symbol kind} (inside : s ∈ domain kind) (unknown : ¬ first.Knows t) :
      image.extend first second kind s ≠ image.extend first second kind t := by
    rw [extend_known (known s inside), extend_unknown unknown]
    intro same
    have below := SymbolTable.knows_iff.mp (maps s inside)
    rw [same] at below
    exact absurd below (Nat.not_lt.mpr (Nat.le_add_right _ _))
  rintro s (inside | unknown) t (inside' | unknown') same
  · rw [extend_known (known s inside), extend_known (known t inside')] at same
    exact injective inside inside' same
  · exact absurd same (apart inside unknown')
  · exact absurd same.symm (apart inside' unknown)
  · have least := Nat.not_lt.mp (mt SymbolTable.knows_iff.mpr unknown)
    have least' := Nat.not_lt.mp (mt SymbolTable.knows_iff.mpr unknown')
    rw [extend_unknown unknown, extend_unknown unknown', Symbol.mk.injEq] at same
    exact congrArg Symbol.mk (by omega : s.id = t.id)

end Extension

/--
What a run gives out after one table corresponds to what a run gives out after another one, and
symbols that occurred before are replaced as they were.
-/
structure Extends (image extended : SymbolMap) (domain : SymbolSet)
    (first after second final : SymbolTable) : Prop where
  agrees : ∀ kind, ∀ s ∈ domain kind, extended kind s = image kind s
  injective : ∀ kind, Set.InjOn (extended kind) (domain.grown first after kind)
  /-- The symbols given out on either side correspond one by one. -/
  generated : ∀ kind, Set.BijOn (extended kind) {s | first.New after s} {s | second.New final s}
  skolems : ∀ sk, first.NewSkolem after sk →
    second.NewSkolem final ⟨extended .const sk.constant, extended .func sk.function⟩

section Extends

variable {image : SymbolMap} {first after second final : SymbolTable} {domain : SymbolSet}

/-- Where grown tables still correspond, they have given out corresponding symbols. -/
theorem Follows.extends (known : ∀ kind, ∀ s ∈ domain kind, first.Knows s)
    (maps : ∀ kind, ∀ s ∈ domain kind, second.Knows (image kind s))
    (injective : ∀ kind, Set.InjOn (image kind) (domain kind))
    (one : first.Paired after) (two : second.Paired final)
    (follows : (image.extend first second).Follows Set.univ
      (fun kind => domain kind ∪ {s | ¬ first.Knows s}) after final) :
    image.Extends (image.extend first second) domain first after second final := by
  have wide (kind : Kind) : Set.InjOn (image.extend first second kind)
      (domain kind ∪ {s | ¬ first.Knows s}) :=
    extend_injOn (known kind) (maps kind) (injective kind)
  have grown (kind : Kind) : first.count kind ≤ after.count kind := one.grows.count_le kind
  -- Both tables have grown by the same number of symbols.
  have counts (kind : Kind) :
      final.count kind = second.count kind + (after.count kind - first.count kind) := by
    -- The next symbol of one table is taken to the next one of the other.
    have last := follows.next kind (Set.mem_univ kind) 0
    rw [Nat.add_zero, Nat.add_zero, extend_unknown] at last
    · exact (congrArg Symbol.id last).symm
    · rw [SymbolTable.knows_iff]
      exact Nat.not_lt.mpr (grown kind)
  have place {kind : Kind} {n : Nat} (least : first.count kind ≤ n) :
      image.extend first second kind ⟨n⟩ = ⟨second.count kind + (n - first.count kind)⟩ :=
    extend_unknown (mt SymbolTable.knows_iff.mp (Nat.not_lt.mpr least))
  refine ⟨fun kind s inside => extend_known (known kind s inside), fun kind => ?_, fun kind => ?_,
    fun sk new => ?_⟩
  -- What has been given out is an interval of numbers on either side, moved as a whole.
  · exact (wide kind).mono (Set.union_subset_union_right _ fun s new => new.1)
  · refine ⟨fun s new => ?_, (wide kind).mono fun s new => Or.inr new.1, fun t new => ?_⟩
    · obtain ⟨least, below⟩ := SymbolTable.new_iff.mp new
      have moved : image.extend first second kind s = _ := place least
      rw [Set.mem_ofPred_eq, SymbolTable.new_iff, moved, counts]
      exact ⟨Nat.le_add_right _ _, by show _ + (s.id - _) < _; omega⟩
    · obtain ⟨least, below⟩ := SymbolTable.new_iff.mp new
      have total := counts kind
      refine ⟨⟨first.count kind + (t.id - second.count kind)⟩, ?_, ?_⟩
      · exact SymbolTable.new_iff.mpr ⟨Nat.le_add_right _ _,
          by show _ + (t.id - _) < _; omega⟩
      · rw [place (Nat.le_add_right _ _), Nat.add_sub_cancel_left]
        exact congrArg Symbol.mk (by omega : _ = t.id)
  · obtain ⟨n, below, rfl⟩ := one.newSkolem_iff.mp new
    refine two.newSkolem_iff.mpr ⟨n, by rw [counts]; omega, ?_⟩
    rw [place (Nat.le_add_right _ _), place (Nat.le_add_right _ _), Nat.add_sub_cancel_left,
      Nat.add_sub_cancel_left]

end Extends

end SymbolMap

/-- Replacing symbols keeps the number of clauses. -/
theorem Formula.clauseTotal_mapSymbols (image : SymbolMap) (fs : List Formula) :
    clauseTotal (fs.map (mapSymbols image)) = clauseTotal fs := by
  -- Clauses are counted on the shape of a formula.
  refine (clauseTotal_eq (List.forall₂_map_right_iff.mpr (List.forall₂_same.mpr fun f _ => ?_)))
  exact ((sameShape_mapSymbols image f).clauseCount).symm

/--
Two runs fail with the same error, or they succeed and one has made what becomes of the results of
the other when symbols are replaced. The replacement extends the one that is given, and takes what
was given out in one run to what was given out in the other.
-/
def Outcome.Corresponds (image : SymbolMap) (domain : SymbolSet) (first second : SymbolTable)
    (one two : Outcome) : Prop :=
  (∃ error, one.result = .error error ∧ two.result = .error error) ∨
    ∃ (result other : Normalized) (extended : SymbolMap),
      one.result = .ok result ∧ two.result = .ok other ∧
      image.Extends extended domain first one.symbols second two.symbols ∧
      other.formulas = result.formulas.map (Formula.mapSymbols extended) ∧
      other.clauses = result.clauses.map (Clause.mapSymbols extended) ∧
      (∀ f ∈ result.formulas, f.Over (domain.grown first one.symbols)) ∧
      ∀ c ∈ result.clauses, c.Over (domain.grown first one.symbols)

section Success

variable {config : Config} {clock time : Clock} {formulas : List Formula}
  {first second : SymbolTable} {sink trace : Sink} {domain : SymbolSet} {image : SymbolMap}
  (belongs : ∀ f ∈ formulas, f.Over domain)
  (known : ∀ kind, ∀ s ∈ domain kind, first.Knows s)

include belongs known

/-- The results of a run have old symbols and those that the run has given out. -/
theorem over_grown_of_ok {result : Normalized} {range : SymbolSet}
    (succeeded : (normalize config clock formulas first sink).result = .ok result)
    (ranged : ∀ f ∈ result.formulas, f.Over range)
    (split : ∀ kind, ∀ s ∈ range kind, s ∈ domain kind ∨ ¬ first.Knows s) :
    (∀ f ∈ result.formulas,
        f.Over (domain.grown first (normalize config clock formulas first sink).symbols)) ∧
      ∀ c ∈ result.clauses,
        c.Over (domain.grown first (normalize config clock formulas first sink).symbols) := by
  -- The formulas of the result are in all normal forms and known in the end.
  obtain ⟨extracted, made⟩ := normalize_ok succeeded
  have here : ∀ f ∈ formulas, f.Known first := fun f listed =>
    Formula.known_iff_over.mpr ((belongs f listed).mono known)
  have prepared : (Draft.afterFirst config.prenexOrder { formulas, symbols := first } 8).Prepared
      config.prenexOrder 9 := Draft.prepared_afterFirst here (by decide)
  rw [← made] at prepared
  have grown : ∀ f ∈ result.formulas,
      f.Over (domain.grown first (normalize config clock formulas first sink).symbols) := by
    intro f listed
    -- What is known in the end and was not known before has been given out.
    refine ((ranged f listed).inter (Formula.known_iff_over.mp (prepared.known f listed))).mono ?_
    rintro kind s ⟨inside, later⟩
    exact (split kind s inside).imp_right fun unknown => ⟨unknown, later⟩
  exact ⟨grown, Formula.over_extractClauses grown extracted⟩

/-- Runs that succeed over corresponding formulas come to corresponding results. -/
theorem corresponds_of_ok (maps : ∀ kind, ∀ s ∈ domain kind, second.Knows (image kind s))
    (injective : ∀ kind, Set.InjOn (image kind) (domain kind)) {result other : Normalized}
    (succeeded : (normalize config clock formulas first sink).result = .ok result)
    (again : (normalize config time (formulas.map (Formula.mapSymbols image)) second trace).result =
      .ok other) :
    Outcome.Corresponds image domain first second (normalize config clock formulas first sink)
      (normalize config time (formulas.map (Formula.mapSymbols image)) second trace) := by
  obtain ⟨extracted, made⟩ := normalize_ok succeeded
  obtain ⟨extracted', made'⟩ := normalize_ok again
  -- The stages are compared under a map that is already defined on all that may be given out.
  let range : SymbolSet := fun kind => domain kind ∪ {s | ¬ first.Knows s}
  have start : Draft.Mirrors (image.extend first second) range { formulas, symbols := first }
      { formulas := formulas.map (Formula.mapSymbols image), symbols := second } := by
    refine ⟨List.map_congr_left fun f listed => ?_, fun f listed => ?_,
      SymbolMap.extend_follows Set.univ⟩
    · exact Formula.mapSymbols_congr (belongs f listed) fun kind s inside =>
        (SymbolMap.extend_known (known kind s inside)).symm
    · exact (belongs f listed).mono fun kind => Set.subset_union_left
  have all : 8 ≤ Stage.formulaStages.length := by decide
  have last : (Draft.afterFirst config.prenexOrder { formulas, symbols := first } 8).Mirrors
      (image.extend first second) range (Draft.afterFirst config.prenexOrder
        { formulas := formulas.map (Formula.mapSymbols image), symbols := second } 8) :=
    start.afterFirst (SymbolMap.extend_injOn (known .var) (maps .var) (injective .var)) all
  have one := Draft.paired_afterFirst config.prenexOrder { formulas, symbols := first } all
  have two := Draft.paired_afterFirst config.prenexOrder
    { formulas := formulas.map (Formula.mapSymbols image), symbols := second } all
  rw [← made] at last one
  rw [← made'] at last two
  -- Corresponding formulas fall apart into corresponding clauses.
  have clauses : Formula.extractClauses other.formulas =
      .ok (result.clauses.map (Clause.mapSymbols (image.extend first second))) := by
    have same : other.formulas = _ := last.formulas
    rw [same]
    exact Formula.extractClauses_mapSymbols extracted
  obtain ⟨inFormulas, inClauses⟩ :=
    over_grown_of_ok belongs known succeeded last.belongs fun _ _ inside => inside
  exact Or.inr ⟨result, other, image.extend first second, succeeded, again,
    last.follows.extends known maps injective one two, last.formulas,
    Except.ok.inj (extracted'.symm.trans clauses), inFormulas, inClauses⟩

end Success

/--
It makes no difference to a run which symbols its formulas have, nor which others are known to the
table or how far its supplies have run. This holds for all limits on clauses and without a limit on
time, where the sinks never fail.
-/
theorem normalize_equivariant {config : Config} (clock time : Clock) {formulas : List Formula}
    {first second : SymbolTable} {sink trace : Sink} {domain : SymbolSet} {image : SymbolMap}
    (belongs : ∀ f ∈ formulas, f.Over domain)
    (known : ∀ kind, ∀ s ∈ domain kind, first.Knows s)
    (maps : ∀ kind, ∀ s ∈ domain kind, second.Knows (image kind s))
    (injective : ∀ kind, Set.InjOn (image kind) (domain kind))
    (untimed : config.timeoutMs = none) (reliable : sink.NeverFails)
    (trusted : trace.NeverFails) :
    Outcome.Corresponds image domain first second (normalize config clock formulas first sink)
      (normalize config time (formulas.map (Formula.mapSymbols image)) second trace) := by
  -- The formulas are known on either side.
  have here : ∀ f ∈ formulas, f.Known first := fun f listed =>
    Formula.known_iff_over.mpr ((belongs f listed).mono known)
  have there : ∀ g ∈ formulas.map (Formula.mapSymbols image), g.Known second :=
    List.forall_mem_map.mpr fun f listed =>
      Formula.known_iff_over.mpr ((belongs f listed).mapSymbols maps)
  have total := Formula.clauseTotal_mapSymbols image formulas
  cases within : config.budget.isExceeded (Formula.clauseTotal formulas) with
  | true =>
    -- Both runs have the same number of clauses, which is too large for either.
    exact Or.inl ⟨_, normalize_exceeded here untimed reliable within,
      normalize_exceeded there untimed trusted (total.symm ▸ within)⟩
  | false =>
    obtain ⟨result, succeeded⟩ : ∃ result,
        (normalize config clock formulas first sink).result = .ok result :=
      exists_normalize here untimed reliable within
    obtain ⟨other, again⟩ : ∃ other, (normalize config time
        (formulas.map (Formula.mapSymbols image)) second trace).result = .ok other :=
      exists_normalize there untimed trusted (total.symm ▸ within)
    exact corresponds_of_ok belongs known maps injective succeeded again

section Exchange

/-- Takes the first two variables to each other, and all other symbols to themselves. -/
def exchanged : SymbolMap
  | .var => fun x => ⟨1 - x.id⟩
  | .const | .func | .pred => id

/-- It makes no difference that one of the two variables has the name that would be tried next. -/
theorem normalize_equivariant_exchanged : ∃ (result other : Normalized) (extended : SymbolMap),
    (normalize { prenexOrder := .preserve } (.still 0) [Formula.shadowing] comparisonSymbols
      .discarding).result = .ok result ∧
    (normalize { prenexOrder := .preserve } (.still 0) [Formula.shadowing.mapSymbols exchanged]
      Formula.overlapping .discarding).result = .ok other ∧
    extended .var ⟨0⟩ = ⟨1⟩ ∧ other.clauses = result.clauses.map (Clause.mapSymbols extended) := by
  have known : ∀ f ∈ [Formula.shadowing], f.Known comparisonSymbols := by decide +kernel
  have counts : ∀ kind ∈ [Kind.var, .const, .func, .pred],
      comparisonSymbols.count kind = Formula.overlapping.count kind := by decide +kernel
  -- The map exchanges the numbers of the two variables and keeps all others.
  have two : comparisonSymbols.count .var = 2 := by decide +kernel
  have maps : ∀ kind, ∀ s ∈ comparisonSymbols.known kind,
      Formula.overlapping.Knows (exchanged kind s) := by
    intro kind s inside
    rw [SymbolTable.knows_iff, ← counts kind (by cases kind <;> decide)]
    have below := SymbolTable.knows_iff.mp inside
    cases kind with
    | var => rw [two]; show 1 - s.id < 2; omega
    | _ => exact below
  have injective : ∀ kind, Set.InjOn (exchanged kind) (comparisonSymbols.known kind) := by
    intro kind s inside t inside' same
    cases kind with
    | var =>
      have below := SymbolTable.knows_iff.mp inside
      have below' := SymbolTable.knows_iff.mp inside'
      have same : 1 - s.id = 1 - t.id := congrArg Symbol.id same
      exact congrArg Symbol.mk (by omega : s.id = t.id)
    | _ => exact same
  have reliable : Sink.discarding.NeverFails := Sink.neverFails_of_isRoomy rfl
  have corresponds : Outcome.Corresponds exchanged comparisonSymbols.known comparisonSymbols
      Formula.overlapping
      (normalize { prenexOrder := .preserve } (.still 0) [Formula.shadowing] comparisonSymbols
        .discarding)
      (normalize { prenexOrder := .preserve } (.still 0)
        ([Formula.shadowing].map (Formula.mapSymbols exchanged)) Formula.overlapping
        .discarding) :=
    normalize_equivariant (.still 0) (.still 0)
      (fun f listed => Formula.known_iff_over.mp (known f listed)) (fun _ _ inside => inside) maps
      injective rfl reliable reliable
  rcases corresponds with ⟨error, failed, _⟩ |
    ⟨result, other, extended, succeeded, again, extension, _, clauses, _⟩
  · -- The first run comes to its end.
    have made : (normalize { prenexOrder := .preserve } (.still 0) [Formula.shadowing]
        comparisonSymbols .discarding).result.toOption.isSome = true := by decide +kernel
    rw [failed] at made
    cases made
  · refine ⟨result, other, extended, succeeded, again, ?_, clauses⟩
    exact extension.agrees .var ⟨0⟩ (SymbolTable.knows_iff.mpr (by rw [two]; decide))

end Exchange

end ClauseForm
