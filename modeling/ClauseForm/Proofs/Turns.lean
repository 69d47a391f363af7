import ClauseForm.Proofs.OpenFormulas
import ClauseForm.Proofs.Separation

/-! What a run makes of a formula among others, and the clauses that come from it. -/

namespace ClauseForm

/--
What a formula finds when its turn comes: the table when it is standardized, the table when its
witnesses are made, and the naming when its universal quantifiers claim variables.
-/
structure Turn where
  first : SymbolTable
  second : SymbolTable
  third : Naming

namespace Formula

/-- What has become of a formula at its turn once it has witnesses. -/
def witnessed (order : PrenexOrder) (turn : Turn) (f : Formula) : Formula :=
  (((f.standardForm turn.first).1.toPrenex order).skolemizing turn.second).1

/-- The table at the turn of a formula once it has witnesses. -/
def witnessTable (order : PrenexOrder) (turn : Turn) (f : Formula) : SymbolTable :=
  (((f.standardForm turn.first).1.toPrenex order).skolemizing turn.second).2

/-- What has become of a formula at its turn once its universal quantifiers have variables. -/
def separated (order : PrenexOrder) (turn : Turn) (f : Formula) : Formula :=
  ((f.witnessed order turn).claiming turn.third).1

/-- What all stages together make of a formula at its turn. -/
def course (order : PrenexOrder) (turn : Turn) (f : Formula) : Formula :=
  (f.separated order turn).stripUniversals.toConjunctive

end Formula

namespace Draft

/-- What the formula at a place finds when its turn comes. -/
def turn (order : PrenexOrder) (d : Draft) (place : Nat) : Turn where
  first :=
    (thread Formula.standardizing ((d.afterFirst order 2).formulas.take place) d.symbols).2
  second :=
    (thread Formula.skolemizing ((d.afterFirst order 4).formulas.take place)
      (d.afterFirst order 4).symbols).2
  third :=
    (thread Formula.claiming ((d.afterFirst order 5).formulas.take place)
      { taken := [], symbols := (d.afterFirst order 5).symbols }).2

variable {order : PrenexOrder} {d : Draft} {place : Nat}

/-- The first two stages move negations inwards, whatever the turn. -/
theorem getElem?_afterFirst_two :
    (d.afterFirst order 2).formulas[place]? = d.formulas[place]?.map Formula.pushNegation := by
  -- The first two stages treat every formula by itself.
  show ((d.formulas.map Formula.eliminateImplications).map Formula.pushNegation)[place]? = _
  rw [List.map_map, List.getElem?_map]
  -- Moving negations inwards makes the same of a formula with its implications written out.
  exact congrArg (Option.map · _) (funext fun f => f.signed_eliminateImplications true)

/-- The third stage standardizes a formula at its turn. -/
theorem getElem?_afterFirst_three : (d.afterFirst order 3).formulas[place]? =
    d.formulas[place]?.map fun f => (f.standardForm (d.turn order place).first).1 := by
  show ((d.afterFirst order 2).after order .standardization).formulas[place]? = _
  -- At its turn, a formula meets the table that the ones before it have left behind.
  rw [after_standardization, getElem?_thread, getElem?_afterFirst_two, Option.map_map]
  rfl

/-- The fourth stage brings the formula into prenex form. -/
theorem getElem?_afterFirst_four : (d.afterFirst order 4).formulas[place]? =
    d.formulas[place]?.map fun f =>
      (f.standardForm (d.turn order place).first).1.toPrenex order := by
  -- Quantifiers are moved in every formula by itself.
  show ((d.afterFirst order 3).formulas.map (Formula.toPrenex order))[place]? = _
  rw [List.getElem?_map, getElem?_afterFirst_three, Option.map_map]
  rfl

/-- The fifth stage gives the formula witnesses at its turn. -/
theorem getElem?_afterFirst_five : (d.afterFirst order 5).formulas[place]? =
    d.formulas[place]?.map (Formula.witnessed order (d.turn order place)) := by
  show ((d.afterFirst order 4).after order .skolemization).formulas[place]? = _
  -- The table is handed on from each formula to the next one.
  rw [after_skolemization, getElem?_thread, getElem?_afterFirst_four, Option.map_map]
  rfl

/-- The sixth stage lets the universal quantifiers of the formula claim variables at its turn. -/
theorem getElem?_afterFirst_six : (d.afterFirst order 6).formulas[place]? =
    d.formulas[place]?.map (Formula.separated order (d.turn order place)) := by
  show ((d.afterFirst order 5).after order .renaming).formulas[place]? = _
  -- The naming is handed on as the table was before.
  rw [after_renaming, getElem?_thread, getElem?_afterFirst_five, Option.map_map]
  rfl

/-- All stages make of each formula what its course is at its turn. -/
theorem getElem?_afterFirst_eight : (d.afterFirst order 8).formulas[place]? =
    d.formulas[place]?.map (Formula.course order (d.turn order place)) := by
  show (((d.afterFirst order 6).formulas.map Formula.stripUniversals).map
    -- The last two stages treat every formula by itself again.
    Formula.toConjunctive)[place]? = _
  rw [List.map_map, List.getElem?_map, getElem?_afterFirst_six, Option.map_map]
  rfl

/-- The table has grown by pairs only when a formula is standardized. -/
theorem paired_first : d.symbols.Paired (d.turn order place).first :=
  (supplied_thread id Formula.standardizing_supplied _ _).paired

/-- It has grown further when witnesses are made. -/
theorem paired_second : (d.afterFirst order 4).symbols.Paired (d.turn order place).second :=
  (supplied_thread id Formula.skolemizing_supplied _ _).paired

/-- It has grown further when universal quantifiers claim variables. -/
theorem paired_third :
    (d.afterFirst order 5).symbols.Paired (d.turn order place).third.symbols :=
  (supplied_thread Naming.symbols Formula.claiming_supplied _ { taken := [], symbols := _ }).paired

/-- When a formula is standardized, no symbols but variables have been given out. -/
theorem count_standardForm (f : Formula) {kind : Kind} (other : kind ≠ .var) :
    (f.standardForm (d.turn order place).first).2.symbols.count kind = d.symbols.count kind :=
  (Formula.count_claimBinders _ _ id { taken := _, symbols := _ } other).trans
    (Formula.count_thread_standardizing _ _ other)

/-- Quantifiers of a formula with witnesses were there when it had been standardized. -/
theorem mem_binders_witnessed {f : Formula} {b : Quantifier × Variable}
    (bound : b ∈ (f.witnessed order (d.turn order place)).binders) :
    b ∈ (f.standardForm (d.turn order place).first).1.binders :=
  (Formula.binders_toPrenex_perm order _).mem_iff.mp
    ((Formula.skolemizes _ [] _).binders_sublist.mem bound)

section Known

variable {f : Formula} (here : d.formulas[place]? = some f)

include here

/-- What standardizing a formula has given out is known when witnesses are made. -/
theorem paired_standardForm : (f.standardForm (d.turn order place).first).2.symbols.Paired
    (d.afterFirst order 4).symbols := by
  -- The formula with this number has had its negations moved inwards.
  have normal : (d.afterFirst order 2).formulas[place]? = some f.pushNegation := by
    rw [getElem?_afterFirst_two, here]
    rfl
  have table : (d.afterFirst order 4).symbols =
      (thread Formula.standardizing (d.afterFirst order 2).formulas d.symbols).2 := by
    show ((d.afterFirst order 2).after order .standardization).symbols = _
    rw [after_standardization]
    rfl
  -- The formulas that follow are standardized with what this one has left behind.
  rw [table]
  exact (supplied_thread_rest id Formula.standardizing_supplied normal).paired

/-- The formula is in prenex form when witnesses are made. -/
theorem getElem?_prenex : (d.afterFirst order 4).formulas[place]? =
    some ((f.standardForm (d.turn order place).first).1.toPrenex order) := by
  rw [getElem?_afterFirst_four, here]
  rfl

/-- What witnesses have given out is known when universal quantifiers claim variables. -/
theorem paired_witnessed :
    (f.witnessTable order (d.turn order place)).Paired (d.afterFirst order 5).symbols := by
  have table : (d.afterFirst order 5).symbols =
      (thread Formula.skolemizing (d.afterFirst order 4).formulas
        (d.afterFirst order 4).symbols).2 := by
    show ((d.afterFirst order 4).after order .skolemization).symbols = _
    rw [after_skolemization]
  -- What this formula has left behind is met by the others.
  rw [table]
  exact (supplied_thread_rest id Formula.skolemizing_supplied (getElem?_prenex here)).paired

/-- What witnesses have given out is known to all later formulas when theirs are made. -/
theorem paired_later {other : Nat} (before : place < other) :
    (f.witnessTable order (d.turn order place)).Paired (d.turn order other).second := by
  -- The next formula is met with the table that this one has left behind.
  have later := (supplied_thread_take id Formula.skolemizing_supplied
    (d.afterFirst order 4).formulas (d.afterFirst order 4).symbols
    (Nat.succ_le_of_lt before)).paired
  rwa [thread_take_succ (getElem?_prenex here)] at later

/-- A formula with witnesses is one of those that the fifth stage makes. -/
theorem witnessed_mem :
    f.witnessed order (d.turn order place) ∈ (d.afterFirst order 5).formulas := by
  refine List.mem_of_getElem? (i := place) ?_
  rw [getElem?_afterFirst_five, here]
  rfl

variable (known : ∀ f ∈ d.formulas, f.Known d.symbols)

include known

/-- A formula with witnesses is known when its universal quantifiers claim variables. -/
theorem known_witnessed :
    (f.witnessed order (d.turn order place)).Known (d.turn order place).third.symbols := by
  -- All formulas of the draft are known, and the table grows until the turn comes.
  have prepared : (d.afterFirst order 5).Prepared order 6 := prepared_afterFirst known (by decide)
  exact (prepared.known _ (witnessed_mem here)).grows paired_third.grows

/-- When its turn comes to be standardized, a formula has known symbols. -/
theorem known_first : f.Known (d.turn order place).first :=
  (known f (List.mem_of_getElem? here)).grows paired_first.grows

/-- Once witnesses have been made, all quantifiers of a formula stand in front. -/
theorem isQuantifierFree_matrix_witnessed :
    (f.witnessed order (d.turn order place)).matrix.isQuantifierFree = true := by
  have prepared : (d.afterFirst order 5).Prepared order 6 := prepared_afterFirst known (by decide)
  exact prepared.forms.prenex (by decide) _ (witnessed_mem here)

/-- The universal quantifiers of a formula claim variables when its turn comes. -/
theorem exists_claimed : ∃ names : Variable → Variable,
    (d.turn order place).third.Claimed (f.witnessed order (d.turn order place)).boundVariables
        names ∧
      f.separated order (d.turn order place) =
        .forAll ((f.witnessed order (d.turn order place)).boundVariables.map names)
          ((f.witnessed order (d.turn order place)).matrix.mapSymbols (.ofVariables names)) := by
  have prepared : (d.afterFirst order 5).Prepared order 6 := prepared_afterFirst known (by decide)
  have listed : f.witnessed order (d.turn order place) ∈ _ := witnessed_mem here
  -- The formulas before this one leave only known variables taken.
  have sound : (d.turn order place).third.Sound := by
    have start : Naming.Sound { taken := [], symbols := (d.afterFirst order 5).symbols } := by
      simp [Naming.Sound]
    have passes := Formula.claimUniversals_passes
      (fun g inside => prepared.known g (List.mem_of_mem_take (i := place) inside)) start
    rw [Formula.claimUniversals_eq_thread] at passes
    exact passes.sound
  exact Formula.exists_claimed (prepared.forms.prenex (by decide) _ listed)
    (prepared.forms.skolemized (by decide) _ listed)
    (known_witnessed here known) sound
    (prepared.forms.apart (by decide) _ listed).distinct

variable (order) in
/-- The course of a formula ends with its matrix, in which variables have their final names. -/
theorem exists_course : ∃ names : Variable → Variable,
    (d.turn order place).third.Claimed (f.witnessed order (d.turn order place)).boundVariables
        names ∧
      f.course order (d.turn order place) =
        ((f.witnessed order (d.turn order place)).matrix.mapSymbols
          (.ofVariables names)).toConjunctive := by
  -- The quantifiers in front, which are all that there are, are left out.
  obtain ⟨names, claimed, made⟩ := exists_claimed here known
  refine ⟨names, claimed, congrArg Formula.toConjunctive ?_⟩
  rw [made, Formula.stripUniversals_forAll]
  rw [Formula.isQuantifierFree_mapSymbols]
  exact isQuantifierFree_matrix_witnessed here known

end Known

end Draft

/-- The clauses of a run in blocks, one for each of its formulas and in their order. -/
def Normalized.Blocks (result : Normalized) (blocks : List (List Clause)) : Prop :=
  List.Forall₂ (fun f block => Formula.extractClauses [f] = .ok block) result.formulas blocks

/-- The blocks of a run are determined by its formulas. -/
theorem Normalized.Blocks.unique {result : Normalized} {blocks others : List (List Clause)}
    (one : result.Blocks blocks) (two : result.Blocks others) : blocks = others :=
  List.right_unique_forall₂' (fun _ _ _ first second => Except.ok.inj (first.symm.trans second))
    one two

section Blocks

/-- The clauses of formulas are those of each formula one after the other. -/
theorem Formula.exists_blocks {fs : List Formula} {cs : List Clause}
    (done : extractClauses fs = .ok cs) : ∃ blocks,
      List.Forall₂ (fun f block => extractClauses [f] = .ok block) fs blocks ∧
      cs = blocks.flatten := by
  induction fs generalizing cs with
  | nil =>
    cases done
    exact ⟨[], .nil, rfl⟩
  | cons f fs ih =>
    -- The clauses of the first formula are found first, and those of the others after them.
    rw [extractClauses, List.flatMap_cons, List.mapM_append] at done
    obtain ⟨block, first, rest⟩ := bind_eq_ok.mp done
    obtain ⟨others, later, whole⟩ := bind_eq_ok.mp rest
    obtain rfl := pure_eq_ok.mp whole
    obtain ⟨blocks, each, rfl⟩ := ih later
    refine ⟨block :: blocks, .cons ?_ each, rfl⟩
    rw [extractClauses, List.flatMap_singleton]
    exact first

variable {config : Config} {clock : Clock} {formulas : List Formula} {symbols : SymbolTable}
  {sink : Sink} {result : Normalized}
  (succeeded : (normalize config clock formulas symbols sink).result = .ok result)

include succeeded

/-- The clauses of a run come in blocks, one for each formula. -/
theorem exists_blocks : ∃ blocks, result.Blocks blocks ∧ result.clauses = blocks.flatten ∧
    blocks.length = formulas.length := by
  obtain ⟨blocks, each, whole⟩ := Formula.exists_blocks (normalize_ok succeeded).1
  refine ⟨blocks, each, whole, each.length_eq.symm.trans ?_⟩
  -- No stage changes how many formulas there are.
  rw [formulas_normalize succeeded]
  exact Draft.afterFirst_induct (motive := fun _ e => e.formulas.length = formulas.length) rfl
    (fun stage e length => (e.length_after stage).trans length) (by decide)

/-- The block at a place has the clauses that the course of the formula at that place leads to. -/
theorem extractClauses_course {blocks : List (List Clause)} (divided : result.Blocks blocks)
    {place : Nat} {f : Formula} {block : List Clause} (here : formulas[place]? = some f)
    (there : blocks[place]? = some block) :
    Formula.extractClauses [f.course config.prenexOrder
      (Draft.turn config.prenexOrder { formulas, symbols } place)] = .ok block := by
  -- Formulas stand in their places when all stages are done.
  have made := formulas_normalize succeeded
  have last : result.formulas[place]? = some (f.course config.prenexOrder
      (Draft.turn config.prenexOrder { formulas, symbols } place)) := by
    rw [made, Draft.getElem?_afterFirst_eight]
    exact congrArg (Option.map _) here
  -- Formulas and blocks are matched place by place.
  obtain ⟨inFormulas, isCourse⟩ := List.getElem?_eq_some_iff.mp last
  obtain ⟨inBlocks, isBlock⟩ := List.getElem?_eq_some_iff.mp there
  rw [← isCourse, ← isBlock]
  exact divided.get inFormulas inBlocks

end Blocks

end ClauseForm
