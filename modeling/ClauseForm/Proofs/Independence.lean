import ClauseForm.Proofs.Equivariance
import ClauseForm.Proofs.Turns
import ClauseForm.Proofs.Variants

/-! Formulas of a list are made into clauses independently, up to the names of what is given out. -/

namespace ClauseForm

/-- Every formula is over the set of all symbols. -/
theorem Formula.over_univ (f : Formula) : f.Over fun _ => Set.univ :=
  over_of_mapSymbols_eq f.mapSymbols_identity fun _ _ _ => trivial

/-- Moving what one table gives out next by a distance leads to what a later one gives out next. -/
theorem SymbolTable.relocate_add {table : SymbolTable} {kind : Kind} {distance total : Nat}
    (reaches : total = table.count kind + distance) (n : Nat) :
    table.relocate (· + distance) (⟨table.count kind + n⟩ : Symbol kind) = ⟨total + n⟩ := by
  rw [relocate_next, reaches, Nat.add_assoc, Nat.add_comm n]

namespace SymbolMap

variable {table : SymbolTable} {distance places : Nat}

/-- Moves the variables and the Skolem symbols given out after a table by certain distances. -/
def shift (table : SymbolTable) (distance places : Nat) : SymbolMap :=
  relabel table (table.relocate (· + distance)) (· + places)

/-- Symbols that the table knows are not moved. -/
theorem shift_known {kind : Kind} {s : Symbol kind} (known : table.Knows s) :
    shift table distance places kind s = s := by
  -- Predicate symbols are never moved, and all others by the distance of their kind.
  have kept (number : Nat) : table.relocate (· + number) s = s := SymbolTable.relocate_known known
  cases kind with
  | var => exact kept distance
  | const => exact kept places
  | func => exact kept places
  | pred => rfl

/-- Variables that differ are moved to variables that differ. -/
theorem shift_injective : Function.Injective (shift table distance places .var) :=
  SymbolTable.relocate_injective fun _ _ => Nat.add_right_cancel

/-- Formulas over a table stay as they are. -/
theorem mapSymbols_shift {f : Formula} (known : f.Known table) :
    f.mapSymbols (shift table distance places) = f :=
  (Formula.mapSymbols_congr (Formula.known_iff_over.mp known) fun _ _ inside =>
    shift_known inside).trans f.mapSymbols_identity

end SymbolMap

namespace Draft

variable {order : PrenexOrder} {f : Formula} {symbols : SymbolTable}

/-- A formula in a run of its own finds the table as standardizing it has left it. -/
theorem second_alone : (turn order { formulas := [f], symbols } 0).second =
    (f.standardForm symbols).2.symbols := by
  -- Moving negations inwards writes out implications in any case.
  have normal : f.eliminateImplications.pushNegation = f.pushNegation :=
    f.signed_eliminateImplications true
  -- Just the third of the first four stages gives out symbols.
  have standard : (({ formulas := [f], symbols } : Draft).afterFirst order 4).symbols =
      (thread Formula.standardizing [f.eliminateImplications.pushNegation] symbols).2 := by
    show ((({ formulas := [f], symbols } : Draft).afterFirst order 2).after order
      .standardization).symbols = _
    rw [after_standardization]
    rfl
  rw [normal] at standard
  exact standard

/-- No variables are given out afterwards before universal quantifiers claim them. -/
theorem count_third_alone : (turn order { formulas := [f], symbols } 0).third.symbols.count .var =
    (f.standardForm symbols).2.symbols.count .var := by
  -- The other stages between standardizing and renaming leave the table alone.
  have witnesses : (({ formulas := [f], symbols } : Draft).afterFirst order 5).symbols =
      (thread Formula.skolemizing
        (({ formulas := [f], symbols } : Draft).afterFirst order 4).formulas
        (turn order { formulas := [f], symbols } 0).second).2 := by
    show ((({ formulas := [f], symbols } : Draft).afterFirst order 4).after order
      .skolemization).symbols = _
    rw [after_skolemization]
    rfl
  -- Witnesses take Skolem symbols only.
  have counts := congrArg (SymbolTable.count · .var) witnesses
  rw [Formula.count_var_thread_skolemizing, second_alone] at counts
  exact counts

variable {d : Draft} {place : Nat} (here : d.formulas[place]? = some f)
  (known : ∀ f ∈ d.formulas, f.Known d.symbols)

include here known

variable (order) in
/--
A formula among others is standardized as in a run of its own, with the variables moved that it is
given. What is known afterwards is moved to what is known then.
-/
theorem standardForm_shift (places : Nat) : ∃ distance : Nat,
    (f.standardForm (d.turn order place).first).1 =
      (f.standardForm d.symbols).1.mapSymbols (.shift d.symbols distance places) ∧
    ∀ x, (f.standardForm d.symbols).2.symbols.Knows x →
      (f.standardForm (d.turn order place).first).2.symbols.Knows
        (SymbolMap.shift d.symbols distance places .var x) := by
  -- The formulas before it have only added symbols.
  have grows : d.symbols.Grows (d.turn order place).first := paired_first.grows
  obtain ⟨distance, reaches⟩ := Nat.exists_eq_add_of_le (grows.count_le .var)
  let image := SymbolMap.shift d.symbols distance places
  have moved (n : Nat) : image .var ⟨d.symbols.count .var + n⟩ =
      ⟨(d.turn order place).first.count .var + n⟩ := SymbolTable.relocate_add reaches n
  have start : image.Follows {.var} (fun _ => Set.univ) d.symbols (d.turn order place).first := by
    refine ⟨?_, fun _ _ _ => trivial⟩
    rintro _ rfl n
    exact moved n
  -- Standardizing commutes with the move, since it asks for fresh variables only.
  have carries : image.Carries (fun _ => Set.univ) (image.Follows {.var} fun _ => Set.univ)
      Formula.standardizing :=
    SymbolMap.carries_standardizing SymbolMap.shift_injective.injOn (Set.mem_singleton _)
  obtain ⟨same, _, final⟩ := carries f.pushNegation _ _ (Formula.over_univ _) start
  -- Symbols known before the run are not moved, and so neither is the formula itself.
  have normal : f.pushNegation.Known d.symbols := (known f (List.mem_of_getElem? here)).signed true
  rw [SymbolMap.mapSymbols_shift normal] at same final
  refine ⟨distance, same, fun x inside => ?_⟩
  have later : (d.turn order place).first.Grows
      (f.standardForm (d.turn order place).first).2.symbols :=
    (Formula.standardizing_supplied f.pushNegation _).paired.grows
  by_cases old : d.symbols.Knows x
  · rw [SymbolMap.shift_known old]
    exact later.knows (grows.knows old)
  · -- Both tables have given out the same number of variables.
    obtain ⟨n, rfl⟩ := SymbolTable.exists_place old
    obtain ⟨given, counts⟩ := Nat.exists_eq_add_of_le
      ((Formula.standardizing_supplied f.pushNegation d.symbols).paired.grows.count_le .var)
    have last := final.next .var rfl 0
    rw [Nat.add_zero, Nat.add_zero, counts, moved] at last
    have below : d.symbols.count .var + n < d.symbols.count .var + given :=
      counts ▸ SymbolTable.knows_iff.mp inside
    have total : (d.turn order place).first.count .var + given =
        (f.standardForm (d.turn order place).first).2.symbols.count .var := congrArg Symbol.id last
    show SymbolTable.Knows _ (image .var _)
    rw [moved, SymbolTable.knows_iff, ← total]
    exact Nat.add_lt_add_left (Nat.lt_of_add_lt_add_left below) _

variable (order) in
/--
A formula among others gets the witnesses that it gets in a run of its own, with variables and
Skolem symbols moved by what the formulas before it have been given.
-/
theorem witnessed_shift : ∃ distance places : Nat,
    f.witnessed order (d.turn order place) =
      (f.witnessed order (turn order { formulas := [f], symbols := d.symbols } 0)).mapSymbols
        (.shift d.symbols distance places) ∧
    ∀ x, (turn order { formulas := [f], symbols := d.symbols } 0).third.symbols.Knows x →
      (d.turn order place).third.symbols.Knows
        (SymbolMap.shift d.symbols distance places .var x) := by
  -- By the time witnesses are made, constants and functions have grown by the same number.
  have second : d.symbols.Paired (d.turn order place).second :=
    (paired_afterFirst order d (by decide)).trans paired_second
  obtain ⟨places, constants⟩ := Nat.exists_eq_add_of_le (second.grows.count_le .const)
  have functions : (d.turn order place).second.count .func = d.symbols.count .func + places := by
    have counts := second.counts
    omega
  obtain ⟨distance, standard, knows⟩ := standardForm_shift order here known places
  let image := SymbolMap.shift d.symbols distance places
  let alone := turn order { formulas := [f], symbols := d.symbols } 0
  -- Standardizing has given out neither constants nor functions.
  have start : image.Follows {.const, .func} (fun _ => Set.univ) alone.second
      (d.turn order place).second := by
    refine ⟨?_, fun _ _ _ => trivial⟩
    rintro _ (rfl | rfl) n
    · rw [second_alone, Formula.standardForm, Formula.standardize, Formula.standardizeVariables,
        Formula.count_claimBinders _ _ _ _ (by decide)]
      exact SymbolTable.relocate_add constants n
    · rw [second_alone, Formula.standardForm, Formula.standardize, Formula.standardizeVariables,
        Formula.count_claimBinders _ _ _ _ (by decide)]
      exact SymbolTable.relocate_add functions n
  -- Putting in witnesses commutes with the move, since it asks for Skolem symbols only.
  have carries : image.Carries (fun _ => Set.univ) (image.Follows {.const, .func} fun _ => Set.univ)
      Formula.skolemizing :=
    SymbolMap.carries_skolemizing SymbolMap.shift_injective.injOn (by simp) (by simp)
  obtain ⟨same, _⟩ := carries ((f.standardForm d.symbols).1.toPrenex order) _ _
    (Formula.over_univ _) start
  -- Quantifiers are moved to the front alike.
  rw [Formula.mapSymbols_toPrenex, ← standard] at same
  refine ⟨distance, places, same, fun x inside => ?_⟩
  have later : (f.standardForm (d.turn order place).first).2.symbols.Grows
      (d.turn order place).third.symbols :=
    (paired_standardForm here).grows.trans
      ((paired_after order _ .skolemization).grows.trans paired_third.grows)
  rw [SymbolTable.knows_iff, count_third_alone] at inside
  exact later.knows (knows x (SymbolTable.knows_iff.mpr inside))

/-- A free variable of a formula is not bound when its universal quantifiers claim variables. -/
theorem unbound_witnessed {x : Variable} (free : x ∈ f.freeVariables) :
    x ∉ (f.witnessed order (d.turn order place)).boundVariables := by
  intro bound
  -- Standardizing has freed the bound variables of free ones, and the stages after it bind no
  -- others.
  obtain ⟨b, listed, rfl⟩ := List.mem_map.mp bound
  have first : f.Known (d.turn order place).first := known_first here known
  exact Formula.standardForm_unbound first free
    (List.mem_map_of_mem (mem_binders_witnessed listed))

variable (order) in
/--
The course of a formula among others is its course in a run of its own, with variables renamed and
Skolem symbols moved.
-/
theorem course_relabel : ∃ (names : Variable → Variable) (places : Nat → Nat),
    f.course order (d.turn order place) =
      (f.course order (turn order { formulas := [f], symbols := d.symbols } 0)).mapSymbols
        (.relabel d.symbols names places) ∧
    Set.InjOn names
      {x | (turn order { formulas := [f], symbols := d.symbols } 0).third.symbols.Knows x} ∧
    places.Injective ∧ (∀ x ∈ f.freeVariables, names x = x) ∧
    (f.course order (turn order { formulas := [f], symbols := d.symbols } 0)).Known
      (turn order { formulas := [f], symbols := d.symbols } 0).third.symbols := by
  -- Of the stages, standardizing and Skolemizing move symbols, and renaming gives variables new
  -- names.
  obtain ⟨distance, places, same, knows⟩ := witnessed_shift order here known
  let single : Draft := { formulas := [f], symbols := d.symbols }
  have listed : ∀ g ∈ single.formulas, g.Known single.symbols :=
    List.forall_mem_singleton.mpr (known f (List.mem_of_getElem? here))
  have first : single.formulas[0]? = some f := rfl
  obtain ⟨own, kept, alone⟩ := exists_course order first listed
  obtain ⟨names, claimed, among⟩ := exists_course order here known
  -- Alone, the universal quantifiers find no variable taken.
  have plain : own = id := by
    funext z
    by_cases bound : z ∈ (f.witnessed order (single.turn order 0)).boundVariables
    · exact kept.keeps z bound List.not_mem_nil
    · exact kept.others z bound
  rw [plain, SymbolMap.ofVariables_eq_relabel d.symbols, SymbolMap.relabel_id,
    Formula.mapSymbols_identity] at alone
  refine ⟨names ∘ d.symbols.relocate (· + distance), id ∘ (· + places), ?_, ?_, ?_, ?_, ?_⟩
  · -- Symbols are moved first, and variables get their final names afterwards.
    rw [among, alone, same, ← Formula.mapSymbols_matrix, Formula.mapSymbols_mapSymbols,
      SymbolMap.ofVariables_eq_relabel d.symbols, SymbolMap.shift, SymbolMap.relabel_andThen,
      Formula.mapSymbols_toConjunctive]
  · -- What is moved is known when variables are claimed, and known variables stay apart.
    have apart : Set.InjOn (SymbolMap.shift d.symbols distance places .var)
        {x | (single.turn order 0).third.symbols.Knows x} := SymbolMap.shift_injective.injOn
    exact claimed.injOn.comp apart knows
  · exact fun _ _ => Nat.add_right_cancel
  · intro x free
    have old : d.symbols.Knows x := (known f (List.mem_of_getElem? here)).free x free
    rw [Function.comp_apply, SymbolTable.relocate_known old]
    exact claimed.others x (unbound_witnessed here known free)
  · rw [alone]
    have witnessed : (f.witnessed order (single.turn order 0)).Known _ :=
      known_witnessed first listed
    exact Formula.known_iff_over.mpr (((Formula.known_iff_over.mp witnessed).of_commutes
      Formula.mapSymbols_matrix).of_commutes Formula.mapSymbols_toConjunctive)

end Draft

section Blocks

variable {config : Config} {clock time : Clock} {formulas : List Formula} {symbols : SymbolTable}
  {sink trace : Sink} {result alone : Normalized} {blocks : List (List Clause)} {place : Nat}
  {f : Formula} {block : List Clause}

/-- The clauses of a formula in a run of its own are those that its course leads to. -/
theorem extractClauses_alone
    (succeeded : (normalize config clock [f] symbols sink).result = .ok alone) :
    Formula.extractClauses [f.course config.prenexOrder
      (Draft.turn config.prenexOrder { formulas := [f], symbols } 0)] = .ok alone.clauses := by
  obtain ⟨blocks, divided, whole, length⟩ := exists_blocks succeeded
  -- There is one block, which has all clauses.
  obtain ⟨block, rfl⟩ := List.length_eq_one_iff.mp length
  rw [whole, List.flatten_singleton]
  exact extractClauses_course succeeded divided rfl rfl

/-- The block of a formula among others is a variant of its clauses in a run of its own. -/
theorem variants_block (known : ∀ f ∈ formulas, f.Known symbols)
    (succeeded : (normalize config clock formulas symbols sink).result = .ok result)
    (divided : result.Blocks blocks) (here : formulas[place]? = some f)
    (there : blocks[place]? = some block)
    (separate : (normalize config time [f] symbols trace).result = .ok alone) :
    Clause.Variants symbols f.freeVariables alone.clauses block := by
  -- The course of the formula explains both lists of clauses.
  obtain ⟨names, places, same, injective, apart, keeps, belongs⟩ :=
    Draft.course_relabel (d := { formulas, symbols }) config.prenexOrder here known
  have own := extractClauses_alone separate
  have among := extractClauses_course succeeded divided here there
  rw [same] at among
  obtain rfl : alone.clauses.map (Clause.mapSymbols (.relabel symbols names places)) = block :=
    Except.ok.inj ((Formula.extractClauses_mapSymbols own).symm.trans among)
  -- All symbols of the clauses are known when the formula alone has its witnesses.
  have grows : symbols.Grows (Draft.turn config.prenexOrder
      { formulas := [f], symbols } 0).third.symbols :=
    ((Draft.paired_afterFirst _ { formulas := [f], symbols } (by decide)).trans
      Draft.paired_third).grows
  refine Clause.variants_of_injOn (fun c listed => Clause.known_iff_over.mpr ?_) injective apart
    (fun x free => grows.knows ((known f (List.mem_of_getElem? here)).free x free)) keeps
  exact Formula.over_extractClauses
    (List.forall_mem_singleton.mpr (Formula.known_iff_over.mp belongs)) own c listed

end Blocks

/--
Without limits a run makes each formula into clauses as a run of its own would, up to the names of
variables that are not free in it and of the Skolem symbols given out. Where the formulas stand in
another order, so do the blocks of clauses that come from them.
-/
theorem normalize_independent {config : Config} (clock time : Clock) {formulas : List Formula}
    {symbols : SymbolTable} {sink trace : Sink} (known : ∀ f ∈ formulas, f.Known symbols)
    (unlimited : config.maxClauses = 0) (untimed : config.timeoutMs = none)
    (reliable : sink.NeverFails) (trusted : trace.NeverFails) :
    ∃ result blocks, (normalize config clock formulas symbols sink).result = .ok result ∧
      result.Blocks blocks ∧ result.clauses = blocks.flatten ∧ blocks.length = formulas.length ∧
      (∀ (i : Nat) (f : Formula) (block : List Clause), formulas[i]? = some f →
        blocks[i]? = some block →
        ∃ alone, (normalize config time [f] symbols trace).result = .ok alone ∧
          Clause.Variants symbols f.freeVariables alone.clauses block) ∧
      ∀ arrangement : Equiv.Perm (Fin formulas.length), ∃ other others,
        (normalize config time (List.ofFn fun k => formulas.get (arrangement k)) symbols
          trace).result = .ok other ∧
        other.Blocks others ∧ other.clauses = others.flatten ∧ others.length = formulas.length ∧
        ∀ (k : Fin formulas.length) (block moved : List Clause),
          blocks[arrangement k]? = some block → others[k]? = some moved →
          Clause.Variants symbols (formulas.get (arrangement k)).freeVariables block moved := by
  have within (count : Nat) : config.budget.isExceeded count = false :=
    Budget.isExceeded_unlimited unlimited
  -- Neither a limit nor the sink can stop the run of a formula alone.
  have separate {f : Formula} (listed : f ∈ formulas) :
      ∃ alone, (normalize config time [f] symbols trace).result = .ok alone :=
    exists_normalize (List.forall_mem_singleton.mpr (known f listed)) untimed trusted (within _)
  obtain ⟨result, succeeded⟩ : ∃ result,
      (normalize config clock formulas symbols sink).result = .ok result :=
    exists_normalize known untimed reliable (within _)
  obtain ⟨blocks, divided, whole, length⟩ := exists_blocks succeeded
  refine ⟨result, blocks, succeeded, divided, whole, length, fun i f block here there => ?_,
    fun arrangement => ?_⟩
  -- Within one list, each block is compared with the run of its formula alone.
  · obtain ⟨alone, done⟩ := separate (List.mem_of_getElem? here)
    exact ⟨alone, done, variants_block known succeeded divided here there done⟩
  · let arranged := List.ofFn fun k => formulas.get (arrangement k)
    have size : arranged.length = formulas.length := List.length_ofFn
    have listed : ∀ f ∈ arranged, f.Known symbols :=
      List.forall_mem_ofFn_iff.mpr fun k => known _ (List.get_mem _ _)
    obtain ⟨other, again⟩ : ∃ other,
        (normalize config time arranged symbols trace).result = .ok other :=
      exists_normalize listed untimed trusted (within _)
    obtain ⟨others, divided', whole', length'⟩ := exists_blocks again
    refine ⟨other, others, again, divided', whole', length'.trans size,
      fun k block moved there there' => ?_⟩
    -- Either block is a variant of the clauses that the formula has in a run of its own.
    have here : formulas[arrangement k]? = some (formulas.get (arrangement k)) := by simp
    have here' : arranged[k]? = some (formulas.get (arrangement k)) := by simp [arranged]
    obtain ⟨alone, done⟩ := separate (List.mem_of_getElem? here)
    exact (variants_block known succeeded divided here there done).symm.trans
      (variants_block listed again divided' here' there' done)

section Exchange

/-- A formula and its denial are made into the same clauses in either order, up to names. -/
theorem normalize_independent_exchanged :
    ∃ (result other : Normalized) (first second first' second' : List Clause),
      (normalize {} (.still 0) [unbounded, .not unbounded] comparisonSymbols .discarding).result =
        .ok result ∧
      result.clauses = first ++ second ∧
      (normalize {} (.still 0) [.not unbounded, unbounded] comparisonSymbols .discarding).result =
        .ok other ∧
      other.clauses = second' ++ first' ∧
      Clause.Variants comparisonSymbols [] first first' ∧
      Clause.Variants comparisonSymbols [] second second' := by
  have known : ∀ f ∈ [unbounded, .not unbounded], f.Known comparisonSymbols := by decide +kernel
  have reliable : Sink.discarding.NeverFails := Sink.neverFails_of_isRoomy rfl
  -- Exchanging two places is a permutation of them.
  obtain ⟨result, blocks, succeeded, _, whole, length, _, arranged⟩ :=
    normalize_independent (.still 0) (.still 0) known (rfl : ({} : Config).maxClauses = 0) rfl
      reliable reliable
  let zero : Fin 2 := 0
  obtain ⟨other, others, again, _, whole', length', variants⟩ := arranged (Equiv.swap zero 1)
  obtain ⟨first, second, rfl⟩ := List.length_eq_two.mp length
  obtain ⟨second', first', rfl⟩ := List.length_eq_two.mp length'
  refine ⟨result, other, first, second, first', second', succeeded, ?_, again, ?_, ?_, ?_⟩
  · simpa using whole
  · simpa using whole'
  · exact variants 1 first first' rfl rfl
  · exact variants 0 second second' rfl rfl

end Exchange

end ClauseForm
