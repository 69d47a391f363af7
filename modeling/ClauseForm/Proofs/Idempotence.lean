import ClauseForm.Proofs.Standardization
import ClauseForm.Proofs.Threads

/-! Stages leave the formulas that they have made as they are, and so does a run as a whole. -/

namespace ClauseForm

/-- Quantifiers that have been put into an order are in that order. -/
theorem PrenexOrder.arrange_arrange (order : PrenexOrder) (bs : List (Quantifier × Variable)) :
    order.arrange (order.arrange bs) = order.arrange bs := by
  cases order with
  | preserve => rfl
  | existentialsFirst =>
    -- No quantifier is both existential and universal.
    have first (b : Quantifier × Variable) :
        (b.1 == .existential && b.1 == .universal) = false := by
      cases b.1 <;> rfl
    have second (b : Quantifier × Variable) :
        (b.1 == .universal && b.1 == .existential) = false := by
      cases b.1 <;> rfl
    simp [arrange, List.filter_filter, first, second]

namespace Naming

variable {naming : Naming} {xs ys : List Variable}

/-- The variables listed differ from each other, and none of them is taken. -/
def Allows (naming : Naming) (xs : List Variable) : Prop := xs.Nodup ∧ ∀ x ∈ xs, x ∉ naming.taken

/-- The naming in which further variables have been taken one after the other. -/
def taking (naming : Naming) (xs : List Variable) : Naming :=
  { naming with taken := xs.reverse ++ naming.taken }

/-- Variables may be taken in two portions. -/
theorem taking_append : naming.taking (xs ++ ys) = (naming.taking xs).taking ys := by
  simp only [taking, List.reverse_append, List.append_assoc]

/-- Variables may be claimed together just if the later ones still may after the earlier ones. -/
theorem allows_append :
    naming.Allows (xs ++ ys) ↔ naming.Allows xs ∧ (naming.taking xs).Allows ys := by
  simp only [Allows, taking, List.nodup_append, List.mem_append, List.mem_reverse, not_or]
  -- On the left `Nodup` keeps later variables from earlier ones, on the right these are taken.
  constructor
  · rintro ⟨⟨first, second, apart⟩, untaken⟩
    exact ⟨⟨first, fun x inside => untaken x (Or.inl inside)⟩, second,
      fun y inside => ⟨fun before => apart y before y inside rfl, untaken y (Or.inr inside)⟩⟩
  · rintro ⟨⟨first, here⟩, second, later⟩
    refine ⟨⟨first, second, fun x inside y after same => ?_⟩, fun x inside => ?_⟩
    · exact (later y after).1 (same ▸ inside)
    · exact inside.elim (here x) fun after => (later x after).2

/-- A quantifier that may claim its own variable keeps it, and so does one that claims none. -/
theorem settle_of_allows {claims : Quantifier → Bool} {q : Quantifier} {x : Variable}
    (allowed : naming.Allows (if claims q then [x] else [])) :
    naming.settle claims q x = (x, naming.taking (if claims q then [x] else [])) := by
  -- A quantifier that claims nothing leaves the naming, and one that claims finds nothing taken.
  rw [settle]
  split
  · rename_i chosen
    rw [if_pos chosen] at allowed
    exact if_neg (allowed.2 x (List.mem_singleton_self x))
  · rfl

end Naming

namespace Formula

section Rewriting

variable {f : Formula} {order : PrenexOrder}

/-- Where there is no implication, none is written out. -/
theorem eliminateImplications_of_isImplicationFree (free : f.isImplicationFree = true) :
    f.eliminateImplications = f := by
  -- The connectives that would be rewritten are excluded by the form.
  induction f with
  | atom a => rfl
  | not f ih => exact congrArg not (ih free)
  | binary op l r left right =>
    cases op <;> simp only [isImplicationFree, Bool.and_eq_true, Bool.false_eq_true] at free
    · rw [eliminateImplications, left free.1, right free.2]
    · rw [eliminateImplications, left free.1, right free.2]
  | quantified q x f ih => exact congrArg (quantified q x) (ih free)

/-- Quantifiers that have been left out are not there to be left out again. -/
theorem dropBinders_dropBinders (dropped : Quantifier → Bool) (f : Formula) :
    (f.dropBinders dropped).dropBinders dropped = f.dropBinders dropped := by
  -- A quantifier is met again just if it was not dropped.
  induction f with
  | atom a => rfl
  | not f ih => exact congrArg not ih
  | binary op l r left right => simp only [dropBinders, left, right]
  | quantified q x f ih =>
    by_cases out : dropped q = true
    · simp only [dropBinders, if_pos out, ih]
    · simp only [dropBinders, if_neg out, ih]

/-- Where all quantifiers are left out, so are those in front. -/
theorem dropBinders_quantify (bs : List (Quantifier × Variable)) (f : Formula) :
    (quantify bs f).dropBinders (fun _ => true) = f.dropBinders fun _ => true := by
  -- Every quantifier of the list is dropped in turn.
  induction bs with
  | nil => rfl
  | cons b bs ih => exact ih

/-- Quantifiers that have been moved to the front are there. -/
theorem toPrenex_toPrenex (order : PrenexOrder) (f : Formula) :
    (f.toPrenex order).toPrenex order = f.toPrenex order := by
  -- All quantifiers are in front and in order, and the rest has none to be left out.
  have moved : (f.toPrenex order).binders = order.arrange f.binders := by
    rw [toPrenex, binders_quantify, binders_of_isQuantifierFree (isQuantifierFree_dropBinders f),
      List.append_nil]
  have left : (f.toPrenex order).dropBinders (fun _ => true) = f.dropBinders fun _ => true := by
    rw [toPrenex, dropBinders_quantify, dropBinders_dropBinders]
  rw [toPrenex, moved, left, order.arrange_arrange, toPrenex]

/-- A formula without quantifiers has none to be moved. -/
theorem toPrenex_of_isQuantifierFree (free : f.isQuantifierFree = true) :
    f.toPrenex order = f := by
  rw [toPrenex, binders_of_isQuantifierFree free, dropBinders_of_isQuantifierFree _ free]
  cases order <;> rfl

end Rewriting

section Distribution

variable {f : Formula}

/-- No conjunct is a conjunction. -/
theorem ne_and_of_mem_conjuncts {c : Formula} (listed : c ∈ f.conjuncts) (l r : Formula) :
    c ≠ .and l r := by
  -- The recursion opens conjunctions until none is left.
  fun_induction conjuncts f with
  | case1 a b left right => exact (List.mem_append.mp listed).elim left right
  | case2 f single => exact List.mem_singleton.mp listed ▸ single l r

/-- A formula whose conjuncts have been distributed has been so itself. -/
theorem toConjunctive_of_conjuncts (each : ∀ c ∈ f.conjuncts, c.toConjunctive = c) :
    f.toConjunctive = f := by
  -- Both recursions open the same conjunctions.
  fun_induction conjuncts f with
  | case1 l r left right =>
    obtain ⟨first, second⟩ := List.forall_mem_append.mp each
    rw [toConjunctive, left first, right second]
  | case2 f single => exact each f (List.mem_singleton_self f)

/-- Where neither side is a conjunction there is nothing to be distributed. -/
theorem distribute_of_ne_and {l r : Formula} (left : ∀ a b, l ≠ .and a b)
    (right : ∀ a b, r ≠ .and a b) : l.distribute r = .or l r := by
  -- Either side would be opened as a conjunction only.
  unfold distribute
  split
  · exact (left _ _ rfl).elim
  · unfold disjoinEach
    split
    · exact (right _ _ rfl).elim
    · rfl

/-- Every conjunct that distribution makes has been distributed. -/
theorem toConjunctive_conjuncts :
    ∀ c ∈ f.toConjunctive.conjuncts, c.toConjunctive = c := by
  -- The cases are those of distribution itself.
  fun_induction toConjunctive f with
  | case1 l r left right => exact List.forall_mem_append.mpr ⟨left, right⟩
  | case2 l r left right =>
    -- A pair of conjuncts, neither of which is a conjunction, is handed back as it is.
    intro c listed
    obtain ⟨a, inLeft, b, inRight, rfl⟩ := mem_conjuncts_distribute.mp listed
    rw [toConjunctive, left a inLeft, right b inRight]
    exact distribute_of_ne_and (ne_and_of_mem_conjuncts inLeft) (ne_and_of_mem_conjuncts inRight)
  | case3 f conjunction disjunction =>
    rw [conjuncts_of_ne_and conjunction, List.forall_mem_singleton]
    unfold toConjunctive
    split
    · exact (conjunction _ _ rfl).elim
    · exact (disjunction _ _ rfl).elim
    · rfl

/-- What has been distributed is not changed by doing so again. -/
theorem toConjunctive_toConjunctive (f : Formula) :
    f.toConjunctive.toConjunctive = f.toConjunctive :=
  toConjunctive_of_conjuncts toConjunctive_conjuncts

/-- A disjunction of literals is not changed by distribution. -/
theorem toConjunctive_of_isDisjunction (disjunction : f.isDisjunction = true) :
    f.toConjunctive = f := by
  -- No side of a disjunction of literals is a conjunction.
  have plain {g : Formula} (form : g.isDisjunction = true) (a b : Formula) : g ≠ .and a b := by
    rintro rfl
    cases form
  -- A disjunction of literals has such disjunctions on both sides.
  induction f with
  | atom | not | quantified => rfl
  | binary op l r left right =>
    cases op <;> simp only [isDisjunction, Bool.and_eq_true, Bool.false_eq_true] at disjunction
    rw [toConjunctive, left disjunction.1, right disjunction.2]
    exact distribute_of_ne_and (plain disjunction.1) (plain disjunction.2)

/-- A conjunctive normal form is not changed by distribution. -/
theorem toConjunctive_of_isConjunctive (conjunctive : f.isConjunctive = true) :
    f.toConjunctive = f :=
  toConjunctive_of_conjuncts fun c listed =>
    toConjunctive_of_isDisjunction (isConjunctive_iff_conjuncts.mp conjunctive c listed)

end Distribution

section Claiming

variable {claims : Quantifier → Bool} {f : Formula} {fs : List Formula} {naming : Naming}

/-- A formula whose quantifiers may all claim the variables that they have is not changed. -/
theorem claimBinders_of_allows (allowed : naming.Allows (f.claimedVariables claims)) :
    f.claimBinders claims id naming = (f, naming.taking (f.claimedVariables claims)) := by
  -- The right side of a connective meets what the left one has taken.
  induction f generalizing naming with
  | atom a => exact congrArg (·, naming) (congrArg atom a.bind_var_self)
  | not f ih => exact congrArg (fun made => (not made.1, made.2)) (ih allowed)
  | binary op l r left right =>
    rw [claimedVariables_binary] at allowed ⊢
    obtain ⟨first, second⟩ := Naming.allows_append.mp allowed
    rw [claimBinders_binary, left first, right second, Naming.taking_append]
  | quantified q x f ih =>
    have unchanged : assign id x x = id := assign_self
    rw [claimedVariables_quantified] at allowed ⊢
    obtain ⟨first, second⟩ := Naming.allows_append.mp allowed
    rw [claimBinders_quantified, Naming.settle_of_allows first, unchanged, ih second,
      Naming.taking_append]

/-- Standardizing leaves a formula that keeps its variables apart as it is, and the table too. -/
theorem standardize_of_apart (apart : f.Apart) (symbols : SymbolTable) :
    (f.standardize symbols).1 = f ∧ (f.standardize symbols).2.symbols = symbols ∧
      (f.standardize symbols).2.renamings = [] := by
  -- The free variables are taken from the start, and no quantifier binds any of them.
  have allowed : Naming.Allows { taken := f.freeVariables, symbols }
      (f.claimedVariables fun _ => true) :=
    f.claimedVariables_all ▸ ⟨apart.distinct, apart.unfree⟩
  -- Nothing is renamed in the turn of a formula that may keep all its variables.
  rw [standardize, standardizeVariables, claimBinders_of_allows allowed]
  exact ⟨rfl, rfl, rfl⟩

/-- Formulas whose universal quantifiers may all claim the variables that they have stay. -/
theorem claimUniversals_of_allows
    (allowed : naming.Allows (fs.flatMap (claimedVariables (· == .universal)))) :
    claimUniversals fs naming =
      (fs, naming.taking (fs.flatMap (claimedVariables (· == .universal)))) := by
  -- What one formula claims is taken when the next one has its turn.
  induction fs generalizing naming with
  | nil => rfl
  | cons f fs ih =>
    rw [List.flatMap_cons] at allowed ⊢
    obtain ⟨first, second⟩ := Naming.allows_append.mp allowed
    rw [claimUniversals, claimBinders_of_allows first]
    dsimp only
    rw [ih second, Naming.taking_append]

/-- Renaming across leaves formulas that bind no variable twice as they are, and the table too. -/
theorem renameAcross_of_unique (unique : areUniversalsUnique fs = true) (symbols : SymbolTable) :
    (renameAcross fs symbols).1 = fs ∧ (renameAcross fs symbols).2.symbols = symbols ∧
      (renameAcross fs symbols).2.renamings = [] := by
  -- The check looks at the variables that are claimed, of all formulas in one list.
  rw [areUniversalsUnique, areNew_iff, List.filter_flatMap, List.map_flatMap] at unique
  have allowed : Naming.Allows { taken := [], symbols }
      (fs.flatMap (claimedVariables (· == .universal))) := unique
  -- No formula is changed, and so neither table nor renamings are.
  rw [renameAcross, claimUniversals_of_allows allowed]
  exact ⟨rfl, rfl, rfl⟩

end Claiming

section Witnesses

variable {f g : Formula} {fs : List Formula}

/-- A formula without quantifiers has none in front. -/
theorem isQuantified_of_isQuantifierFree (free : f.isQuantifierFree = true) :
    f.isQuantified = false := by
  -- Only the last shape begins with a quantifier.
  cases f with
  | atom | not | binary => rfl
  | quantified => cases free

/-- Where no quantifier stands in front there is nothing to be replaced. -/
theorem skolemizeIn_of_plain (plain : f.isQuantified = false) (scope : List Variable)
    (symbols : SymbolTable) :
    f.skolemizeIn scope symbols = { formula := f, scope, witnesses := [], symbols } := by
  -- The first two cases are the quantifiers that skolemization looks at.
  unfold skolemizeIn
  split
  · cases plain
  · cases plain
  · rfl

/-- Once witnesses have been put in, no further ones are needed, whatever is in scope. -/
theorem Skolemizes.again {scope : List Variable} {symbols final : SymbolTable}
    (steps : Skolemizes symbols scope f final g) (others : List Variable) (table : SymbolTable) :
    (g.skolemizeIn others table).formula = g ∧ (g.skolemizeIn others table).symbols = table ∧
      (g.skolemizeIn others table).witnesses = [] := by
  -- Only universal quantifiers are left in front.
  induction steps generalizing others with
  | existential made _ ih => exact ih others
  | @universal _ _ _ x f g _ ih =>
    obtain ⟨same, kept, none⟩ := ih (extendScope others x)
    rw [skolemizeIn]
    exact ⟨congrArg (quantified .universal x) same, kept, none⟩
  | done plain =>
    rw [skolemizeIn_of_plain plain]
    exact ⟨rfl, rfl, rfl⟩

end Witnesses

section Lists

variable {fs : List Formula}

/-- A rewriting that changes no formula of a list does not change the list. -/
theorem map_of_fixed {rewrite : Formula → Formula} (fixed : ∀ f ∈ fs, rewrite f = f) :
    fs.map rewrite = fs :=
  (List.map_congr_left fixed).trans (List.map_id' fs)

/-- A step that changes neither formula nor state goes through a list without a change. -/
theorem thread_of_fixed {State : Type} {step : Formula → State → Formula × State} {s : State}
    (fixed : ∀ f ∈ fs, step f s = (f, s)) : thread step fs s = (fs, s) := by
  -- The first step hands its state on as it was.
  induction fs with
  | nil => rfl
  | cons f fs ih =>
    obtain ⟨here, later⟩ := List.forall_mem_cons.mp fixed
    rw [thread_cons, here, ih later]

end Lists

end Formula

namespace Draft

variable {d : Draft} {order : PrenexOrder}

/-- No stage changes formulas that are in conjunctive normal form. -/
theorem after_of_conjunctive (conjunctive : ∀ f ∈ d.formulas, f.isConjunctive = true)
    (stage : Stage) : d.after order stage = d := by
  -- Such formulas have the normal forms of all stages.
  have forms : FormsBefore order 9 d.formulas := formsBefore_of_conjunctive conjunctive
  have normal := forms.normal (by decide)
  have apart := forms.apart (by decide)
  have free := forms.free (by decide)
  have mapped {rewrite : Formula → Formula} (fixed : ∀ f ∈ d.formulas, rewrite f = f) :
      { d with formulas := d.formulas.map rewrite } = d :=
    congrArg (Draft.mk · d.symbols) (Formula.map_of_fixed fixed)
  -- Each stage is a rewriting of all formulas, a step along the list, or nothing at all.
  match stage with
  | .implicationElimination =>
    exact mapped fun f listed => Formula.eliminateImplications_of_isImplicationFree
      (Formula.isImplicationFree_of_isNegationNormal (normal f listed))
  | .negationNormalForm =>
    exact mapped fun f listed => Formula.pushNegation_of_isNegationNormal (normal f listed)
  | .standardization =>
    have fixed : ∀ f ∈ d.formulas, f.standardizing d.symbols = (f, d.symbols) := by
      -- Variables are apart, so that nothing is renamed and the table stays.
      intro f listed
      obtain ⟨same, kept, _⟩ := Formula.standardize_of_apart (apart f listed) d.symbols
      exact Prod.ext same kept
    rw [after_standardization, Formula.thread_of_fixed fixed]
  | .prenex => exact mapped fun f listed => Formula.toPrenex_of_isQuantifierFree (free f listed)
  | .skolemization =>
    have fixed : ∀ f ∈ d.formulas, f.skolemizing d.symbols = (f, d.symbols) := by
      -- No formula begins with a quantifier, so that no witness is needed.
      intro f listed
      have plain := Formula.isQuantified_of_isQuantifierFree (free f listed)
      rw [Formula.skolemizing, Formula.skolemize, Formula.skolemizeIn_of_plain plain]
    rw [after_skolemization, Formula.thread_of_fixed fixed]
  | .renaming =>
    -- No variable is bound universally in two formulas, since none is bound at all.
    obtain ⟨same, kept, _⟩ :=
      Formula.renameAcross_of_unique (forms .renaming (by decide)) d.symbols
    show Draft.mk (Formula.renameAcross d.formulas d.symbols).1
      (Formula.renameAcross d.formulas d.symbols).2.symbols = d
    rw [same, kept]
  | .universalStripping =>
    exact mapped fun f listed => Formula.dropBinders_of_isQuantifierFree _ (free f listed)
  | .distribution =>
    exact mapped fun f listed => Formula.toConjunctive_of_isConjunctive (conjunctive f listed)
  | .clauseExtraction => rfl

/-- Any number of stages leaves formulas in conjunctive normal form as they are. -/
theorem afterFirst_of_conjunctive (conjunctive : ∀ f ∈ d.formulas, f.isConjunctive = true)
    {count : Nat} (within : count ≤ Stage.formulaStages.length) : d.afterFirst order count = d :=
  afterFirst_induct (motive := fun _ e => e = d) rfl
    (fun stage e same => by rw [same, after_of_conjunctive conjunctive]) within

end Draft

/--
The stages that treat each formula by itself leave what they have made of a formula as it is. Those
that may give out symbols give out none the second time, whatever the table is by then.
-/
structure Formula.StagesIdempotent (symbols : SymbolTable) (f : Formula) : Prop where
  implicationElimination : f.eliminateImplications.eliminateImplications = f.eliminateImplications
  negationNormalForm : f.pushNegation.pushNegation = f.pushNegation
  standardization : ∀ table, ((f.standardize symbols).1.standardize table).1 =
      (f.standardize symbols).1 ∧
    ((f.standardize symbols).1.standardize table).2.symbols = table ∧
    ((f.standardize symbols).1.standardize table).2.renamings = []
  prenex : ∀ order, (f.toPrenex order).toPrenex order = f.toPrenex order
  skolemization : ∀ table, ((f.skolemize symbols).formula.skolemize table).formula =
      (f.skolemize symbols).formula ∧
    ((f.skolemize symbols).formula.skolemize table).symbols = table ∧
    ((f.skolemize symbols).formula.skolemize table).witnesses = []
  universalStripping : f.stripUniversals.stripUniversals = f.stripUniversals
  distribution : f.toConjunctive.toConjunctive = f.toConjunctive

/-- Every stage leaves what it has made of a known formula as it is. -/
theorem Formula.Known.stagesIdempotent {f : Formula} {symbols : SymbolTable}
    (known : f.Known symbols) : f.StagesIdempotent symbols where
  -- Most stages leave alone what is already of the form that they make.
  implicationElimination :=
    eliminateImplications_of_isImplicationFree f.isImplicationFree_eliminateImplications
  negationNormalForm := pushNegation_of_isNegationNormal f.isNegationNormal_pushNegation
  standardization := standardize_of_apart (standardize_apart known)
  prenex := f.toPrenex_toPrenex
  skolemization := (f.skolemizes [] symbols).again []
  universalStripping := f.dropBinders_dropBinders _
  distribution := f.toConjunctive_toConjunctive

section Whole

variable {config : Config} {formulas : List Formula} {symbols : SymbolTable} {sink : Sink}
  {result : Normalized}

/-- A run over the formulas that a run has made makes them again, without any further symbol. -/
theorem normalize_normalize (known : ∀ f ∈ formulas, f.Known symbols)
    (untimed : config.timeoutMs = none) {clock : Clock}
    (succeeded : (normalize config clock formulas symbols sink).result = .ok result)
    {other : Sink} (reliable : other.NeverFails) (time : Clock) :
    ∃ again, (normalize config time result.formulas
        (normalize config clock formulas symbols sink).symbols other).result = .ok again ∧
      again.formulas = result.formulas ∧ again.clauses = result.clauses ∧
      (normalize config time result.formulas
        (normalize config clock formulas symbols sink).symbols other).symbols =
          (normalize config clock formulas symbols sink).symbols := by
  have prepared := prepared_normalize known succeeded
  have conjunctive : ∀ f ∈ result.formulas, f.isConjunctive = true :=
    prepared.forms.conjunctive (by decide)
  -- There are as many clauses as before, which the limit has admitted.
  have within : config.budget.isExceeded (Formula.clauseTotal result.formulas) = false := by
    rw [clauseTotal_normalize known succeeded]
    exact isExceeded_of_normalize known succeeded
  obtain ⟨again, twice⟩ : ∃ again, (normalize config time result.formulas
      (normalize config clock formulas symbols sink).symbols other).result = .ok again :=
    exists_normalize prepared.known untimed reliable within
  -- The stages of the second run change nothing, so that both extract from the same formulas.
  obtain ⟨first, _⟩ := normalize_ok succeeded
  obtain ⟨second, drafts⟩ := normalize_ok twice
  rw [Draft.afterFirst_of_conjunctive conjunctive (by decide)] at drafts
  obtain ⟨same, kept⟩ := (Draft.mk.injEq ..).mp drafts
  rw [same, first] at second
  exact ⟨again, twice, same, (Except.ok.inj second).symm, kept⟩

/--
Every stage leaves what it has made of known formulas as it is, by itself or across the list, and
gives out no symbol the second time. Hence a second run over the formulas that a run has made, with
the same settings, makes the same formulas and clauses and leaves the table as it is.
-/
theorem normalize_idempotent (config : Config) (clock time : Clock)
    (known : ∀ f ∈ formulas, f.Known symbols) :
    (∀ f ∈ formulas, f.StagesIdempotent symbols) ∧
    (∀ table, (Formula.renameAcross (Formula.renameAcross formulas symbols).1 table).1 =
        (Formula.renameAcross formulas symbols).1 ∧
      (Formula.renameAcross (Formula.renameAcross formulas symbols).1 table).2.symbols = table ∧
      (Formula.renameAcross (Formula.renameAcross formulas symbols).1 table).2.renamings = []) ∧
    (config.timeoutMs = none → ∀ (sink other : Sink) (result : Normalized), other.NeverFails →
      (normalize config clock formulas symbols sink).result = .ok result →
      ∃ again, (normalize config time result.formulas
          (normalize config clock formulas symbols sink).symbols other).result = .ok again ∧
        again.formulas = result.formulas ∧ again.clauses = result.clauses ∧
        (normalize config time result.formulas
          (normalize config clock formulas symbols sink).symbols other).symbols =
            (normalize config clock formulas symbols sink).symbols) := by
  refine ⟨fun f listed => (known f listed).stagesIdempotent,
    Formula.renameAcross_of_unique (Formula.areUniversalsUnique_renameAcross known),
    fun untimed sink other result reliable succeeded => ?_⟩
  -- What a run has made is what a second run would make of it.
  exact normalize_normalize known untimed succeeded reliable time

/-- Shadowed variables are renamed by the first run, and the second one finds nothing to rename. -/
theorem normalize_idempotent_shadowing :
    Formula.shadowing.StagesIdempotent Formula.overlapping ∧ ∃ result again,
      (normalize {} (.still 0) [Formula.shadowing] Formula.overlapping .discarding).result =
        .ok result ∧
      (normalize {} (.still 9) result.formulas (normalize {} (.still 0) [Formula.shadowing]
        Formula.overlapping .discarding).symbols .discarding).result = .ok again ∧
      again.formulas = result.formulas ∧ again.clauses = result.clauses := by
  have known : ∀ f ∈ [Formula.shadowing], f.Known Formula.overlapping := by decide +kernel
  have made : (normalize {} (.still 0) [Formula.shadowing] Formula.overlapping
      .discarding).result.toOption.any (fun _ => true) = true := by
    decide +kernel
  have reliable : Sink.discarding.NeverFails := Sink.neverFails_of_isRoomy rfl
  obtain ⟨result, succeeded, _⟩ := exists_ok_of_any made
  -- The second run starts from the formulas and the table that the first one has left.
  obtain ⟨stages, _, second⟩ := normalize_idempotent {} (.still 0) (.still 9) known
  obtain ⟨again, twice, formulas, clauses, _⟩ :=
    second rfl .discarding .discarding result reliable succeeded
  exact ⟨stages _ (List.mem_singleton_self _), result, again, succeeded, twice, formulas, clauses⟩

end Whole

end ClauseForm
