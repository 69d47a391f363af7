import ClauseForm.Proofs.Attempts
import ClauseForm.Proofs.ClauseCount
import ClauseForm.Proofs.Standardized

/-! Every stage keeps the normal forms of those before it, and says no less than it is given. -/

namespace ClauseForm

/-- Formulas and the table that their symbols come from. -/
structure Draft where
  formulas : List Formula
  symbols : SymbolTable

namespace Draft

/-- What the work of a stage makes of formulas when nothing stops it. -/
def after (order : PrenexOrder) (d : Draft) : Stage → Draft
  | .implicationElimination => { d with formulas := d.formulas.map Formula.eliminateImplications }
  | .negationNormalForm => { d with formulas := d.formulas.map Formula.pushNegation }
  | .standardization =>
    let (fs, symbols, _) := Formula.standardizeAll d.formulas d.symbols
    { formulas := fs, symbols }
  | .prenex => { d with formulas := d.formulas.map (Formula.toPrenex order) }
  | .skolemization =>
    let (done, symbols) := Formula.skolemizeAll d.formulas d.symbols
    { formulas := done.map Skolemized.formula, symbols }
  | .renaming =>
    let (fs, naming) := Formula.renameAcross d.formulas d.symbols
    { formulas := fs, symbols := naming.symbols }
  | .universalStripping => { d with formulas := d.formulas.map Formula.stripUniversals }
  | .distribution => { d with formulas := d.formulas.map Formula.toConjunctive }
  | .clauseExtraction => d

end Draft

section Forms

variable {order : PrenexOrder} {fs : List Formula}

/-- Different stages have different numbers. -/
theorem Stage.number_injective : Function.Injective Stage.number := by
  -- The numbers are compared one by one.
  intro a b same
  cases a <;> cases b <;> first | rfl | cases same

/-- The stages that turn formulas into formulas are numbered in their order. -/
theorem Stage.number_formulaStages {count : Nat} (within : count < formulaStages.length) :
    formulaStages[count].number = count + 1 := by
  -- There are eight of them.
  have all : ∀ i : Fin 8, (formulaStages.get i).number = i.val + 1 := by decide
  exact all ⟨count, within⟩

/-- The normal forms of all stages before a number. -/
def FormsBefore (order : PrenexOrder) (n : Nat) (fs : List Formula) : Prop :=
  ∀ stage : Stage, stage.number < n → stage.holdsAfter order fs = true

/-- With the normal form of the next stage the normal forms go one step further. -/
theorem FormsBefore.next (stage : Stage) (forms : FormsBefore order stage.number fs)
    (holds : stage.holdsAfter order fs = true) : FormsBefore order (stage.number + 1) fs := by
  -- No other stage has the number that is added.
  intro other below
  by_cases same : other.number = stage.number
  · exact Stage.number_injective same ▸ holds
  · exact forms other (by omega)

/-- No normal form is asked for before the first stage. -/
theorem formsBefore_one (order : PrenexOrder) (fs : List Formula) : FormsBefore order 1 fs := by
  intro stage below
  -- The numbers begin with one.
  have positive : 0 < stage.number := by cases stage <;> decide
  omega

section Establishing

variable (normal : ∀ f ∈ fs, f.isNegationNormal = true)

include normal

/-- Formulas in negation normal form are as the first two stages leave them. -/
theorem formsBefore_of_normal : FormsBefore order 3 fs := by
  -- The second form implies the first one.
  have free : ∀ f ∈ fs, f.isImplicationFree = true := fun f listed =>
    Formula.isImplicationFree_of_isNegationNormal (normal f listed)
  have first : FormsBefore order 2 fs :=
    (formsBefore_one order fs).next .implicationElimination (List.all_eq_true.mpr free)
  exact first.next .negationNormalForm (List.all_eq_true.mpr normal)

/-- If their variables are also kept apart, they are as the third stage leaves them. -/
theorem formsBefore_of_apart (apart : ∀ f ∈ fs, f.Apart) : FormsBefore order 4 fs := by
  -- Having unique binders is the form of the third stage.
  have unique : ∀ f ∈ fs, f.hasUniqueBinders = true := fun f listed =>
    Formula.hasUniqueBinders_iff.mpr (apart f listed)
  exact (formsBefore_of_normal normal).next .standardization (List.all_eq_true.mpr unique)

/-- With universal quantifiers in front only, they are as the fifth stage leaves them. -/
theorem formsBefore_of_skolemized (apart : ∀ f ∈ fs, f.Apart)
    (prenex : ∀ f ∈ fs, f.isPrenex = true) (skolemized : ∀ f ∈ fs, f.isSkolemized = true) :
    FormsBefore order 6 fs := by
  -- Both orders of quantifiers are met where only one kind is left.
  have ordered : Stage.prenex.holdsAfter order fs = true := by
    cases order with
    | preserve => exact List.all_eq_true.mpr prenex
    | existentialsFirst =>
      exact List.all_eq_true.mpr fun f listed =>
        Formula.isExistentialsFirst_of_isSkolemized (prenex f listed) (skolemized f listed)
  have fourth := (formsBefore_of_apart normal apart).next .prenex ordered
  exact fourth.next .skolemization (List.all_eq_true.mpr skolemized)

/-- Without quantifiers, they are as the seventh stage leaves them. -/
theorem formsBefore_of_free (free : ∀ f ∈ fs, f.isQuantifierFree = true) :
    FormsBefore order 8 fs := by
  have fifth : FormsBefore order 6 fs := formsBefore_of_skolemized normal
    (fun f listed => Formula.apart_of_isQuantifierFree (free f listed))
    (fun f listed => Formula.isPrenex_of_isQuantifierFree (free f listed))
    (fun f listed => Formula.isSkolemized_of_isQuantifierFree (free f listed))
  -- No formula binds a variable at all.
  have unbound : fs.flatMap Formula.binders = [] :=
    List.flatMap_eq_nil_iff.mpr fun f listed => Formula.binders_of_isQuantifierFree (free f listed)
  have unique : Stage.renaming.holdsAfter order fs = true := by
    unfold Stage.holdsAfter Formula.areUniversalsUnique
    rw [unbound]
    rfl
  exact (fifth.next .renaming unique).next .universalStripping (List.all_eq_true.mpr free)

end Establishing

/-- Formulas in conjunctive normal form are as the eighth stage leaves them. -/
theorem formsBefore_of_conjunctive (conjunctive : ∀ f ∈ fs, f.isConjunctive = true) :
    FormsBefore order 9 fs := by
  -- Conjunctive normal form implies all forms before it.
  have seventh : FormsBefore order 8 fs := formsBefore_of_free
    (fun f listed => (Formula.normal_of_isConjunctive (conjunctive f listed)).1)
    (fun f listed => (Formula.normal_of_isConjunctive (conjunctive f listed)).2)
  exact seventh.next .distribution (List.all_eq_true.mpr conjunctive)

section Reading

variable {n : Nat} (forms : FormsBefore order n fs)

include forms

/-- After the second stage formulas are in negation normal form. -/
theorem FormsBefore.normal (late : 2 < n) : ∀ f ∈ fs, f.isNegationNormal = true :=
  List.all_eq_true.mp (forms .negationNormalForm late)

/-- After the third stage formulas keep their variables apart. -/
theorem FormsBefore.apart (late : 3 < n) : ∀ f ∈ fs, f.Apart := fun f listed =>
  Formula.hasUniqueBinders_iff.mp (List.all_eq_true.mp (forms .standardization late) f listed)

/-- After the fourth stage formulas have their quantifiers in front, in either order. -/
theorem FormsBefore.prenex (late : 4 < n) : ∀ f ∈ fs, f.isPrenex = true := by
  -- The form asked for in either order includes this one.
  have ordered := forms .prenex late
  cases order with
  | preserve => exact List.all_eq_true.mp ordered
  | existentialsFirst =>
    intro f listed
    exact ((Bool.and_eq_true _ _).mp (List.all_eq_true.mp ordered f listed)).1

/-- After the fifth stage formulas have no existential quantifier. -/
theorem FormsBefore.skolemized (late : 5 < n) : ∀ f ∈ fs, f.isSkolemized = true :=
  List.all_eq_true.mp (forms .skolemization late)

/-- After the seventh stage formulas have no quantifier. -/
theorem FormsBefore.free (late : 7 < n) : ∀ f ∈ fs, f.isQuantifierFree = true :=
  List.all_eq_true.mp (forms .universalStripping late)

/-- After the eighth stage formulas are in conjunctive normal form. -/
theorem FormsBefore.conjunctive (late : 8 < n) : ∀ f ∈ fs, f.isConjunctive = true :=
  List.all_eq_true.mp (forms .distribution late)

end Reading

end Forms

/-- Formulas whose symbols are known, in the normal forms of all stages before a number. -/
structure Draft.Prepared (order : PrenexOrder) (n : Nat) (d : Draft) : Prop where
  known : ∀ f ∈ d.formulas, f.Known d.symbols
  forms : FormsBefore order n d.formulas

/-- What a stage may do to a formula while the table of symbols grows. -/
structure Formula.Rewritten (symbols : SymbolTable) (f g : Formula) : Prop where
  /-- The table has grown to know the new formula. -/
  known : g.Known symbols
  /-- The old formula is true where the new one is. -/
  sound : ∀ m, g.TrueIn m → f.TrueIn m
  count : g.clauseCount true = f.clauseCount true

/-- A renamed formula is a rewritten one. -/
theorem Formula.Renamed.rewritten {symbols : SymbolTable} {f g : Formula}
    (renamed : Renamed symbols f g) : Rewritten symbols f g where
  known := renamed.known
  sound _ := renamed.equivalent.trueIn.mp
  count := renamed.shape.clauseCount.symm

namespace Draft

variable {order : PrenexOrder} {d : Draft} {stage : Stage}

/-- A function rewrites all formulas of a list if it rewrites each of them. -/
theorem rewritten_map {symbols : SymbolTable} {fs : List Formula} {rewrite : Formula → Formula}
    (each : ∀ f ∈ fs, Formula.Rewritten symbols f (rewrite f)) :
    List.Forall₂ (Formula.Rewritten symbols) fs (fs.map rewrite) :=
  List.forall₂_map_right_iff.mpr (List.forall₂_same.mpr each)

/-- A stage rewrites each formula of a prepared draft. -/
theorem rewritten_after (prepared : d.Prepared order stage.number) :
    List.Forall₂ (Formula.Rewritten (d.after order stage).symbols) d.formulas
      (d.after order stage).formulas := by
  -- What a stage relies on has been established by the stages before it.
  match stage, prepared with
  | .implicationElimination, ⟨known, forms⟩ =>
    exact rewritten_map fun f listed =>
      { known := (known f listed).eliminateImplications
        sound := fun _ => (Formula.eliminateImplications_equivalent f).trueIn.mp
        count := f.clauseCount_eliminateImplications true }
  | .negationNormalForm, ⟨known, forms⟩ =>
    exact rewritten_map fun f listed =>
      { known := (known f listed).signed true
        sound := fun _ => (Formula.pushNegation_equivalent f).trueIn.mp
        count := f.clauseCount_signed true }
  | .standardization, ⟨known, forms⟩ =>
    exact (Formula.standardizeAll_spec known).imp fun f g pair => pair.1.rewritten
  | .prenex, ⟨known, forms⟩ =>
    have normal := forms.normal (by decide)
    have apart := forms.apart (by decide)
    exact rewritten_map fun f listed =>
      { known := (known f listed).toPrenex order
        sound := fun _ holds values =>
          Formula.holds_of_toPrenex (normal f listed) (apart f listed) (holds values)
        count := (Formula.clauseCount_quantify _).trans (Formula.clauseCount_dropBinders _) }
  | .skolemization, ⟨known, forms⟩ =>
    have apart := forms.apart (by decide)
    have both : ∀ f ∈ d.formulas, f.Known d.symbols ∧ f.Apart := fun f listed =>
      ⟨known f listed, apart f listed⟩
    have pairs := (List.forall₂_and_left _ _).mpr
      ⟨both, Formula.skolemizeAll_spec d.formulas d.symbols⟩
    refine List.forall₂_map_right_iff.mpr (pairs.imp ?_)
    rintro f done ⟨⟨known, apart⟩, before, past, steps, future⟩
    exact
      { known := (steps.known (known.grows past) (by simp)).grows future
        sound := fun _ holds values => steps.holds_of apart.distinct (by simp) (holds values)
        count := steps.clauseCount }
  | .renaming, ⟨known, forms⟩ =>
    exact (Formula.renameAcross_spec known).imp fun f g pair => pair.1.rewritten
  | .universalStripping, ⟨known, forms⟩ =>
    have prenex := forms.prenex (by decide)
    have skolemized := forms.skolemized (by decide)
    exact rewritten_map fun f listed =>
      { known := (known f listed).dropBinders
        sound := fun _ =>
          (Formula.trueIn_stripUniversals (prenex f listed) (skolemized f listed)).mp
        count := Formula.clauseCount_dropBinders _ }
  | .distribution, ⟨known, forms⟩ =>
    exact rewritten_map fun f listed =>
      { known := (known f listed).toConjunctive
        sound := fun _ => (Formula.toConjunctive_equivalent f).trueIn.mp
        count := f.clauseCount_toConjunctive }
  | .clauseExtraction, ⟨known, forms⟩ =>
    exact List.forall₂_same.mpr fun f listed => ⟨known f listed, fun _ => id, rfl⟩

/-- A stage establishes its normal form and keeps those of the stages before it. -/
theorem forms_after (prepared : d.Prepared order stage.number) :
    FormsBefore order (stage.number + 1) (d.after order stage).formulas := by
  -- Besides its own form, a stage keeps the forms from which the earlier ones follow.
  match stage, prepared with
  | .implicationElimination, _ =>
    refine (formsBefore_one order _).next .implicationElimination (List.all_eq_true.mpr ?_)
    exact List.forall_mem_map.mpr fun f _ => f.isImplicationFree_eliminateImplications
  | .negationNormalForm, _ =>
    apply formsBefore_of_normal
    exact List.forall_mem_map.mpr fun f _ => f.isNegationNormal_pushNegation
  | .standardization, ⟨known, forms⟩ =>
    have normal := forms.normal (by decide)
    have pairs := Formula.standardizeAll_spec known
    apply formsBefore_of_apart
    · exact forall_of_forall₂_right pairs fun f listed g pair =>
        pair.1.shape.isNegationNormal ▸ normal f listed
    · exact forall_of_forall₂_right pairs fun f listed g pair => pair.2
  | .prenex, ⟨_, forms⟩ =>
    have normal := forms.normal (by decide)
    have apart := forms.apart (by decide)
    have ordered : Stage.prenex.holdsAfter order (d.formulas.map (Formula.toPrenex order)) =
        true := by
      cases order with
      | preserve =>
        exact List.all_eq_true.mpr (List.forall_mem_map.mpr fun f _ => f.isPrenex_toPrenex _)
      | existentialsFirst =>
        exact List.all_eq_true.mpr
          (List.forall_mem_map.mpr fun f _ => f.isExistentialsFirst_toPrenex)
    refine (formsBefore_of_apart ?_ ?_).next .prenex ordered
    · exact List.forall_mem_map.mpr fun f listed =>
        Formula.isNegationNormal_toPrenex (normal f listed)
    · exact List.forall_mem_map.mpr fun f listed => (apart f listed).toPrenex order
  | .skolemization, ⟨_, forms⟩ =>
    have normal := forms.normal (by decide)
    have apart := forms.apart (by decide)
    have prenex := forms.prenex (by decide)
    have pairs := Formula.skolemizeAll_spec d.formulas d.symbols
    apply formsBefore_of_skolemized
    · exact List.forall_mem_map.mpr (forall_of_forall₂_right pairs
        fun f listed done ⟨_, _, steps, _⟩ => steps.isNegationNormal (normal f listed))
    · exact List.forall_mem_map.mpr (forall_of_forall₂_right pairs
        fun f listed done ⟨_, _, steps, _⟩ => steps.apart (apart f listed) (by simp))
    · exact List.forall_mem_map.mpr (forall_of_forall₂_right pairs
        fun f listed done ⟨_, _, steps, _⟩ => (steps.isPrenex (prenex f listed)).1)
    · exact List.forall_mem_map.mpr (forall_of_forall₂_right pairs
        fun f listed done ⟨_, _, steps, _⟩ => (steps.isPrenex (prenex f listed)).2)
  | .renaming, ⟨known, forms⟩ =>
    have normal := forms.normal (by decide)
    have apart := forms.apart (by decide)
    have prenex := forms.prenex (by decide)
    have skolemized := forms.skolemized (by decide)
    have pairs := Formula.renameAcross_spec known
    have unique : Stage.renaming.holdsAfter order (Formula.renameAcross d.formulas d.symbols).1 =
        true := Formula.areUniversalsUnique_renameAcross known
    refine (formsBefore_of_skolemized ?_ ?_ ?_ ?_).next .renaming unique
    · exact forall_of_forall₂_right pairs fun f listed g pair =>
        pair.1.shape.isNegationNormal ▸ normal f listed
    · exact forall_of_forall₂_right pairs fun f listed g pair =>
        pair.2 (known f listed) (skolemized f listed) (apart f listed)
    · exact forall_of_forall₂_right pairs fun f listed g pair =>
        pair.1.shape.isPrenex ▸ prenex f listed
    · exact forall_of_forall₂_right pairs fun f listed g pair =>
        pair.1.shape.isSkolemized ▸ skolemized f listed
  | .universalStripping, ⟨_, forms⟩ =>
    have normal := forms.normal (by decide)
    have skolemized := forms.skolemized (by decide)
    apply formsBefore_of_free
    · exact List.forall_mem_map.mpr fun f listed =>
        Formula.isNegationNormal_dropBinders (normal f listed)
    · exact List.forall_mem_map.mpr fun f listed =>
        Formula.isQuantifierFree_stripUniversals (skolemized f listed)
  | .distribution, ⟨_, forms⟩ =>
    have normal := forms.normal (by decide)
    have free := forms.free (by decide)
    apply formsBefore_of_conjunctive
    exact List.forall_mem_map.mpr fun f listed =>
      Formula.isConjunctive_toConjunctive (normal f listed) (free f listed)
  | .clauseExtraction, ⟨_, forms⟩ => exact forms.next .clauseExtraction rfl

/-- The work of a stage prepares a draft for the next one. -/
theorem prepared_after (prepared : d.Prepared order stage.number) :
    (d.after order stage).Prepared order (stage.number + 1) where
  known := forall_of_forall₂_right (rewritten_after prepared) fun _ _ _ rewritten => rewritten.known
  forms := forms_after prepared

/-- Formulas are true where a stage makes true formulas of them. -/
theorem trueIn_of_after (prepared : d.Prepared order stage.number) {m : Structure}
    (holds : ∀ g ∈ (d.after order stage).formulas, g.TrueIn m) : ∀ f ∈ d.formulas, f.TrueIn m := by
  -- Each formula has been rewritten to one of the new ones, which says no less.
  intro f listed
  obtain ⟨g, made, rewritten⟩ := exists_of_forall₂_right (rewritten_after prepared).flip listed
  exact rewritten.sound m (holds g made)

/-- A stage keeps the number of clauses. -/
theorem clauseTotal_after (prepared : d.Prepared order stage.number) :
    Formula.clauseTotal (d.after order stage).formulas = Formula.clauseTotal d.formulas :=
  Formula.clauseTotal_eq ((rewritten_after prepared).imp fun _ _ rewritten => rewritten.count)

/-- The work of a stage keeps the name of every symbol. -/
theorem grows_after (order : PrenexOrder) (d : Draft) (stage : Stage) :
    d.symbols.Grows (d.after order stage).symbols := by
  -- Only three stages give out symbols.
  match stage with
  | .standardization => exact Formula.standardizeAll_grows d.formulas d.symbols
  | .skolemization => exact Formula.skolemizeAll_grows d.formulas d.symbols
  | .renaming => exact Formula.renameAcross_grows d.formulas d.symbols
  | .implicationElimination | .negationNormalForm | .prenex => exact .refl _
  | .universalStripping | .distribution | .clauseExtraction => exact .refl _

/-- Before they are distributed, the clauses that arise can be counted. -/
theorem conjunctTotal_distribution (prepared : d.Prepared order Stage.distribution.number) :
    Formula.conjunctTotal (d.formulas.map Formula.toConjunctive) =
      Formula.clauseTotal d.formulas := by
  -- In conjunctive normal form the conjuncts are the clauses counted.
  have conjunctive := (forms_after prepared).conjunctive (Nat.lt_succ_self _)
  have count := clauseTotal_after prepared
  rw [← Formula.conjunctTotal_of_isConjunctive conjunctive] at count
  exact count

/-- What the first stages make of formulas, one after the other. -/
def afterFirst (order : PrenexOrder) (d : Draft) (count : Nat) : Draft :=
  (Stage.formulaStages.take count).foldl (after order) d

/-- One stage more does its work on what the others have made. -/
theorem afterFirst_succ {count : Nat} (within : count < Stage.formulaStages.length) :
    d.afterFirst order (count + 1) =
      (d.afterFirst order count).after order Stage.formulaStages[count] := by
  -- The list of stages is extended at its end.
  simp only [afterFirst, List.take_succ_eq_append_getElem within, List.foldl_append,
    List.foldl_cons, List.foldl_nil]

/--
What holds at the beginning and is passed on by every stage holds after any number of stages. It may
depend on the stage that comes next.
-/
theorem afterFirst_induct {motive : Nat → Draft → Prop} (start : motive 1 d)
    (step : ∀ (stage : Stage) (e : Draft), motive stage.number e →
      motive (stage.number + 1) (e.after order stage)) {count : Nat}
    (within : count ≤ Stage.formulaStages.length) :
    motive (count + 1) (d.afterFirst order count) := by
  -- The number of a stage is one more than the number of stages before it.
  induction count with
  | zero => exact start
  | succ count ih =>
    have before := ih (by omega)
    rw [← Stage.number_formulaStages within] at before
    rw [afterFirst_succ within, ← Stage.number_formulaStages within]
    exact step _ _ before

section Known

variable (known : ∀ f ∈ d.formulas, f.Known d.symbols) {count : Nat}
  (within : count ≤ Stage.formulaStages.length)

include known within

/-- After any number of stages a draft of known formulas is prepared for the next stage. -/
theorem prepared_afterFirst : (d.afterFirst order count).Prepared order (count + 1) :=
  afterFirst_induct (motive := fun n e => e.Prepared order n)
    ⟨known, formsBefore_one order d.formulas⟩
    (fun _ _ prepared => prepared_after prepared) within

/-- Every stage may rely on the draft being prepared for it. -/
theorem prepared_induct {motive : Nat → Draft → Prop} (start : motive 1 d)
    (step : ∀ (stage : Stage) (e : Draft), e.Prepared order stage.number →
      motive stage.number e → motive (stage.number + 1) (e.after order stage)) :
    motive (count + 1) (d.afterFirst order count) := by
  -- Preparation is itself passed on by every stage.
  have both : (d.afterFirst order count).Prepared order (count + 1) ∧
      motive (count + 1) (d.afterFirst order count) :=
    afterFirst_induct (motive := fun n e => e.Prepared order n ∧ motive n e)
      ⟨⟨known, formsBefore_one order d.formulas⟩, start⟩
      (fun stage e ⟨prepared, held⟩ => ⟨prepared_after prepared, step stage e prepared held⟩)
      within
  exact both.2

/-- Formulas are true where what any number of stages makes of them is true. -/
theorem trueIn_of_afterFirst {m : Structure}
    (holds : ∀ g ∈ (d.afterFirst order count).formulas, g.TrueIn m) :
    ∀ f ∈ d.formulas, f.TrueIn m := by
  -- The last stage is undone first.
  refine prepared_induct known within
    (motive := fun _ e => (∀ g ∈ e.formulas, g.TrueIn m) → ∀ f ∈ d.formulas, f.TrueIn m)
    (fun all => all) ?_ holds
  exact fun _ _ prepared before all => before (trueIn_of_after prepared all)

/-- Any number of stages keeps the number of clauses. -/
theorem clauseTotal_afterFirst :
    Formula.clauseTotal (d.afterFirst order count).formulas =
      Formula.clauseTotal d.formulas :=
  prepared_induct known within
    (motive := fun _ e => Formula.clauseTotal e.formulas = Formula.clauseTotal d.formulas) rfl
    fun _ _ prepared same => (clauseTotal_after prepared).trans same

end Known

end Draft

end ClauseForm
