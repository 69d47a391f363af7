import ClauseForm.Proofs.Alpha
import ClauseForm.Proofs.Distribution
import ClauseForm.Proofs.WitnessTerms

/-!
Every stage turns the atoms of formulas into instances with shallow terms in place of variables, and
loses none of them.
-/

namespace ClauseForm

section Depth

/-- A bound on the largest of some numbers is a bound on each of them. -/
theorem foldl_max_le_iff {ns : List Nat} {m bound : Nat} :
    ns.foldl max m ≤ bound ↔ m ≤ bound ∧ ∀ n ∈ ns, n ≤ bound := by
  -- The largest number so far is compared together with the next one.
  induction ns generalizing m with
  | nil => simp
  | cons n ns ih =>
    rw [List.foldl_cons, ih, List.forall_mem_cons, max_le_iff, and_assoc]

namespace Term

/-- An application is deeper than each of its arguments, and no deeper than that. -/
theorem depth_app_le_iff {f : FunctionSymbol} {args : List Term} {bound : Nat} :
    (app f args).depth ≤ bound ↔ 1 ≤ bound ∧ ∀ t ∈ args, t.depth + 1 ≤ bound := by
  cases bound with
  | zero => simp [depth_app]
  | succ bound =>
    -- One level is for the symbol itself, and the others are left for the arguments.
    rw [depth_app, Nat.add_comm, Nat.succ_le_succ_iff, foldl_max_le_iff]
    simp only [List.forall_mem_map, Nat.zero_le, Nat.le_add_left, true_and,
      Nat.add_le_add_iff_right]

variable {values : Variable → Term} {k : Nat}

/-- Terms in place of variables do not make a term less deep. -/
theorem depth_le_bind (values : Variable → Term) (t : Term) : t.depth ≤ (t.bind values).depth := by
  -- Variables and constants have no depth, and below a symbol the arguments are compared.
  induction t with
  | var x => exact Nat.zero_le _
  | const c => exact Nat.zero_le _
  | app f args ih =>
    rw [bind_app]
    obtain ⟨positive, each⟩ := depth_app_le_iff.mp (le_refl (app f (args.map (bind values))).depth)
    refine depth_app_le_iff.mpr ⟨positive, fun t listed => ?_⟩
    exact (Nat.succ_le_succ (ih t listed)).trans (each _ (List.mem_map_of_mem listed))

/-- Terms in place of variables make a term deeper by no more than their own depth. -/
theorem depth_bind_le (shallow : ∀ x, (values x).depth ≤ k) (t : Term) :
    (t.bind values).depth ≤ t.depth + k := by
  -- Only a variable is replaced, so that depth is added at the leaves.
  induction t with
  | var x => exact (shallow x).trans (Nat.le_add_left k 0)
  | const c => exact Nat.zero_le _
  | app f args ih =>
    obtain ⟨positive, each⟩ := depth_app_le_iff.mp (le_refl (app f args).depth)
    rw [bind_app, depth_app_le_iff]
    refine ⟨positive.trans (Nat.le_add_right _ k), List.forall_mem_map.mpr fun t listed => ?_⟩
    have here := ih t listed
    have whole := each t listed
    omega

end Term

end Depth

/-- An instance of an atom with terms up to a depth in place of its variables. -/
def Atom.Instance (k : Nat) (a b : Atom) : Prop :=
  ∃ values : Variable → Term, (∀ x, (values x).depth ≤ k) ∧ b = a.bind values

/-- Some atoms are the instances of others, with terms up to a depth in place of variables. -/
structure Instances (k : Nat) (as bs : List Atom) : Prop where
  kept : ∀ a ∈ as, ∃ b ∈ bs, a.Instance k b
  made : ∀ b ∈ bs, ∃ a ∈ as, a.Instance k b

namespace Atom.Instance

variable {a b c : Atom} {j k : Nat}

/-- An atom is an instance of itself. -/
theorem refl (a : Atom) : a.Instance 0 a := ⟨.var, fun _ => le_rfl, a.bind_var_self.symm⟩

/-- Renaming its variables makes an instance of an atom without any depth. -/
theorem rename (a : Atom) (names : Variable → Variable) : a.Instance 0 (a.rename names) :=
  ⟨fun x => .var (names x), fun _ => le_rfl, rfl⟩

/-- An instance of an instance may be deeper by both depths. -/
theorem trans (first : a.Instance j b) (second : b.Instance k c) : a.Instance (j + k) c := by
  -- Terms for the variables of terms are put in after these.
  obtain ⟨parts, shallow, rfl⟩ := first
  obtain ⟨others, shallow', rfl⟩ := second
  refine ⟨fun x => (parts x).bind others, fun x => ?_, a.bind_bind parts others⟩
  exact (Term.depth_bind_le shallow' (parts x)).trans (Nat.add_le_add_right (shallow x) k)

end Atom.Instance

namespace Instances

variable {as bs cs : List Atom} {j k : Nat}

/-- Atoms are instances of themselves, in whatever order and however often they are listed. -/
theorem of_mem_iff (same : ∀ a, a ∈ bs ↔ a ∈ as) : Instances 0 as bs where
  kept a listed := ⟨a, (same a).mpr listed, .refl a⟩
  made b listed := ⟨b, (same b).mp listed, .refl b⟩

/-- Instances of instances may be deeper by both depths. -/
theorem trans (first : Instances j as bs) (second : Instances k bs cs) :
    Instances (j + k) as cs where
  kept a listed := by
    -- What is in the middle is found first, from whichever side.
    obtain ⟨b, inside, one⟩ := first.kept a listed
    obtain ⟨c, last, two⟩ := second.kept b inside
    exact ⟨c, last, one.trans two⟩
  made c listed := by
    obtain ⟨b, inside, two⟩ := second.made c listed
    obtain ⟨a, start, one⟩ := first.made b inside
    exact ⟨a, start, one.trans two⟩

/-- Instances of two lists may be listed one after the other. -/
theorem append {as' bs' : List Atom} (first : Instances k as bs) (second : Instances k as' bs') :
    Instances k (as ++ as') (bs ++ bs') where
  kept := by
    rw [List.forall_mem_append]
    -- Each list has its own instances.
    constructor
    · intro a listed
      obtain ⟨b, inside, made⟩ := first.kept a listed
      exact ⟨b, List.mem_append_left _ inside, made⟩
    · intro a listed
      obtain ⟨b, inside, made⟩ := second.kept a listed
      exact ⟨b, List.mem_append_right _ inside, made⟩
  made := by
    -- Each instance belongs to the list that it was made from.
    rw [List.forall_mem_append]
    constructor
    · intro b listed
      obtain ⟨a, inside, made⟩ := first.made b listed
      exact ⟨a, List.mem_append_left _ inside, made⟩
    · intro b listed
      obtain ⟨a, inside, made⟩ := second.made b listed
      exact ⟨a, List.mem_append_right _ inside, made⟩

/-- One replacement in all atoms alike makes instances of them. -/
theorem of_map {values : Variable → Term} (shallow : ∀ x, (values x).depth ≤ k)
    (as : List Atom) : Instances k as (as.map (Atom.bind values)) where
  kept _ listed := ⟨_, List.mem_map_of_mem listed, values, shallow, rfl⟩
  made := List.forall_mem_map.mpr fun _ listed => ⟨_, listed, values, shallow, rfl⟩

/-- Formulas that correspond to each other may be looked at one after the other. -/
theorem flatMap {fs gs : List Formula}
    (each : List.Forall₂ (fun f g => Instances k f.atoms g.atoms) fs gs) :
    Instances k (fs.flatMap Formula.atoms) (gs.flatMap Formula.atoms) := by
  -- Pairs of formulas add their atoms to both lists.
  induction each with
  | nil => exact ⟨by simp, by simp⟩
  | cons here _ ih => exact here.append ih

end Instances

namespace Formula

variable {a : Atom} {f g : Formula} {fs : List Formula}

/-- Writing out implications may repeat atoms, but makes no new ones. -/
theorem mem_atoms_eliminateImplications : a ∈ f.eliminateImplications.atoms ↔ a ∈ f.atoms := by
  -- Only an equivalence has its sides repeated.
  induction f with
  | atom b => rfl
  | not f ih => exact ih
  | binary op l r left right =>
    cases op <;> simp only [eliminateImplications, atoms, List.mem_append, left, right]
    tauto
  | quantified q x f ih => exact ih

/-- Moving negations inwards keeps the atoms, whatever the sign. -/
theorem mem_atoms_signed {positive : Bool} : a ∈ (f.signed positive).atoms ↔ a ∈ f.atoms := by
  induction f generalizing positive with
  | atom b => cases positive <;> rfl
  | not f ih => exact ih
  | binary op l r left right =>
    -- An equivalence has the atoms of both sides twice, and all others have them once.
    cases op <;> cases positive <;> simp [signed, atoms, left, right]
    all_goals tauto
  | quantified q x f ih => exact ih

/-- A walk renames the variables of each atom. -/
theorem instances_claimBinders (claims : Quantifier → Bool) (f : Formula)
    (names : Variable → Variable) (naming : Naming) :
    Instances 0 f.atoms (f.claimBinders claims names naming).1.atoms := by
  induction f generalizing names naming with
  | atom a =>
    -- All variables of the atom are renamed at once.
    refine ⟨fun b listed => ?_, fun b listed => ?_⟩
    · obtain rfl := List.mem_singleton.mp listed
      exact ⟨_, List.mem_singleton_self _, .rename b names⟩
    · obtain rfl := List.mem_singleton.mp listed
      exact ⟨a, List.mem_singleton_self a, .rename a names⟩
  | not f ih => exact ih names naming
  | binary op l r left right => exact (left names naming).append (right names _)
  | quantified q x f ih => exact ih _ _

/-- Distribution loses no atoms and makes no new ones. -/
theorem mem_atoms_distribute_iff {l r : Formula} :
    a ∈ (l.distribute r).atoms ↔ a ∈ l.atoms ∨ a ∈ r.atoms := by
  refine ⟨mem_atoms_distribute, fun member => ?_⟩
  -- A conjunct that has the atom is joined with some conjunct of the other side.
  rcases member with member | member
  · obtain ⟨c, inLeft, inside⟩ := mem_atoms_iff_conjuncts.mp member
    obtain ⟨d, inRight⟩ := r.exists_conjunct
    have joined := mem_conjuncts_distribute.mpr ⟨c, inLeft, d, inRight, rfl⟩
    exact mem_atoms_iff_conjuncts.mpr ⟨_, joined, List.mem_append_left _ inside⟩
  · obtain ⟨d, inRight, inside⟩ := mem_atoms_iff_conjuncts.mp member
    obtain ⟨c, inLeft⟩ := l.exists_conjunct
    have joined := mem_conjuncts_distribute.mpr ⟨c, inLeft, d, inRight, rfl⟩
    exact mem_atoms_iff_conjuncts.mpr ⟨_, joined, List.mem_append_right _ inside⟩

/-- A conjunctive normal form has the atoms of the formula. -/
theorem mem_atoms_toConjunctive : a ∈ f.toConjunctive.atoms ↔ a ∈ f.atoms := by
  -- Only disjunctions are distributed over what their sides have become.
  induction f with
  | binary op l r left right =>
    rw [atoms, List.mem_append]
    cases op with
    | and => exact List.mem_append.trans (or_congr left right)
    | or => exact mem_atoms_distribute_iff.trans (or_congr left right)
    | implies | iff => exact List.mem_append
  | _ => rfl

/-- Where no quantifier binds the variable, it is replaced in all atoms. -/
theorem atoms_substitute {x : Variable} (unbound : x ∉ f.boundVariables) (value : Term) :
    (f.substitute x value).atoms = f.atoms.map (Atom.bind (assign .var x value)) := by
  -- A quantifier over the variable itself, which would stop the replacement, is excluded.
  induction f with
  | atom a => rfl
  | not f ih => exact ih unbound
  | binary op l r left right =>
    rw [bound_binary, List.mem_append, not_or] at unbound
    rw [substitute, atoms, left unbound.1, right unbound.2, ← List.map_append]
    rfl
  | quantified q y f ih =>
    rw [bound_quantified, List.mem_cons, not_or] at unbound
    rw [substitute, if_neg (Ne.symm unbound.1)]
    exact ih unbound.2

end Formula

/-- A witness is the use of a Skolem symbol with the variables in scope. -/
theorem exists_use {symbols after : SymbolTable} {scope : List Variable} {term : Term}
    (made : symbols.freshWitness scope = (term, after)) :
    ∃ use : SkolemUse, use.args = scope ∧ term = use.term :=
  ⟨⟨symbols.freshSkolem.1, scope⟩, rfl,
    (congrArg Prod.fst ((freshWitness_eq symbols scope).symm.trans made)).symm⟩

/-- A witness is at most one deep, and a constant is not deep at all. -/
theorem SkolemUse.depth_term_le (use : SkolemUse) {k : Nat} (enough : 1 ≤ k ∨ use.args = []) :
    use.term.depth ≤ k := by
  -- Without arguments the witness is a constant.
  rw [term]
  split
  · exact Nat.zero_le k
  · rename_i some
    have positive : 1 ≤ k := enough.resolve_right fun none => some (List.isEmpty_iff.mpr none)
    rw [Term.depth_app_le_iff]
    -- The symbol is applied to variables.
    exact ⟨positive, List.forall_mem_map.mpr fun x _ => positive⟩

/-- A use stays as it is where only variables are replaced that it does not have. -/
theorem SkolemUse.bind_term (use : SkolemUse) {values : Variable → Term}
    (unmoved : ∀ x ∈ use.args, values x = .var x) : use.term.bind values = use.term := by
  rw [term]
  -- A constant has nothing to be replaced.
  split
  · rfl
  · rw [Term.bind_app, List.map_map]
    exact congrArg (Term.app _) (List.map_congr_left unmoved)

namespace Formula

/--
The witnesses for the existential quantifiers in front of a formula take the place of variables in
all of its atoms alike. None of them comes to lie in another one, so that they are one deep, or not
deep at all where they are constants.
-/
theorem Skolemizes.exists_values {f g : Formula} {scope : List Variable}
    {symbols final : SymbolTable} (steps : Skolemizes symbols scope f final g)
    (distinct : f.boundVariables.Nodup) (outside : ∀ x ∈ scope, x ∉ f.boundVariables) {k : Nat}
    (enough : 1 ≤ k ∨ scope = [] ∧ f.isExistentialsFirst = true ∨ f.isSkolemized = true) :
    ∃ values : Variable → Term, (∀ y, y ∉ f.boundVariables → values y = .var y) ∧
      (∀ y, (values y).depth ≤ k) ∧ g.atoms = f.atoms.map (Atom.bind values) := by
  -- The terms for the steps that follow are given by induction, and the first step is put before
  -- them.
  induction steps with
  | @existential symbols after final scope x f g term made rest ih =>
    obtain ⟨use, applied, rfl⟩ := exists_use made
    rw [boundVariables, binders_substitute] at ih
    obtain ⟨unbound, distinct⟩ := List.nodup_cons.mp (bound_quantified ▸ distinct)
    simp only [bound_quantified, List.mem_cons, not_or] at outside ⊢
    have shape := sameShape_substitute x use.term f
    -- Below the existential quantifier the existential ones still come first.
    have room : 1 ≤ k ∨ scope = [] ∧ f.isExistentialsFirst = true := by
      rcases enough with positive | first | skolemized
      · exact Or.inl positive
      · exact Or.inr first
      · cases skolemized
    obtain ⟨values, unmoved, shallow, later⟩ := ih distinct (fun y inside => (outside y inside).2)
      (room.imp_right fun first => Or.inl ⟨first.1, shape.isExistentialsFirst ▸ first.2⟩)
    -- The variables of the witness are in scope, and so they are not replaced in turn.
    have whole : use.term.bind values = use.term :=
      use.bind_term fun y inside => unmoved y (outside y (applied ▸ inside)).2
    refine ⟨fun y => (assign .var x use.term y).bind values, fun y elsewhere => ?_, fun y => ?_, ?_⟩
    · show (assign .var x use.term y).bind values = .var y
      rw [assign_of_ne elsewhere.1]
      exact unmoved y elsewhere.2
    · show ((assign .var x use.term y).bind values).depth ≤ k
      -- The variable that is replaced has the witness, and every other one has what later steps
      -- give it.
      by_cases same : y = x
      · rw [same, assign_same, whole]
        exact use.depth_term_le (room.imp_right fun first => applied.trans first.1)
      · rw [assign_of_ne same]
        exact shallow y
    · rw [later, atoms_substitute unbound, List.map_map]
      exact List.map_congr_left fun a _ => a.bind_bind _ values
  | @universal symbols final scope x f g rest ih =>
    obtain ⟨unbound, distinct⟩ := List.nodup_cons.mp (bound_quantified ▸ distinct)
    -- A scope with a variable in it may make the witnesses to come one deep.
    simp only [bound_quantified, List.mem_cons, not_or] at outside ⊢
    -- Once a universal quantifier is passed, no existential one may follow unless there is room.
    have below : 1 ≤ k ∨ f.isSkolemized = true := by
      rcases enough with positive | ⟨_, first⟩ | skolemized
      · exact Or.inl positive
      · exact Or.inr (isSkolemized_of_isExistentialsFirst first)
      · exact Or.inr skolemized
    have apart : ∀ y ∈ extendScope scope x, y ∉ f.boundVariables := by
      intro y inside
      rcases mem_extendScope.mp inside with inside | rfl
      · exact (outside y inside).2
      · exact unbound
    obtain ⟨values, unmoved, shallow, later⟩ := ih distinct apart (below.imp_right Or.inr)
    exact ⟨values, fun y elsewhere => unmoved y elsewhere.2, shallow, later⟩
  | @done symbols scope f plain =>
    -- No variable is replaced.
    refine ⟨.var, fun _ _ => rfl, fun _ => Nat.zero_le k, ?_⟩
    exact ((List.map_congr_left fun a _ => a.bind_var_self).trans (List.map_id _)).symm

/-- Standardizing formulas renames the variables of their atoms. -/
theorem instances_standardizeAll (fs : List Formula) (symbols : SymbolTable) :
    List.Forall₂ (fun f g => Instances 0 f.atoms g.atoms) fs (standardizeAll fs symbols).1 := by
  -- The naming starts anew for each formula, with the variables that are free in it.
  induction fs generalizing symbols with
  | nil => exact .nil
  | cons f fs ih =>
    exact .cons (f.instances_claimBinders _ id { taken := f.freeVariables, symbols }) (ih _)

/-- Renaming across formulas renames the variables of their atoms. -/
theorem instances_claimUniversals (fs : List Formula) (naming : Naming) :
    List.Forall₂ (fun f g => Instances 0 f.atoms g.atoms) fs (claimUniversals fs naming).1 := by
  -- The naming goes through the list, and each formula is renamed by it.
  induction fs generalizing naming with
  | nil => exact .nil
  | cons f fs ih => exact .cons (f.instances_claimBinders _ id naming) (ih _)

end Formula

/-- How deep witnesses are: they are constants where existential quantifiers come first. -/
def PrenexOrder.witnessDepth : PrenexOrder → Nat
  | .existentialsFirst => 0
  | .preserve => 1

namespace Draft

variable {order : PrenexOrder} {d : Draft} {stage : Stage} {k : Nat}

/-- A function that treats each formula by itself treats all of their atoms. -/
theorem instances_map {rewrite : Formula → Formula} {fs : List Formula}
    (each : ∀ f ∈ fs, Instances k f.atoms (rewrite f).atoms) :
    Instances k (fs.flatMap Formula.atoms) ((fs.map rewrite).flatMap Formula.atoms) :=
  .flatMap (List.forall₂_map_right_iff.mpr (List.forall₂_same.mpr each))

/-- A stage makes instances of all atoms, and puts in terms with depth only if it is the fifth. -/
theorem instances_after (prepared : d.Prepared order stage.number) :
    Instances (if stage = .skolemization then order.witnessDepth else 0)
      (d.formulas.flatMap Formula.atoms)
      ((d.after order stage).formulas.flatMap Formula.atoms) := by
  -- All stages but the fifth keep the atoms or rename variables in them.
  match stage, prepared with
  | .implicationElimination, _ =>
    exact instances_map fun f _ => .of_mem_iff fun a => Formula.mem_atoms_eliminateImplications
  | .negationNormalForm, _ =>
    exact instances_map fun f _ => .of_mem_iff fun a => Formula.mem_atoms_signed
  | .standardization, _ => exact .flatMap (Formula.instances_standardizeAll _ _)
  | .prenex, _ =>
    refine instances_map fun f _ => .of_mem_iff fun a => ?_
    rw [Formula.toPrenex, Formula.atoms_quantify, Formula.atoms_dropBinders]
  | .skolemization, ⟨_, forms⟩ =>
    have enough : ∀ f ∈ d.formulas, 1 ≤ order.witnessDepth ∨
        ([] : List Variable) = [] ∧ f.isExistentialsFirst = true ∨ f.isSkolemized = true := by
      have ordered := forms .prenex (by decide)
      -- Witnesses are constants if no universal quantifier comes before an existential one.
      intro f listed
      cases order with
      | preserve => exact Or.inl le_rfl
      | existentialsFirst => exact Or.inr (Or.inl ⟨rfl, List.all_eq_true.mp ordered f listed⟩)
    have both : ∀ f ∈ d.formulas, f.Apart ∧ _ := fun f listed =>
      ⟨forms.apart (by decide) f listed, enough f listed⟩
    have pairs := (List.forall₂_and_left _ _).mpr
      ⟨both, Formula.skolemizeAll_spec d.formulas d.symbols⟩
    refine .flatMap (List.forall₂_map_right_iff.mpr (pairs.imp ?_))
    rintro f done ⟨⟨apart, enough⟩, before, past, steps, future⟩
    -- For a formula that is prepared, the witnesses take the place of variables in all of its
    -- atoms.
    obtain ⟨values, _, shallow, made⟩ := steps.exists_values apart.distinct (by simp) enough
    rw [made]
    exact .of_map shallow f.atoms
  | .renaming, _ => exact .flatMap (Formula.instances_claimUniversals _ _)
  | .universalStripping, _ =>
    refine instances_map fun f _ => .of_mem_iff fun a => ?_
    rw [Formula.stripUniversals, Formula.atoms_dropBinders]
  | .distribution, _ =>
    exact instances_map fun f _ => .of_mem_iff fun a => Formula.mem_atoms_toConjunctive
  | .clauseExtraction, _ => exact .of_mem_iff fun a => Iff.rfl

/-- The stages turn the atoms of formulas into instances that have witnesses for variables. -/
theorem instances_afterFirst (known : ∀ f ∈ d.formulas, f.Known d.symbols) :
    Instances order.witnessDepth (d.formulas.flatMap Formula.atoms)
      ((d.afterFirst order 8).formulas.flatMap Formula.atoms) := by
  have within : 8 ≤ Stage.formulaStages.length := by decide
  -- Depth is added once, by the fifth stage.
  refine prepared_induct known within
    (motive := fun n e => Instances (if 5 < n then order.witnessDepth else 0)
      (d.formulas.flatMap Formula.atoms) (e.formulas.flatMap Formula.atoms))
    (.of_mem_iff fun a => Iff.rfl) fun stage e prepared before => ?_
  have together := before.trans (instances_after prepared)
  cases stage <;> simpa [Stage.number] using together

end Draft

section Clauses

variable {a : Atom} {fs : List Formula} {cs : List Clause}

/-- The atoms of a clause from left to right, repeats kept. -/
def Clause.atoms (c : Clause) : List Atom := c.literals.map Literal.atom

/-- Clauses have the atoms of the formulas that they come from. -/
theorem mem_atoms_extractClauses (done : Formula.extractClauses fs = .ok cs) :
    a ∈ cs.flatMap Clause.atoms ↔ a ∈ fs.flatMap Formula.atoms := by
  have pairs := Formula.forall₂_extractClauses done
  -- Extraction joins the literals of each conjunct in a clause.
  simp only [List.mem_flatMap]
  constructor
  · rintro ⟨c, listed, inside⟩
    obtain ⟨l, part, rfl⟩ := List.mem_map.mp inside
    exact Formula.exists_atoms_of_extractClauses done listed part
  · rintro ⟨f, listed, inside⟩
    obtain ⟨d, conjunct, part⟩ := Formula.mem_atoms_iff_conjuncts.mp inside
    -- The clause of that conjunct has the atoms that are joined in it.
    obtain ⟨c, made, joined⟩ :=
      exists_of_forall₂_right pairs.flip (List.mem_flatMap.mpr ⟨f, listed, conjunct⟩)
    have same : c.atoms = d.atoms := joined.atoms
    exact ⟨c, made, same ▸ part⟩

/-- The clauses of a run have instances of the atoms of its formulas, and of all of them. -/
theorem instances_clauses {config : Config} {clock : Clock} {formulas : List Formula}
    {symbols : SymbolTable} {sink : Sink} {result : Normalized}
    (known : ∀ f ∈ formulas, f.Known symbols)
    (succeeded : (normalize config clock formulas symbols sink).result = .ok result) :
    Instances config.prenexOrder.witnessDepth (formulas.flatMap Formula.atoms)
      (result.clauses.flatMap Clause.atoms) := by
  -- The stages make the instances, and extraction keeps their atoms.
  have extracted := (normalize_ok succeeded).1
  have staged : Instances config.prenexOrder.witnessDepth (formulas.flatMap Formula.atoms)
      (result.formulas.flatMap Formula.atoms) := by
    rw [formulas_normalize succeeded]
    exact Draft.instances_afterFirst (d := { formulas, symbols }) known
  exact staged.trans (.of_mem_iff fun a => mem_atoms_extractClauses extracted)

end Clauses

end ClauseForm
