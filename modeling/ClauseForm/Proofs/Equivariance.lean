import ClauseForm.Proofs.Run
import ClauseForm.Proofs.Supply
import ClauseForm.Proofs.SymbolMaps
import ClauseForm.Proofs.Threads

/-! Runs over symbols with other numbers do the same work on them. -/

namespace ClauseForm

namespace SymbolMap

/--
The symbols that one table gives out next belong to a range, and those of some kinds are replaced by
what another table gives out next.
-/
structure Follows (image : SymbolMap) (kinds : Set Kind) (range : SymbolSet)
    (first second : SymbolTable) : Prop where
  next : ∀ kind ∈ kinds, ∀ n, image kind ⟨first.count kind + n⟩ = ⟨second.count kind + n⟩
  supplied : ∀ (kind : Kind) (s : Symbol kind), ¬ first.Knows s → s ∈ range kind

namespace Follows

variable {image : SymbolMap} {kinds : Set Kind} {range : SymbolSet} {first second : SymbolTable}
  (follows : image.Follows kinds range first second)

include follows

/-- Tables that give out equally many symbols still correspond afterwards. -/
theorem advance {first' second' : SymbolTable} {made : Kind → Nat} (grows : first.Grows first')
    (one : ∀ kind, first'.count kind = first.count kind + made kind)
    (two : ∀ kind, second'.count kind = second.count kind + made kind) :
    image.Follows kinds range first' second' where
  next kind chosen n := by
    rw [one, two, Nat.add_assoc, Nat.add_assoc]
    exact follows.next kind chosen _
  supplied kind s unknown := follows.supplied kind s fun known => unknown (grows.knows known)

/-- Corresponding tables supply corresponding variables. -/
theorem freshVariable (named : .var ∈ kinds) :
    image .var first.freshVariable.1 = second.freshVariable.1 ∧
      first.freshVariable.1 ∈ range .var ∧
      image.Follows kinds range first.freshVariable.2 second.freshVariable.2 := by
  -- Both supplies give out the variable with the next number.
  obtain ⟨here, one⟩ := first.freshVariable_next
  obtain ⟨there, two⟩ := second.freshVariable_next
  refine ⟨?_, follows.supplied .var _ first.freshVariable_new.1,
    follows.advance first.grows_freshVariable one two⟩
  rw [here, there]
  exact follows.next .var named 0

variable (constants : .const ∈ kinds) (functions : .func ∈ kinds)

include constants functions

/-- Corresponding tables supply corresponding Skolem symbols. -/
theorem freshSkolem :
    image .const first.freshSkolem.1.constant = second.freshSkolem.1.constant ∧
      image .func first.freshSkolem.1.function = second.freshSkolem.1.function ∧
      image.Follows kinds range first.freshSkolem.2 second.freshSkolem.2 := by
  -- One number on either side is the next one for constants as well as for functions.
  obtain ⟨here, one⟩ := first.freshSkolem_next
  obtain ⟨there, two⟩ := second.freshSkolem_next
  refine ⟨?_, ?_, follows.advance first.grows_freshSkolem one two⟩
  · -- The constants have the next number of their kind.
    rw [here, there]
    exact follows.next .const constants 0
  · -- So have the functions, whose numbers need not be those of the constants.
    rw [here, there]
    exact follows.next .func functions 0

/-- Corresponding tables make corresponding witnesses. -/
theorem freshWitness {scope : List Variable} (inScope : ∀ x ∈ scope, x ∈ range .var) :
    (first.freshWitness scope).1.mapSymbols image =
        (second.freshWitness (scope.map (image .var))).1 ∧
      (first.freshWitness scope).1.Over range ∧
      image.Follows kinds range (first.freshWitness scope).2
        (second.freshWitness (scope.map (image .var))).2 := by
  obtain ⟨constant, function, further⟩ := follows.freshSkolem constants functions
  obtain ⟨newConstant, newFunction⟩ := first.freshSkolem_new
  -- A witness is a constant just where nothing is in scope, on either side.
  cases scope with
  -- Without a scope the witness is the constant.
  | nil => exact ⟨congrArg Term.const constant, follows.supplied .const _ newConstant.1, further⟩
  | cons x xs =>
    refine ⟨?_, ?_, further⟩
    · -- The arguments are the variables in scope, and there are as many of them on either side.
      simp only [SymbolTable.freshWitness, List.isEmpty_cons, List.map_cons, Bool.false_eq_true,
        if_false, Term.mapSymbols_app, function, List.length_cons, List.length_map, List.map_map,
        Term.mapSymbols_var]
      rfl
    · refine Term.over_app.mpr ⟨follows.supplied .func _ newFunction.1, ?_⟩
      exact List.forall_mem_map.mpr inScope

end Follows

end SymbolMap

section Walk

variable {image : SymbolMap} {kinds : Set Kind} {range : SymbolSet}

/-- Namings in which corresponding variables are taken, and whose tables correspond. -/
structure Naming.Mirrors (image : SymbolMap) (kinds : Set Kind) (range : SymbolSet)
    (first second : Naming) : Prop where
  follows : image.Follows kinds range first.symbols second.symbols
  taken : ∀ x ∈ range .var, x ∈ first.taken ↔ image .var x ∈ second.taken

variable (named : .var ∈ kinds) (injective : Set.InjOn (image .var) (range .var))

include named injective

/-- Corresponding quantifiers are settled to corresponding variables. -/
theorem Naming.Mirrors.settle {first second : Naming}
    (mirrors : first.Mirrors image kinds range second) (claims : Quantifier → Bool)
    (q : Quantifier) {x : Variable} (inside : x ∈ range .var) :
    image .var (first.settle claims q x).1 = (second.settle claims q (image .var x)).1 ∧
      (first.settle claims q x).1 ∈ range .var ∧
      (first.settle claims q x).2.Mirrors image kinds range
        (second.settle claims q (image .var x)).2 := by
  obtain ⟨follows, taken⟩ := mirrors
  -- One more variable is taken on either side, and these two correspond.
  have more {y : Variable} (member : y ∈ range .var) : ∀ z ∈ range .var,
      z ∈ y :: first.taken ↔ image .var z ∈ image .var y :: second.taken := fun z other => by
    rw [List.mem_cons, List.mem_cons, taken z other, injective.eq_iff other member]
  -- Whether a new variable is needed is decided alike.
  simp only [Naming.settle, claim, ← taken x inside]
  split
  · split
    · obtain ⟨fresh, member, further⟩ := follows.freshVariable named
      refine ⟨fresh, member, further, ?_⟩
      rw [← fresh]
      exact more member
    · exact ⟨rfl, inside, follows, more inside⟩
  · exact ⟨rfl, inside, follows, taken⟩

namespace Formula

/-- Walks over corresponding formulas rename corresponding variables alike. -/
theorem claimBinders_mapSymbols (claims : Quantifier → Bool) {f : Formula} (belongs : f.Over range)
    {names others : Variable → Variable} (inRange : ∀ z ∈ range .var, names z ∈ range .var)
    (agree : ∀ z ∈ range .var, image .var (names z) = others (image .var z))
    {first second : Naming} (mirrors : first.Mirrors image kinds range second) :
    ((f.mapSymbols image).claimBinders claims others second).1 =
        (f.claimBinders claims names first).1.mapSymbols image ∧
      (f.claimBinders claims names first).1.Over range ∧
      (f.claimBinders claims names first).2.Mirrors image kinds range
        ((f.mapSymbols image).claimBinders claims others second).2 := by
  -- The renamings in force and the namings are handed on along the walk.
  induction f generalizing names others first second with
  | atom a =>
    have member (x : Variable) (inside : x ∈ a.vars) : x ∈ range .var :=
      Atom.Over.vars belongs x inside
    refine ⟨congrArg atom ?_, ?_, mirrors⟩
    · exact (Atom.mapSymbols_rename fun x inside => agree x (member x inside)).symm
    · exact Atom.Over.bind belongs fun x inside => inRange x (member x inside)
  -- A negation is passed, and a connective hands on what its left side leaves.
  | not f ih =>
    obtain ⟨same, inside, after⟩ := ih belongs inRange agree mirrors
    exact ⟨congrArg not same, inside, after⟩
  | binary op l r left right =>
    obtain ⟨sameLeft, insideLeft, between⟩ := left belongs.1 inRange agree mirrors
    obtain ⟨sameRight, insideRight, after⟩ := right belongs.2 inRange agree between
    exact ⟨congrArg₂ (binary op) sameLeft sameRight, ⟨insideLeft, insideRight⟩, after⟩
  | quantified q x f ih =>
    obtain ⟨settled, member, between⟩ := mirrors.settle named injective claims q belongs.1
    rw [mapSymbols, claimBinders_quantified, claimBinders_quantified, ← settled]
    -- Below the quantifier its variable is renamed on either side, and all others as before.
    have below : ∀ z ∈ range .var, assign names x (first.settle claims q x).1 z ∈ range .var := by
      intro z other
      by_cases here : z = x
      · rw [here, assign_same]
        exact member
      · rw [assign_of_ne here]
        exact inRange z other
    have alike : ∀ z ∈ range .var, image .var (assign names x (first.settle claims q x).1 z) =
        assign others (image .var x) (image .var (first.settle claims q x).1) (image .var z) := by
      intro z other
      by_cases here : z = x
      · rw [here, assign_same, assign_same]
      · rw [assign_of_ne here, assign_of_ne fun same => here (injective other belongs.1 same)]
        exact agree z other
    obtain ⟨same, inside, after⟩ := ih belongs.2 below alike between
    exact ⟨congrArg (quantified q _) same, ⟨member, inside⟩, after⟩

/-- Walks that start without renamings rename corresponding variables alike. -/
theorem claimBinders_mapSymbols_id (claims : Quantifier → Bool) {f : Formula}
    (belongs : f.Over range) {first second : Naming}
    (mirrors : first.Mirrors image kinds range second) :
    ((f.mapSymbols image).claimBinders claims id second).1 =
        (f.claimBinders claims id first).1.mapSymbols image ∧
      (f.claimBinders claims id first).1.Over range ∧
      (f.claimBinders claims id first).2.Mirrors image kinds range
        ((f.mapSymbols image).claimBinders claims id second).2 := by
  -- Nothing is renamed at the outset, on neither side.
  have agree : ∀ z ∈ range .var, image .var (id z) = id (image .var z) := fun _ _ => rfl
  exact claimBinders_mapSymbols named injective claims belongs (fun _ member => member) agree
    mirrors

end Formula

end Walk

namespace Formula

section Witnesses

variable {image : SymbolMap} {kinds : Set Kind} {range : SymbolSet}

/-- A term over a set in place of a variable leaves a formula over that set. -/
theorem Over.substitute {x : Variable} {value : Term} {f : Formula} (belongs : f.Over range)
    (part : value.Over range) : (f.substitute x value).Over range := by
  -- Only what takes the place of the variable is new.
  induction f with
  | atom a =>
    -- Each variable of the atom stays or gives way to the term.
    refine Atom.Over.bind belongs fun y inside => ?_
    rw [assign]
    split
    · exact part
    · exact Atom.Over.vars belongs y inside
  | not f ih => exact ih belongs
  | binary op l r left right => exact ⟨left belongs.1, right belongs.2⟩
  | quantified q y f ih =>
    refine ⟨belongs.1, ?_⟩
    split
    · exact belongs.2
    · exact ih belongs.2

variable (injective : Set.InjOn (image .var) (range .var))

include injective

/-- Scopes that correspond are extended by variables that correspond. -/
theorem map_extendScope {scope : List Variable} (inScope : ∀ x ∈ scope, x ∈ range .var)
    {x : Variable} (inside : x ∈ range .var) :
    (extendScope scope x).map (image .var) =
      extendScope (scope.map (image .var)) (image .var x) := by
  -- A variable is in scope just if what it is replaced by is, because none other is replaced by
  -- that.
  have same : image .var x ∈ scope.map (image .var) ↔ x ∈ scope := by
    rw [List.mem_map]
    refine ⟨fun ⟨y, listed, equal⟩ => ?_, fun listed => ⟨x, listed, rfl⟩⟩
    exact injective (inScope y listed) inside equal ▸ listed
  simp only [extendScope, same]
  split
  · rfl
  · rw [List.map_append, List.map_singleton]

/-- A term takes the place of a variable as the terms and variables do that they are replaced by. -/
theorem mapSymbols_substitute {f : Formula} (belongs : f.Over range) {x : Variable}
    (inside : x ∈ range .var) (value : Term) :
    (f.substitute x value).mapSymbols image =
      (f.mapSymbols image).substitute (image .var x) (value.mapSymbols image) := by
  induction f with
  | atom a =>
    -- The variable that is replaced corresponds to no other variable of the atom.
    refine congrArg atom (Atom.mapSymbols_bind fun y occurs => ?_)
    by_cases same : y = x
    · rw [same, assign_same, assign_same]
    · have member : y ∈ range .var := Atom.Over.vars belongs y occurs
      rw [assign_of_ne same, assign_of_ne fun equal => same (injective member inside equal)]
      rfl
  | not f ih => exact congrArg not (ih belongs)
  | binary op l r left right => exact congrArg₂ (binary op) (left belongs.1) (right belongs.2)
  | quantified q y f ih =>
    simp only [substitute, mapSymbols, injective.eq_iff belongs.1 inside]
    -- The quantifier keeps the replacement out on either side or on neither.
    split
    · rfl
    · rw [ih belongs.2]

/-- Corresponding formulas get corresponding witnesses. -/
theorem skolemizeIn_mapSymbols (constants : .const ∈ kinds) (functions : .func ∈ kinds)
    {f : Formula} (belongs : f.Over range) {scope : List Variable}
    (inScope : ∀ x ∈ scope, x ∈ range .var) {first second : SymbolTable}
    (follows : image.Follows kinds range first second) :
    ((f.mapSymbols image).skolemizeIn (scope.map (image .var)) second).formula =
        (f.skolemizeIn scope first).formula.mapSymbols image ∧
      (f.skolemizeIn scope first).formula.Over range ∧
      image.Follows kinds range (f.skolemizeIn scope first).symbols
        ((f.mapSymbols image).skolemizeIn (scope.map (image .var)) second).symbols := by
  fun_induction skolemizeIn f scope first generalizing second with
  | case1 x f scope first term after made rest ih =>
    -- Corresponding witnesses take the places of corresponding variables.
    obtain ⟨witness, part, further⟩ := follows.freshWitness constants functions inScope
    rw [made] at witness part further
    rw [mapSymbols_substitute injective belongs.2 belongs.1, witness] at ih
    rw [mapSymbols, skolemizeIn]
    exact ih (belongs.2.substitute part) inScope further
  | case2 x f scope first rest ih =>
    -- The scopes stay corresponding, because different variables are replaced by different ones.
    have longer : ∀ y ∈ extendScope scope x, y ∈ range .var := fun y inside =>
      (mem_extendScope.mp inside).elim (inScope y) fun same => same ▸ belongs.1
    rw [map_extendScope injective inScope belongs.1] at ih
    obtain ⟨same, inside, further⟩ := ih belongs.2 longer follows
    rw [mapSymbols, skolemizeIn]
    exact ⟨congrArg (quantified .universal _) same, ⟨belongs.1, inside⟩, further⟩
  | case3 f scope first existential universal =>
    -- There is no quantifier in front on either side.
    cases f with
    | quantified q x f =>
      cases q with
      | existential => exact (existential x f rfl).elim
      | universal => exact (universal x f rfl).elim
    | _ =>
      simp only [mapSymbols, skolemizeIn]
      exact ⟨trivial, belongs, follows⟩

end Witnesses

end Formula

section Stages

variable {image : SymbolMap} {kinds : Set Kind} {range : SymbolSet}
  (injective : Set.InjOn (image .var) (range .var))

include injective

namespace Formula

/-- Variables are free just if what they are replaced by is. -/
theorem mem_free_mapSymbols {f : Formula} (belongs : f.Over range) {x : Variable}
    (inside : x ∈ range .var) :
    x ∈ f.freeVariables ↔ image .var x ∈ (f.mapSymbols image).freeVariables := by
  -- The question is passed on to the atoms, where the variables correspond one to one.
  induction f with
  | atom a =>
    rw [mapSymbols, mem_free_atom, mem_free_atom, Atom.vars_mapSymbols, List.mem_map]
    constructor
    · exact fun occurs => ⟨x, occurs, rfl⟩
    · rintro ⟨y, occurs, same⟩
      -- Only one variable of the range is replaced by that one.
      exact injective (Atom.Over.vars belongs y occurs) inside same ▸ occurs
  | not f ih => exact ih belongs
  | binary op l r left right =>
    rw [mapSymbols, mem_free_binary, mem_free_binary, left belongs.1, right belongs.2]
  | quantified q y f ih =>
    rw [mapSymbols, mem_free_quantified, mem_free_quantified, ih belongs.2, Ne, Ne,
      injective.eq_iff inside belongs.1]

end Formula

/--
Steps from corresponding states treat corresponding formulas alike, and lead to corresponding
states.
-/
def SymbolMap.Carries {State : Type} (image : SymbolMap) (range : SymbolSet)
    (corresponds : State → State → Prop) (step : Formula → State → Formula × State) : Prop :=
  ∀ (f : Formula) (s t : State), f.Over range → corresponds s t →
    (step (f.mapSymbols image) t).1 = (step f s).1.mapSymbols image ∧ (step f s).1.Over range ∧
      corresponds (step f s).2 (step (f.mapSymbols image) t).2

namespace SymbolMap

omit injective in
/-- What is carried through one step is carried through the formulas of a list. -/
theorem Carries.thread {State : Type} {corresponds : State → State → Prop}
    {step : Formula → State → Formula × State} (carries : image.Carries range corresponds step)
    {fs : List Formula} (belongs : ∀ f ∈ fs, f.Over range) {s t : State} (start : corresponds s t) :
    (ClauseForm.thread step (fs.map (Formula.mapSymbols image)) t).1 =
        (ClauseForm.thread step fs s).1.map (Formula.mapSymbols image) ∧
      (∀ g ∈ (ClauseForm.thread step fs s).1, g.Over range) ∧
      corresponds (ClauseForm.thread step fs s).2
        (ClauseForm.thread step (fs.map (Formula.mapSymbols image)) t).2 := by
  induction fs generalizing s t with
  | nil => exact ⟨rfl, by simp [ClauseForm.thread], start⟩
  | cons f fs ih =>
    -- The step for the first formula leads to corresponding states for the others.
    obtain ⟨here, later⟩ := List.forall_mem_cons.mp belongs
    obtain ⟨first, made, next⟩ := carries f s t here start
    obtain ⟨rest, others, final⟩ := ih later next
    exact ⟨congrArg₂ List.cons first rest, List.forall_mem_cons.mpr ⟨made, others⟩, final⟩

/--
Standardizing treats corresponding formulas alike, with variables given out in the same order.
-/
theorem carries_standardizing (named : .var ∈ kinds) :
    image.Carries range (image.Follows kinds range) Formula.standardizing := by
  intro f first second belongs follows
  -- At the outset corresponding variables are taken, which are the free ones.
  have mirrors : Naming.Mirrors image kinds range { taken := f.freeVariables, symbols := first }
      { taken := (f.mapSymbols image).freeVariables, symbols := second } :=
    ⟨follows, fun x inside => Formula.mem_free_mapSymbols injective belongs inside⟩
  obtain ⟨same, inside, after⟩ :=
    Formula.claimBinders_mapSymbols_id named injective (fun _ => true) belongs mirrors
  exact ⟨same, inside, after.follows⟩

/-- Making witnesses treats corresponding formulas alike. -/
theorem carries_skolemizing (constants : .const ∈ kinds) (functions : .func ∈ kinds) :
    image.Carries range (image.Follows kinds range) Formula.skolemizing := by
  intro f first second belongs follows
  -- Nothing is in scope at the outset.
  have inScope : ∀ x ∈ ([] : List Variable), x ∈ range .var := by simp
  exact Formula.skolemizeIn_mapSymbols injective constants functions belongs inScope follows

/-- Claiming variables across a list treats corresponding formulas alike. -/
theorem carries_claiming (named : .var ∈ kinds) :
    image.Carries range (Naming.Mirrors image kinds range) Formula.claiming :=
  fun _ _ _ belongs mirrors => Formula.claimBinders_mapSymbols_id named injective _ belongs mirrors

end SymbolMap

namespace Draft

/-- Drafts of which one has what the symbols of the other are replaced by. -/
structure Mirrors (image : SymbolMap) (range : SymbolSet) (first second : Draft) : Prop where
  formulas : second.formulas = first.formulas.map (Formula.mapSymbols image)
  belongs : ∀ f ∈ first.formulas, f.Over range
  follows : image.Follows Set.univ range first.symbols second.symbols

omit injective in
/-- A rewriting that takes no notice of symbols keeps drafts corresponding. -/
theorem Mirrors.map {first second : Draft} (mirrors : first.Mirrors image range second)
    {rewrite : Formula → Formula} (commutes : ∀ (image : SymbolMap) (f : Formula),
      (rewrite f).mapSymbols image = rewrite (f.mapSymbols image)) :
    Mirrors image range { first with formulas := first.formulas.map rewrite }
      { second with formulas := second.formulas.map rewrite } where
  formulas := by
    -- Replacing symbols and rewriting may be done in either order.
    simp only [mirrors.formulas, List.map_map]
    exact List.map_congr_left fun f _ => (commutes image f).symm
  belongs := List.forall_mem_map.mpr fun f listed => (mirrors.belongs f listed).of_commutes commutes
  follows := mirrors.follows

/-- A stage keeps drafts corresponding. -/
theorem Mirrors.after {order : PrenexOrder} {first second : Draft}
    (mirrors : first.Mirrors image range second) (stage : Stage) :
    (first.after order stage).Mirrors image range (second.after order stage) := by
  -- Three stages give out symbols, and the others take no notice of them.
  match stage with
  | .implicationElimination => exact Mirrors.map mirrors Formula.mapSymbols_eliminateImplications
  | .negationNormalForm => exact mirrors.map fun image f => f.mapSymbols_signed image true
  | .prenex => exact mirrors.map fun image => Formula.mapSymbols_toPrenex image order
  | .universalStripping => exact mirrors.map fun image => Formula.mapSymbols_dropBinders image _
  | .distribution => exact mirrors.map Formula.mapSymbols_toConjunctive
  | .clauseExtraction => exact mirrors
  | .standardization =>
    -- The free variables of each formula are taken before it is standardized.
    obtain ⟨formulas, belongs, follows⟩ := (SymbolMap.carries_standardizing injective
      (Set.mem_univ _)).thread mirrors.belongs mirrors.follows
    rw [after_standardization, after_standardization, mirrors.formulas]
    exact ⟨formulas, belongs, follows⟩
  | .skolemization =>
    -- Every formula gets its witnesses from the table that the one before it has left.
    obtain ⟨formulas, belongs, follows⟩ := (SymbolMap.carries_skolemizing injective
      (Set.mem_univ _) (Set.mem_univ _)).thread mirrors.belongs mirrors.follows
    rw [after_skolemization, after_skolemization, mirrors.formulas]
    exact ⟨formulas, belongs, follows⟩
  | .renaming =>
    -- No variable is taken at the outset.
    have start : Naming.Mirrors image Set.univ range { taken := [], symbols := first.symbols }
        { taken := [], symbols := second.symbols } := ⟨mirrors.follows, by simp⟩
    obtain ⟨formulas, belongs, after⟩ := (SymbolMap.carries_claiming injective
      (Set.mem_univ _)).thread mirrors.belongs start
    rw [after_renaming, after_renaming, mirrors.formulas]
    exact ⟨formulas, belongs, after.follows⟩

/-- Any number of stages keeps drafts corresponding. -/
theorem Mirrors.afterFirst {order : PrenexOrder} {first second : Draft}
    (mirrors : first.Mirrors image range second) {count : Nat}
    (within : count ≤ Stage.formulaStages.length) :
    (first.afterFirst order count).Mirrors image range (second.afterFirst order count) := by
  -- One stage after the other keeps them corresponding.
  induction count with
  | zero => exact mirrors
  | succ count ih =>
    rw [afterFirst_succ within, afterFirst_succ within]
    exact (ih (by omega)).after injective _

end Draft

end Stages

end ClauseForm
