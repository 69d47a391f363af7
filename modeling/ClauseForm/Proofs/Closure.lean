import ClauseForm.Proofs.Negation
import ClauseForm.Proofs.Prenex
import ClauseForm.Proofs.Skolemized
import ClauseForm.Proofs.Standardized

/-! Universal quantifiers over free variables, in front of a formula and below its quantifiers. -/

namespace ClauseForm

namespace Naming

/-- Namings over the same symbols in which the same variables are taken, in whatever order. -/
structure Alike (first second : Naming) : Prop where
  symbols : first.symbols = second.symbols
  taken : ∀ x, x ∈ first.taken ↔ x ∈ second.taken

/-- Alike namings give a quantifier the same variable, and stay alike. -/
theorem Alike.settle {first second : Naming} (alike : first.Alike second)
    (claims : Quantifier → Bool) (q : Quantifier) (x : Variable) :
    (first.settle claims q x).1 = (second.settle claims q x).1 ∧
      (first.settle claims q x).2.Alike (second.settle claims q x).2 := by
  -- A claim only asks whether a variable is taken, and a new one comes from the symbols alone.
  obtain ⟨symbols, taken⟩ := alike
  simp only [Naming.settle, claim, taken x, symbols]
  split
  · split
    · exact ⟨rfl, rfl, fun z => by simp only [List.mem_cons, taken z]⟩
    · exact ⟨rfl, rfl, fun z => by simp only [List.mem_cons, taken z]⟩
  · exact ⟨rfl, symbols, taken⟩

end Naming

namespace Formula

/-- Walks with alike namings make the same formula. -/
theorem claimBinders_alike (claims : Quantifier → Bool) (f : Formula)
    (names : Variable → Variable) {first second : Naming} (alike : first.Alike second) :
    (f.claimBinders claims names first).1 = (f.claimBinders claims names second).1 ∧
      (f.claimBinders claims names first).2.Alike (f.claimBinders claims names second).2 := by
  -- The namings are still alike where the walk goes on.
  induction f generalizing names first second with
  | atom a => exact ⟨rfl, alike⟩
  | not f ih =>
    obtain ⟨same, after⟩ := ih names alike
    exact ⟨congrArg not same, after⟩
  | binary op l r left right =>
    obtain ⟨sameLeft, between⟩ := left names alike
    obtain ⟨sameRight, after⟩ := right names between
    exact ⟨congrArg₂ (binary op) sameLeft sameRight, after⟩
  | quantified q x f ih =>
    obtain ⟨given, settled⟩ := alike.settle claims q x
    rw [claimBinders_quantified, claimBinders_quantified, given]
    obtain ⟨same, after⟩ := ih (assign names x (second.settle claims q x).1) settled
    exact ⟨congrArg (quantified q _) same, after⟩

/-- Universal quantifiers over several variables in front of a formula, the first one outermost. -/
def forAll (ys : List Variable) (f : Formula) : Formula :=
  quantify (ys.map fun y => (.universal, y)) f

section Laws

variable {m : Structure} {values : Variable → m.Domain} {ys zs : List Variable} {f : Formula}
  {y z : Variable}

/-- No variables make no quantifiers. -/
@[simp] theorem forAll_nil : forAll [] f = f := rfl

/-- The first variable of the list is bound by the outermost quantifier. -/
@[simp] theorem forAll_cons : forAll (y :: ys) f = .quantified .universal y (forAll ys f) := rfl

/--
Universal quantifiers over two lists are those over the first in front of those over the second.
-/
theorem forAll_append : forAll (ys ++ zs) f = forAll ys (forAll zs f) := by
  -- Both sides put the variables of the first list outside of those of the second one.
  rw [forAll, List.map_append, quantify_append, ← forAll, ← forAll]

/-- Free below universal quantifiers is what is free in the formula and not in the list. -/
theorem mem_free_forAll : z ∈ (forAll ys f).freeVariables ↔ z ∈ f.freeVariables ∧ z ∉ ys := by
  simp [forAll, mem_free_quantify]

/-- Universal quantifiers over all free variables close a formula. -/
theorem closed_forAll (covers : ∀ z ∈ f.freeVariables, z ∈ ys) :
    (forAll ys f).freeVariables = [] := by
  -- A variable that is still free would have to be outside of the list that has all of them.
  refine List.eq_nil_iff_forall_not_mem.mpr fun z free => ?_
  obtain ⟨inside, unlisted⟩ := mem_free_forAll.mp free
  exact unlisted (covers z inside)

/-- Universal quantifiers in front come before the quantifiers of the formula. -/
theorem binders_forAll :
    (forAll ys f).binders = (ys.map fun y => (.universal, y)) ++ f.binders :=
  binders_quantify

/-- A formula stays known below universal quantifiers over known variables. -/
theorem Known.forAll {symbols : SymbolTable} (known : f.Known symbols)
    (listed : ∀ y ∈ ys, symbols.Knows y) : (forAll ys f).Known symbols :=
  known.quantify (List.forall_mem_map.mpr listed)

/-- Universal quantifiers in front are left out with all others. -/
theorem dropBinders_forAll :
    (forAll ys f).dropBinders (fun _ => true) = f.dropBinders fun _ => true := by
  -- One quantifier after the other is left out.
  induction ys with
  | nil => rfl
  | cons y ys ih => exact ih

/-- Moving negations inwards leaves universal quantifiers in front where they are. -/
theorem pushNegation_forAll : (forAll ys f).pushNegation = forAll ys f.pushNegation := by
  -- A universal quantifier stays one where nothing is denied.
  induction ys with
  | nil => rfl
  | cons y ys ih => exact congrArg (quantified .universal y) ih

/-- Quantifiers that are all universal speak about all values of their variables. -/
theorem quantify_eq_forAll {bs : List (Quantifier × Variable)}
    (universal : ∀ b ∈ bs, b.1 = .universal) : quantify bs f = forAll (bs.map (·.2)) f := by
  -- The quantifiers are taken one by one from the outside.
  induction bs with
  | nil => rfl
  | cons b bs ih =>
    obtain ⟨q, x⟩ := b
    obtain ⟨rfl, later⟩ := List.forall_mem_cons.mp universal
    exact congrArg (quantified .universal x) (ih later)

/-- Universal quantifiers in front ask for truth under all values of their variables. -/
theorem holds_forAll : (forAll ys f).Holds m values ↔
    ∀ others : Variable → m.Domain, (∀ z, z ∉ ys → others z = values z) → f.Holds m others := by
  -- The assignments may differ in one variable more with each quantifier.
  induction ys generalizing values with
  | nil =>
    refine ⟨fun holds others same => ?_, fun all => all values fun _ _ => rfl⟩
    obtain rfl : others = values := funext fun z => same z List.not_mem_nil
    exact holds
  | cons y ys ih =>
    constructor
    · intro holds others same
      -- The outermost quantifier takes the value that its variable is to have.
      refine ih.mp (holds (others y)) others fun z unlisted => ?_
      by_cases here : z = y
      · rw [here, assign_same]
      · rw [assign_of_ne here]
        exact same z (by simp [here, unlisted])
    · intro all d
      refine ih.mpr fun others same => all others fun z unlisted => ?_
      rw [List.mem_cons, not_or] at unlisted
      rw [same z unlisted.2, assign_of_ne unlisted.1]

/-- Universal quantifiers in front do not matter for truth under all assignments. -/
theorem trueIn_forAll : (forAll ys f).TrueIn m ↔ f.TrueIn m := by
  -- A quantifier in front does not change truth under all assignments.
  induction ys with
  | nil => exact Iff.rfl
  | cons y ys ih => exact trueIn_universal.trans ih

/-- Universal quantifiers say nothing about a formula in which their variables are not free. -/
theorem holds_forAll_of_unfree (unfree : ∀ y ∈ ys, y ∉ f.freeVariables) :
    (forAll ys f).Holds m values ↔ f.Holds m values := by
  -- The values of variables that are not free do not matter.
  rw [holds_forAll]
  refine ⟨fun all => all values fun _ _ => rfl, fun holds others same => ?_⟩
  refine (holds_congr fun z free => ?_).mp holds
  exact (same z fun listed => unfree z listed free).symm

/-- Groups of universal quantifiers may change places. -/
theorem holds_forAll_comm :
    (forAll ys (forAll zs f)).Holds m values ↔ (forAll zs (forAll ys f)).Holds m values := by
  -- The values that both groups allow are those of the variables in either list.
  rw [← forAll_append, ← forAll_append, holds_forAll, holds_forAll]
  simp only [List.mem_append, or_comm]

end Laws

section Standardizing

variable {ys : List Variable} {f : Formula}

/-- Quantifiers in front keep their variables if these are different and not taken. -/
theorem claimBinders_forAll {naming : Naming} (distinct : ys.Nodup)
    (untaken : ∀ y ∈ ys, y ∉ naming.taken) :
    (forAll ys f).claimBinders (fun _ => true) id naming =
      (forAll ys (f.claimBinders (fun _ => true) id
          { naming with taken := ys.reverse ++ naming.taken }).1,
        (f.claimBinders (fun _ => true) id
          { naming with taken := ys.reverse ++ naming.taken }).2) := by
  -- Each variable is taken once its quantifier has been passed, and all names stay as they are.
  induction ys generalizing naming with
  | nil => rfl
  | cons y ys ih =>
    obtain ⟨fresh, distinct⟩ := List.nodup_cons.mp distinct
    obtain ⟨here, later⟩ := List.forall_mem_cons.mp untaken
    have kept : naming.settle (fun _ => true) .universal y =
        (y, { naming with taken := y :: naming.taken }) := if_neg here
    have unchanged : assign id y y = id := assign_self
    have apart : ∀ z ∈ ys, z ∉ ({ naming with taken := y :: naming.taken } : Naming).taken := by
      intro z inside
      rw [List.mem_cons, not_or]
      exact ⟨fun same => fresh (same ▸ inside), later z inside⟩
    rw [forAll_cons, claimBinders_quantified, kept, unchanged, ih distinct apart]
    simp only [forAll_cons, List.reverse_cons, List.append_assoc, List.singleton_append]

/-- Standardizing passes universal quantifiers over the free variables, which are taken anyway. -/
theorem standardize_forAll (distinct : ys.Nodup) (free : ∀ y, y ∈ ys ↔ y ∈ f.freeVariables)
    (symbols : SymbolTable) :
    ((forAll ys f).standardize symbols).1 = forAll ys (f.standardize symbols).1 := by
  have closed : (forAll ys f).freeVariables = [] := closed_forAll fun z => (free z).mpr
  -- Below the quantifiers the same variables are taken as at the outset of the open formula.
  have alike : Naming.Alike { taken := ys.reverse ++ [], symbols }
      { taken := f.freeVariables, symbols } :=
    ⟨rfl, fun z => by simp [free]⟩
  rw [standardize, standardizeVariables, closed, claimBinders_forAll distinct (by simp)]
  exact congrArg (forAll ys) (f.claimBinders_alike _ id alike).1

end Standardizing

section Witnesses

variable {x : Variable} {f : Formula} {scope ys : List Variable} {symbols : SymbolTable}
  {bs : List (Quantifier × Variable)}

/-- A witness takes the place of the variable before the rest of the prefix is looked at. -/
theorem skolemizeIn_existential :
    ((quantified .existential x f).skolemizeIn scope symbols).formula =
      ((f.substitute x (symbols.freshWitness scope).1).skolemizeIn scope
        (symbols.freshWitness scope).2).formula := by
  rw [skolemizeIn]

/-- A universal quantifier stays, and its variable is in scope from there on. -/
theorem skolemizeIn_universal :
    ((quantified .universal x f).skolemizeIn scope symbols).formula =
      .quantified .universal x (f.skolemizeIn (extendScope scope x) symbols).formula := by
  rw [skolemizeIn]

/-- Where only universal quantifiers stand in front, there is nothing to be replaced. -/
theorem skolemizeIn_forAll (free : f.isQuantifierFree = true) :
    ((forAll ys f).skolemizeIn scope symbols).formula = forAll ys f := by
  -- Each quantifier is passed, and the formula behind them has none to be replaced.
  induction ys generalizing scope with
  | nil =>
    cases f with
    | quantified q x f => cases free
    | _ => simp [skolemizeIn]
  | cons y ys ih => rw [forAll_cons, skolemizeIn_universal, ih]

/-- Replacement passes quantifiers over other variables. -/
theorem substitute_quantify {value : Term} (apart : x ∉ bs.map (·.2)) :
    (quantify bs f).substitute x value = quantify bs (f.substitute x value) := by
  -- None of the quantifiers in front binds the variable.
  induction bs with
  | nil => rfl
  | cons b bs ih =>
    rw [List.map_cons, List.mem_cons, not_or] at apart
    exact congrArg (quantified b.1 b.2) ((if_neg (Ne.symm apart.1)).trans (ih apart.2))

/-- Replacement passes universal quantifiers over other variables. -/
theorem substitute_forAll {value : Term} (apart : x ∉ ys) :
    (forAll ys f).substitute x value = forAll ys (f.substitute x value) :=
  substitute_quantify (by simpa using apart)

/--
Universal quantifiers below all others give witnesses nothing to depend on, so that they do not
matter for truth under all assignments.
-/
theorem trueIn_skolemizeIn_forAll {m : Structure} (distinct : (bs.map (·.2)).Nodup)
    (apart : ∀ b ∈ bs, b.2 ∉ ys) (free : f.isQuantifierFree = true) :
    ((quantify bs (forAll ys f)).skolemizeIn scope symbols).formula.TrueIn m ↔
      ((quantify bs f).skolemizeIn scope symbols).formula.TrueIn m := by
  -- Both prefixes are passed in the same way, and the matrix gets the same witnesses.
  induction bs generalizing f scope symbols with
  | nil =>
    have plain : ((forAll [] f).skolemizeIn scope symbols).formula = forAll [] f :=
      skolemizeIn_forAll free
    rw [forAll_nil] at plain
    rw [quantify_nil, quantify_nil, skolemizeIn_forAll free, plain]
    exact trueIn_forAll
  | cons b bs ih =>
    obtain ⟨q, x⟩ := b
    obtain ⟨fresh, rest⟩ := List.nodup_cons.mp distinct
    obtain ⟨here, later⟩ := List.forall_mem_cons.mp apart
    cases q with
    | universal =>
      -- A universal quantifier says nothing more under all assignments, whether before or after.
      rw [quantify_cons, quantify_cons, skolemizeIn_universal, skolemizeIn_universal]
      exact trueIn_universal.trans ((ih rest later free).trans trueIn_universal.symm)
    | existential =>
      rw [quantify_cons, quantify_cons, skolemizeIn_existential, skolemizeIn_existential,
        substitute_quantify fresh, substitute_quantify fresh, substitute_forAll here]
      have still : (f.substitute x (symbols.freshWitness scope).1).isQuantifierFree = true := by
        rw [isQuantifierFree, ← (sameShape_substitute x _ f).hasQuantifier]
        exact free
      exact ih rest later still

end Witnesses

/-- No variable of a list is free in an existentially quantified part of the formula. -/
def existentialsAvoid (ys : List Variable) : Formula → Bool
  | .atom _ => true
  | .not f => f.existentialsAvoid ys
  | .binary _ l r => l.existentialsAvoid ys && r.existentialsAvoid ys
  -- Below a quantifier over it, a variable is no longer the one listed.
  | .quantified .universal x f => f.existentialsAvoid (ys.filter (· ≠ x))
  | .quantified .existential x f =>
    ys.all (· ∉ (quantified .existential x f).freeVariables)

section Avoidance

variable {f : Formula} {ys : List Variable}

/-- Renaming bound variables brings no variable into an existentially quantified part. -/
theorem existentialsAvoid_claimBinders (claims : Quantifier → Bool) {base : SymbolTable}
    (known : f.Known base) {names : Variable → Variable} {naming : Naming}
    (past : base.Grows naming.symbols) (renames : RenamesSince base naming.symbols names)
    {zs : List Variable} (sources : ∀ z ∈ f.freeVariables, names z ∈ zs → z ∈ ys)
    (avoid : f.existentialsAvoid ys = true) :
    (f.claimBinders claims names naming).1.existentialsAvoid zs = true := by
  -- The variables listed afterwards stem from those listed before, below every quantifier passed.
  induction f generalizing names naming ys zs with
  | atom a => rfl
  | not f ih => exact ih known past renames sources avoid
  | binary op l r left right =>
    obtain ⟨avoidLeft, avoidRight⟩ := (Bool.and_eq_true _ _).mp avoid
    have grows := l.claimBinders_grows claims names naming
    refine (Bool.and_eq_true _ _).mpr ⟨?_, ?_⟩
    · exact left known.1 past renames (fun z inside => sources z (by simp [inside])) avoidLeft
    · exact right known.2 (past.trans grows) (renames.grows grows)
        (fun z inside => sources z (by simp [inside])) avoidRight
  | quantified q x f ih =>
    cases q with
    | existential =>
      -- A variable from the list may not be free in the part that an existential quantifier opens.
      refine List.all_eq_true.mpr fun y listed => decide_eq_true fun free => ?_
      -- A variable that is free in this part has its name from one that was free there.
      obtain ⟨z, inside, rfl⟩ := (mem_free_claimBinders claims known past renames).mp free
      exact of_decide_eq_true (List.all_eq_true.mp avoid z (sources z inside listed)) inside
    | universal =>
      rw [claimBinders_quantified]
      have grows := naming.settle_grows claims .universal x
      refine ih known.2 (past.trans grows) (renames.settle past claims .universal x) ?_ avoid
      intro z inside listed
      obtain ⟨listed, other⟩ := List.mem_filter.mp listed
      by_cases same : z = x
      · -- The variable of the quantifier itself is left out of the list.
        rw [same, assign_same] at other
        exact absurd rfl (of_decide_eq_true other)
      · rw [assign_of_ne same] at listed
        exact List.mem_filter.mpr
          ⟨sources z (mem_free_quantified.mpr ⟨inside, same⟩) listed, decide_eq_true same⟩

/--
Where existential quantifiers avoid variables, elements can be found for them without regard to
these variables, such that the rest of the formula holds wherever the formula does.
-/
theorem holds_quantify_forAll_or (normal : f.isNegationNormal = true) (apart : f.Apart)
    (unbound : ∀ y ∈ ys, y ∉ f.boundVariables) (avoid : f.existentialsAvoid ys = true)
    {m : Structure} (values : Variable → m.Domain) :
    (quantify f.binders (forAll ys (.or (f.dropBinders fun _ => true) (.not f)))).Holds m
      values := by
  induction f generalizing values with
  | atom a => exact holds_forAll.mpr fun others _ => em _
  -- Only atoms are negated, and they have no quantifier.
  | not f _ =>
    cases f with
    | atom a => exact holds_forAll.mpr fun others _ => em _
    | _ => cases normal
  | binary op l r left right =>
    obtain ⟨junction, normalLeft, normalRight⟩ := junction_of_isNegationNormal normal
    obtain ⟨avoidLeft, avoidRight⟩ := (Bool.and_eq_true _ _).mp avoid
    simp only [bound_binary, List.mem_append, not_or] at unbound
    -- The elements found for either side serve for both sides at once.
    have both : (quantify (l.binders ++ r.binders)
        (.and (forAll ys (.or (l.dropBinders fun _ => true) (.not l)))
          (forAll ys (.or (r.dropBinders fun _ => true) (.not r))))).Holds m values := by
      refine (holds_quantify_both (Or.inl rfl) (fun b member => ?_) (fun b member => ?_)).mpr
        ⟨left normalLeft apart.left (fun y listed => (unbound y listed).1) avoidLeft values,
          right normalRight apart.right (fun y listed => (unbound y listed).2) avoidRight values⟩
      · have bound : b.2 ∈ l.boundVariables := List.mem_map_of_mem member
        refine unfree_quantify (unfree_quantify fun free => ?_)
        exact (mem_free_binary.mp free).elim (apart.unfree_right bound) (apart.sides.1 _ bound).1
      · have bound : b.2 ∈ r.boundVariables := List.mem_map_of_mem member
        refine unfree_quantify fun free => ?_
        exact (mem_free_binary.mp free).elim (apart.unfree_left bound) (apart.sides.2 _ bound).1
    refine holds_quantify_mono (fun others sides => holds_forAll.mpr fun final same => ?_) both
    have left := holds_forAll.mp sides.1 final same
    have right := holds_forAll.mp sides.2 final same
    rcases junction with rfl | rfl <;>
      simp only [Holds, dropBinders, Connective.Joins] at left right ⊢ <;> tauto
  | quantified q x f ih =>
    simp only [bound_quantified, List.mem_cons, not_or] at unbound
    cases q with
    | universal =>
      -- The element is fixed, and the elements for the quantifiers further inside may depend on it.
      intro d
      have kept : ys.filter (· ≠ x) = ys :=
        List.filter_eq_self.mpr fun y listed => decide_eq_true (unbound y listed).1
      have inner := ih normal apart.scope.1 (fun y listed => (unbound y listed).2)
        (kept ▸ avoid) (assign values x d)
      refine holds_quantify_mono (fun others holds => ?_) inner
      refine holds_forAll.mpr fun final same => (holds_forAll.mp holds final same).imp_right ?_
      -- What holds of all elements holds of the one that the variable stands for.
      intro fails all
      have here : f.Holds m (assign final x (final x)) := all (final x)
      rw [assign_self] at here
      exact fails here
    | existential =>
      -- The variables avoided do not occur here at all.
      have unfree : ∀ y ∈ ys, y ∉ (Formula.or (f.dropBinders fun _ => true)
          (.not (.quantified .existential x f))).freeVariables := by
        intro y listed free
        have outside := of_decide_eq_true (List.all_eq_true.mp avoid y listed)
        rcases mem_free_binary.mp free with free | free
        · rcases mem_free_dropBinders free with old | bound
          · exact outside (mem_free_quantified.mpr ⟨old, (unbound y listed).1⟩)
          · exact (unbound y listed).2 bound
        · exact outside free
      have decided : (quantify (quantified .existential x f).binders
          (.or (f.dropBinders fun _ => true) (.not (.quantified .existential x f)))).Holds m
            values := by
        refine (holds_quantify_left (Or.inr rfl) fun b member => ?_).mpr ?_
        · exact apart.unfree b.2 (List.mem_map_of_mem member)
        · exact (em _).imp_left (toPrenex_preserve_equivalent normal apart m values).mpr
      exact holds_quantify_mono (fun others => (holds_forAll_of_unfree unfree).mpr) decided

end Avoidance

/-- Moves all quantifiers to the front, and puts universal ones over other variables below them. -/
def toPrenexOver (order : PrenexOrder) (ys : List Variable) (f : Formula) : Formula :=
  quantify (order.arrange f.binders) (forAll ys (f.dropBinders fun _ => true))

section Inside

variable {order : PrenexOrder} {f : Formula} {ys : List Variable} {symbols : SymbolTable}

/-- Over no further variables, all quantifiers are moved to the front as they are. -/
theorem toPrenexOver_nil : f.toPrenexOver order [] = f.toPrenex order := rfl

/-- The variables bound in front are those of the formula and the ones given. -/
theorem bound_toPrenexOver :
    (f.toPrenexOver order ys).boundVariables = (order.arrange f.binders).map (·.2) ++ ys := by
  -- The formula behind the quantifiers has none of its own.
  have unbound := binders_of_isQuantifierFree (isQuantifierFree_dropBinders f)
  simp [toPrenexOver, boundVariables, binders_quantify, binders_forAll, unbound]

/-- Where all free variables are among those given, no variable is free any more. -/
theorem closed_toPrenexOver (covers : ∀ z ∈ f.freeVariables, z ∈ ys) :
    (f.toPrenexOver order ys).freeVariables = [] := by
  -- A variable is free in the end only if no quantifier in front binds it.
  refine List.eq_nil_iff_forall_not_mem.mpr fun z free => ?_
  obtain ⟨inside, unbound⟩ := mem_free_quantify.mp free
  obtain ⟨inside, unlisted⟩ := mem_free_forAll.mp inside
  rcases mem_free_dropBinders inside with old | bound
  · exact unlisted (covers z old)
  · exact unbound (((order.arrange_perm f.binders).map _).mem_iff.mpr bound)

/-- Variables stay apart if those given are different and not bound in the formula. -/
theorem Apart.toPrenexOver (apart : f.Apart) (distinct : ys.Nodup)
    (covers : ∀ z ∈ f.freeVariables, z ∈ ys) (unbound : ∀ y ∈ ys, y ∉ f.boundVariables) :
    (f.toPrenexOver order ys).Apart := by
  -- The quantifiers in front bind the variables of the formula in some order.
  have bound : ((order.arrange f.binders).map (·.2)).Perm f.boundVariables :=
    (order.arrange_perm f.binders).map _
  refine ⟨?_, fun x _ free => ?_⟩
  · -- All variables that are bound in front are different.
    rw [bound_toPrenexOver, List.nodup_append]
    refine ⟨bound.nodup_iff.mpr apart.distinct, distinct, ?_⟩
    rintro x inside y listed rfl
    exact unbound x listed (bound.mem_iff.mp inside)
  · -- No variable is free, so that none is free and bound as well.
    rw [closed_toPrenexOver covers] at free
    exact List.not_mem_nil free

/-- A formula stays known if the variables given are. -/
theorem Known.toPrenexOver (known : f.Known symbols) (listed : ∀ y ∈ ys, symbols.Knows y) :
    (f.toPrenexOver order ys).Known symbols :=
  (known.dropBinders.forAll listed).quantify fun b member =>
    known.binders b (order.mem_arrange.mp member)

/-- Witnesses do not depend on universal quantifiers below all others. -/
theorem trueIn_skolemize_toPrenexOver (apart : f.Apart)
    (unbound : ∀ y ∈ ys, y ∉ f.boundVariables) {m : Structure} :
    ((f.toPrenexOver order ys).skolemize symbols).formula.TrueIn m ↔
      ((f.toPrenex order).skolemize symbols).formula.TrueIn m := by
  -- Rearranging the quantifiers leaves their variables distinct, and apart from those given.
  have bound : ((order.arrange f.binders).map (·.2)).Perm f.boundVariables :=
    (order.arrange_perm f.binders).map _
  refine trueIn_skolemizeIn_forAll (bound.nodup_iff.mpr apart.distinct) (fun b member listed => ?_)
    (isQuantifierFree_dropBinders f)
  exact unbound b.2 listed (bound.mem_iff.mp (List.mem_map_of_mem member))

/-- A closed formula is true in some structure just if it is with terms for its witnesses. -/
theorem exists_trueIn_skolemize (known : f.Known symbols) (closed : f.freeVariables = [])
    (apart : f.Apart) :
    (∃ m : Structure, (f.skolemize symbols).formula.TrueIn m) ↔ ∃ m : Structure, f.TrueIn m := by
  -- One direction reads off the elements from the terms, and the other one gives the terms
  -- meanings.
  constructor
  · rintro ⟨m, holds⟩
    exact ⟨m, fun values =>
      (f.skolemizes [] symbols).holds_of apart.distinct (by simp) (holds values)⟩
  · rintro ⟨m, holds⟩
    -- The structure gives the new symbols what the quantifiers ask for.
    obtain ⟨second, _, kept⟩ := skolemizeAll_meanings (List.forall_mem_singleton.mpr known)
      (List.forall_mem_singleton.mpr closed) (List.forall_mem_singleton.mpr apart) m.meanings
      (List.forall_mem_singleton.mpr holds)
    exact ⟨m.reinterpret second, kept _ (List.mem_singleton_self _)⟩

/-- Quantifiers in front of a formula stay in front of those that follow them in their order. -/
theorem toPrenex_preserve_forAll :
    (forAll ys f).toPrenex .preserve = forAll ys (f.toPrenex .preserve) := by
  -- The binders come in their order, and those in front are the first.
  show quantify (forAll ys f).binders _ = _
  rw [binders_forAll, dropBinders_forAll, quantify_append]
  rfl

variable {m : Structure}

/-- With existential quantifiers in front of all others, universal ones may stand anywhere. -/
theorem trueIn_toPrenex_existentialsFirst_forAll :
    ((forAll ys f).toPrenex .existentialsFirst).TrueIn m ↔
      (f.toPrenexOver .existentialsFirst ys).TrueIn m := by
  have groups : PrenexOrder.existentialsFirst.arrange (forAll ys f).binders =
      f.binders.filter (·.1 == .existential) ++
        ((ys.map fun y => (.universal, y)) ++ f.binders.filter (·.1 == .universal)) := by
    simp [PrenexOrder.arrange, binders_forAll, List.filter_append, List.filter_map,
      Function.comp_def]
  have universal : ∀ b ∈ f.binders.filter (·.1 == .universal), b.1 = .universal :=
    fun b member => eq_of_beq (List.mem_filter.mp member).2
  -- The universal quantifiers of the formula and the others are neighbours, and change places.
  rw [toPrenex, toPrenexOver, groups, dropBinders_forAll, PrenexOrder.arrange, quantify_append,
    quantify_append, quantify_append, quantify_eq_forAll universal, quantify_eq_forAll universal]
  exact forall_congr' fun values => holds_quantify_congr fun others => holds_forAll_comm

/-- Universal quantifiers below all others make a formula say no less than in front of it. -/
theorem trueIn_toPrenex_forAll (holds : (f.toPrenexOver order ys).TrueIn m) :
    ((forAll ys f).toPrenex order).TrueIn m := by
  -- The orders differ in where the universal quantifiers of the formula stand.
  cases order with
  | existentialsFirst => exact trueIn_toPrenex_existentialsFirst_forAll.mpr holds
  | preserve =>
    -- What holds for all values of the variables holds for those that they have already.
    rw [toPrenex_preserve_forAll, trueIn_forAll]
    intro values
    exact holds_quantify_mono (fun others all => holds_forAll.mp all others fun _ _ => rfl)
      (holds values)

/-- They make it say no more either if no existential quantifier could depend on them. -/
theorem trueIn_toPrenexOver (normal : f.isNegationNormal = true) (apart : f.Apart)
    (unbound : ∀ y ∈ ys, y ∉ f.boundVariables)
    (independent : order = .existentialsFirst ∨ f.existentialsAvoid ys = true)
    (holds : ((forAll ys f).toPrenex order).TrueIn m) : (f.toPrenexOver order ys).TrueIn m := by
  cases order with
  | existentialsFirst => exact trueIn_toPrenex_existentialsFirst_forAll.mp holds
  | preserve =>
    have avoid : f.existentialsAvoid ys = true := independent.resolve_left (by simp)
    rw [toPrenex_preserve_forAll, trueIn_forAll,
      (toPrenex_preserve_equivalent normal apart).trueIn] at holds
    -- The formula holds under all assignments, and so does what the elements found make of it.
    intro values
    refine holds_quantify_mono (fun others either => ?_)
      (holds_quantify_forAll_or normal apart unbound avoid values)
    refine holds_forAll.mpr fun final same => ?_
    exact (holds_forAll.mp either final same).resolve_right fun fails => fails (holds final)

end Inside

end Formula

end ClauseForm
