import ClauseForm.Proofs.Closure
import ClauseForm.Proofs.Soundness

/-! What becomes of the meaning of formulas when quantifiers are moved or give way to witnesses. -/

namespace ClauseForm.Formula

section Moving

variable {f : Formula}

/--
In either order, quantifiers in front make no formula true that was not true with its quantifiers in
place. They make the same formulas true if their order is kept, or if no existential quantifier lies
in the scope of a universal one.
-/
theorem toPrenex_holds (normal : f.isNegationNormal = true) (unique : f.hasUniqueBinders = true) :
    (∀ (m : Structure) (values : Variable → m.Domain),
      ((f.toPrenex .preserve).Holds m values ↔ f.Holds m values) ∧
      ((f.toPrenex .existentialsFirst).Holds m values → f.Holds m values) ∧
      (f.existentialsOutside = true →
        ((f.toPrenex .existentialsFirst).Holds m values ↔ f.Holds m values))) ∧
      ∀ (order : PrenexOrder) (z : Variable),
        z ∈ (f.toPrenex order).freeVariables ↔ z ∈ f.freeVariables := by
  have apart : f.Apart := hasUniqueBinders_iff.mp unique
  -- The order matters for what is true, and not for the free variables.
  refine ⟨fun m values => ⟨?_, ?_, fun outside => ?_⟩, fun order z => mem_free_toPrenex apart⟩
  · exact toPrenex_preserve_equivalent normal apart m values
  · exact holds_of_toPrenex normal apart
  · exact toPrenex_existentialsFirst_equivalent normal apart outside m values

/-- Quantifiers of both kinds in either part of a conjunction and of a disjunction. -/
def scattered : Formula :=
  .and (.quantified .existential ⟨0⟩ (.quantified .universal ⟨1⟩ (.not (less ⟨1⟩ ⟨0⟩))))
    (.or (.quantified .universal ⟨2⟩ (less ⟨2⟩ ⟨3⟩))
      (.quantified .existential ⟨4⟩ (less ⟨3⟩ ⟨4⟩)))

/-- Its quantifiers may stand in front in either order, and its free variable stays free. -/
theorem toPrenex_holds_scattered :
    (∀ order, ((scattered.toPrenex order).Holds naturals (fun _ => (0 : Nat)) ↔
      scattered.Holds naturals (fun _ => (0 : Nat)))) ∧
    ⟨3⟩ ∈ (scattered.toPrenex .existentialsFirst).freeVariables := by
  -- Implications and repeated variables are absent, as the theorem asks for.
  have moved := toPrenex_holds (f := scattered) (by decide) (by decide)
  obtain ⟨preserved, _, first⟩ := moved.1 naturals (fun _ => (0 : Nat))
  refine ⟨fun order => ?_, (moved.2 .existentialsFirst ⟨3⟩).mpr (by decide)⟩
  cases order with
  | preserve => exact preserved
  | existentialsFirst => exact first (by decide)

end Moving

section Witnesses

variable {f : Formula} {scope : List Variable} {symbols : SymbolTable}

/-- The scope grows by the universal quantifiers in front, in their order. -/
theorem scope_skolemizeIn (prenex : f.isPrenex = true) (distinct : f.boundVariables.Nodup)
    (outside : ∀ x ∈ scope, x ∉ f.boundVariables) :
    (f.skolemizeIn scope symbols).scope =
      scope ++ (f.binders.filter (·.1 == .universal)).map (·.2) := by
  -- The cases are those of the function.
  fun_induction skolemizeIn f scope symbols with
  | case1 x f scope symbols term after made rest ih =>
    rw [bound_quantified, List.nodup_cons] at distinct
    simp only [bound_quantified, List.mem_cons, not_or] at outside
    -- A witness changes neither the quantifiers that are left nor the scope.
    rw [boundVariables, binders_substitute] at ih
    exact ih ((sameShape_substitute x term f).isPrenex ▸ prenex) distinct.2
      fun y inside => (outside y inside).2
  | case2 x f scope symbols rest ih =>
    rw [bound_quantified, List.nodup_cons] at distinct
    simp only [bound_quantified, List.mem_cons, not_or] at outside
    have unlisted : x ∉ scope := fun listed => (outside x listed).1 rfl
    have grown : extendScope scope x = scope ++ [x] := if_neg unlisted
    have later : ∀ y ∈ extendScope scope x, y ∉ f.boundVariables := by
      intro y inside
      rcases mem_extendScope.mp inside with old | rfl
      · exact (outside y old).2
      · exact distinct.1
    show rest.scope = _
    rw [ih prenex distinct.2 later, grown, List.append_assoc]
    rfl
  | case3 f scope symbols existential universal =>
    -- A prenex formula that does not begin with a quantifier has none.
    have free : f.isQuantifierFree = true := by
      cases f with
      | quantified q x f =>
        cases q with
        | existential => exact (existential x f rfl).elim
        | universal => exact (universal x f rfl).elim
      | _ => exact prenex
    rw [binders_of_isQuantifierFree free]
    exact (List.append_nil scope).symm

/--
A prenex formula says no more than the formula with witnesses. Where the values of all variables
outside the scope are fixed, the new symbols can be given meanings with which it says no less.
-/
theorem skolemizeIn_conservative (known : f.Known symbols) (prenex : f.isPrenex = true)
    (unique : f.hasUniqueBinders = true) (inScope : ∀ x ∈ scope, symbols.Knows x)
    (outside : ∀ x ∈ scope, x ∉ f.boundVariables) :
    (∀ (m : Structure) (values : Variable → m.Domain),
      (f.skolemizeIn scope symbols).formula.Holds m values → f.Holds m values) ∧
    (∀ (m : Structure) (base : Variable → m.Domain), ∃ meanings : Meanings m.Domain,
      m.meanings.DifferOnNew symbols (f.skolemizeIn scope symbols).symbols meanings ∧
      ∀ values : Variable → m.Domain, (∀ y, y ∉ scope → values y = base y) → f.Holds m values →
        (f.skolemizeIn scope symbols).formula.Holds (m.reinterpret meanings) values) ∧
    (f.skolemizeIn scope symbols).formula.isSkolemized = true ∧
    (∀ z ∈ (f.skolemizeIn scope symbols).formula.freeVariables,
      z ∈ f.freeVariables ∨ z ∈ scope) ∧
    (f.skolemizeIn scope symbols).scope =
      scope ++ (f.binders.filter (·.1 == .universal)).map (·.2) ∧
    f.skolemize symbols = f.skolemizeIn [] symbols := by
  -- The steps of the function are those of the relation that its properties are proved by.
  have apart : f.Apart := hasUniqueBinders_iff.mp unique
  have steps := f.skolemizes scope symbols
  refine ⟨fun m values => steps.holds_of apart.distinct outside, fun m base => ?_,
    (steps.isPrenex prenex).2, fun z => steps.mem_free,
    scope_skolemizeIn prenex apart.distinct outside, rfl⟩
  exact steps.exists_meanings known inScope apart.distinct outside base m.meanings

/-- Every element has one above it that is above the value of the free variable as well. -/
def dominated : Formula :=
  .quantified .universal ⟨1⟩ (.quantified .existential ⟨2⟩
    (.and (less ⟨0⟩ ⟨2⟩) (less ⟨1⟩ ⟨2⟩)))

/-- Three variables and a relation between elements. -/
def threeVariables : SymbolTable := (comparisonSymbols.intern .var "z").2

/-- With the free variable in scope, one function finds such elements for all of its values. -/
theorem skolemizeIn_conservative_dominated :
    (dominated.skolemizeIn [⟨0⟩] threeVariables).scope = [⟨0⟩, ⟨1⟩] ∧
    ∃ meanings : Meanings naturals.Domain,
      naturals.meanings.DifferOnNew threeVariables
        (dominated.skolemizeIn [⟨0⟩] threeVariables).symbols meanings ∧
      ∀ values : Variable → Nat, (∀ y, y ∉ [(⟨0⟩ : Variable)] → values y = 0) →
        (dominated.skolemizeIn [⟨0⟩] threeVariables).formula.Holds
          (naturals.reinterpret meanings) values := by
  have known : dominated.Known threeVariables := by decide +kernel
  have inScope : ∀ x ∈ [(⟨0⟩ : Variable)], threeVariables.Knows x := by decide +kernel
  have outside : ∀ x ∈ [(⟨0⟩ : Variable)], x ∉ dominated.boundVariables := by decide
  have conservative := skolemizeIn_conservative known rfl (by decide) inScope outside
  -- The scope holds the free variable, whose value is zero.
  obtain ⟨meanings, differ, keeps⟩ := conservative.2.1 naturals fun _ => (0 : Nat)
  refine ⟨conservative.2.2.2.2.1, meanings, differ, fun values fixed => keeps values fixed ?_⟩
  intro (d : Nat)
  -- The sum of two numbers and one is above both.
  have aboveFree : values ⟨0⟩ < values ⟨0⟩ + d + 1 := by omega
  have above : d < values ⟨0⟩ + d + 1 := by omega
  refine ⟨values ⟨0⟩ + d + 1, ?_, ?_⟩
  · show [values ⟨0⟩, values ⟨0⟩ + d + 1].Pairwise (· < ·)
    exact List.pairwise_pair.mpr aboveFree
  · show [d, values ⟨0⟩ + d + 1].Pairwise (· < ·)
    exact List.pairwise_pair.mpr above

end Witnesses

section Stripping

variable {f : Formula} {m : Structure} {values : Variable → m.Domain}

/-- Which quantifiers are left out depends on those of the formula only. -/
theorem dropBinders_congr {dropped others : Quantifier → Bool}
    (same : ∀ b ∈ f.binders, dropped b.1 = others b.1) :
    f.dropBinders dropped = f.dropBinders others := by
  -- Both choices agree at every quantifier that is met.
  induction f with
  | atom a => rfl
  | not f ih => rw [dropBinders, dropBinders, ih same]
  | binary op l r left right =>
    rw [binders, List.forall_mem_append] at same
    rw [dropBinders, dropBinders, left same.1, right same.2]
  | quantified q x f ih =>
    rw [binders, List.forall_mem_cons] at same
    rw [dropBinders, dropBinders, same.1, ih same.2]

/-- Where all quantifiers are universal, those in front close what is left without them. -/
theorem toPrenex_preserve_of_isSkolemized (skolemized : f.isSkolemized = true) :
    f.toPrenex .preserve = forAll f.boundVariables f.stripUniversals := by
  -- All quantifiers are dropped when those that are universal are.
  have universal : ∀ b ∈ f.binders, b.1 = .universal := fun b member =>
    eq_of_beq (List.all_eq_true.mp skolemized b member)
  have all : (f.dropBinders fun _ => true) = f.stripUniversals :=
    dropBinders_congr fun b member => by rw [universal b member]; rfl
  rw [toPrenex, PrenexOrder.arrange, all, quantify_eq_forAll universal, boundVariables]

/-- Universal quantifiers that are left out where they are may stand in front instead. -/
theorem holds_forAll_stripUniversals (normal : f.isNegationNormal = true) (apart : f.Apart)
    (skolemized : f.isSkolemized = true) :
    (forAll f.boundVariables f.stripUniversals).Holds m values ↔ f.Holds m values := by
  -- The closure is the prenex form with the same quantifiers.
  rw [← toPrenex_preserve_of_isSkolemized skolemized]
  exact toPrenex_preserve_equivalent normal apart m values

/--
Leaving out universal quantifiers, wherever they are, does not matter for truth under all
assignments. Under a single one, the formula says what is left says for all values of the variables
that it binds. No quantifier is left, and no variables are free but those that were free or bound.
-/
theorem stripUniversals_closure (normal : f.isNegationNormal = true)
    (unique : f.hasUniqueBinders = true) (skolemized : f.isSkolemized = true) :
    (∀ m : Structure, f.TrueIn m ↔ f.stripUniversals.TrueIn m) ∧
    (∀ (m : Structure) (values : Variable → m.Domain), f.Holds m values ↔
      (forAll f.boundVariables f.stripUniversals).Holds m values) ∧
    f.stripUniversals.isQuantifierFree = true ∧
    ∀ z ∈ f.stripUniversals.freeVariables, z ∈ f.freeVariables ∨ z ∈ f.boundVariables := by
  have apart : f.Apart := hasUniqueBinders_iff.mp unique
  have closed (m : Structure) (values : Variable → m.Domain) : f.Holds m values ↔
      (forAll f.boundVariables f.stripUniversals).Holds m values :=
    (holds_forAll_stripUniversals normal apart skolemized).symm
  refine ⟨fun m => ?_, closed, isQuantifierFree_stripUniversals skolemized,
    fun z free => mem_free_dropBinders free⟩
  -- Under all assignments, quantifiers that stand in front may be left out.
  exact (forall_congr' (closed m)).trans trueIn_forAll

/-- The free variable has a least or a greatest value. -/
def extreme : Formula :=
  .or (.quantified .universal ⟨1⟩ (.not (less ⟨1⟩ ⟨0⟩)))
    (.quantified .universal ⟨2⟩ (.not (less ⟨0⟩ ⟨2⟩)))

/-- One is not extreme, although what is left is true if all of its variables are one. -/
theorem stripUniversals_closure_extreme :
    ¬ extreme.TrueIn naturals ∧ ¬ extreme.Holds naturals (fun _ => (1 : Nat)) ∧
    extreme.stripUniversals.Holds naturals (fun _ => (1 : Nat)) ∧
    extreme.stripUniversals.isQuantifierFree = true := by
  obtain ⟨closure, closed, free, _⟩ :=
    stripUniversals_closure (f := extreme) (by decide) (by decide) (by decide)
  -- One lies between zero and two.
  have between (values : Variable → Nat) (first : values ⟨1⟩ = 0) (middle : values ⟨0⟩ = 1)
      (last : values ⟨2⟩ = 2) : ¬ extreme.stripUniversals.Holds naturals values := by
    show ¬ (¬ [values ⟨1⟩, values ⟨0⟩].Pairwise (· < ·) ∨
      ¬ [values ⟨0⟩, values ⟨2⟩].Pairwise (· < ·))
    rw [first, middle, last]
    decide
  let row : Variable → Nat := fun x => if x = ⟨1⟩ then 0 else if x = ⟨2⟩ then 2 else 1
  have outside : ∀ z : Variable, z ∉ extreme.boundVariables → row z = 1 := by
    intro z unbound
    have others : z ≠ ⟨1⟩ ∧ z ≠ ⟨2⟩ := by
      simpa [extreme, boundVariables, binders, less] using unbound
    show (if z = ⟨1⟩ then 0 else if z = ⟨2⟩ then 2 else 1) = 1
    rw [if_neg others.1, if_neg others.2]
  refine ⟨fun holds => ?_, fun holds => ?_, ?_, free⟩
  · exact between row rfl rfl rfl ((closure naturals).mp holds row)
  · exact between row rfl rfl rfl (holds_forAll.mp ((closed naturals _).mp holds) row outside)
  · show ¬ [1, 1].Pairwise (· < ·) ∨ ¬ [1, 1].Pairwise (· < ·)
    decide

end Stripping

end ClauseForm.Formula
