import ClauseForm.Proofs.Standardization

/-!
Renaming across a list changes variables of universal quantifiers only. The first one to bind a
variable keeps it, and every later one gets a variable that was not known before.
-/

namespace ClauseForm

namespace Naming

section Turns

variable {claims : Quantifier → Bool} {naming : Naming} {bs : List (Quantifier × Variable)}
  {p q : Quantifier} {x y z : Variable}

/-- A variable that is taken at the start, or bound by one of the quantifiers that claim theirs. -/
def Given (claims : Quantifier → Bool) (naming : Naming) (bs : List (Quantifier × Variable))
    (x : Variable) : Prop :=
  x ∈ naming.taken ∨ ∃ p, claims p = true ∧ (p, x) ∈ bs

/-- A quantifier that claims its variable adds this one to the known variables that are taken. -/
theorem mem_taken_settle (known : naming.symbols.Knows x) :
    x ∈ (naming.settle claims p z).2.taken ↔ x ∈ naming.taken ∨ claims p = true ∧ x = z := by
  rw [settle]
  split
  · rename_i chosen
    rw [claim]
    split
    · rename_i taken
      -- The new variable is none that is known, and the old one was taken before.
      have new : x ≠ naming.symbols.freshVariable.1 := by
        rintro rfl
        exact naming.symbols.freshVariable_new.1 known
      simp only [List.mem_cons, new, false_or, chosen, true_and]
      refine ⟨Or.inl, fun given => given.elim id ?_⟩
      rintro rfl
      exact taken
    · simp only [List.mem_cons, chosen, true_and, or_comm]
  · rename_i unchosen
    simp only [unchosen, Bool.false_eq_true, false_and, or_false]

/-- What is given after the first turn is what the first quantifier gives besides the others. -/
theorem given_cons (known : naming.symbols.Knows x) :
    naming.Given claims ((p, z) :: bs) x ↔ (naming.settle claims p z).2.Given claims bs x := by
  -- The first quantifier gives its variable just if it claims it.
  simp only [Given, mem_taken_settle known, List.mem_cons, Prod.mk.injEq]
  constructor
  · rintro (taken | ⟨r, chosen, ⟨rfl, rfl⟩ | later⟩)
    · exact Or.inl (Or.inl taken)
    · exact Or.inl (Or.inr ⟨chosen, rfl⟩)
    · exact Or.inr ⟨r, chosen, later⟩
  · rintro ((taken | ⟨chosen, rfl⟩) | ⟨r, chosen, later⟩)
    · exact Or.inl taken
    · exact Or.inr ⟨p, chosen, Or.inl ⟨rfl, rfl⟩⟩
    · exact Or.inr ⟨r, chosen, Or.inr later⟩

/-- A quantifier gets a new variable if it claims one that is taken, and keeps its own otherwise. -/
theorem settle_cases (naming : Naming) (claims : Quantifier → Bool) (q : Quantifier)
    (x : Variable) :
    (claims q = true ∧ x ∈ naming.taken → ¬ naming.symbols.Knows (naming.settle claims q x).1) ∧
      (¬ (claims q = true ∧ x ∈ naming.taken) → (naming.settle claims q x).1 = x) := by
  -- Only a claim to a variable that is taken asks the table for a new one.
  rw [settle, claim]
  split
  · rename_i chosen
    split
    · rename_i taken
      exact ⟨fun _ => naming.symbols.freshVariable_new.1,
        fun other => (other ⟨chosen, taken⟩).elim⟩
    · rename_i untaken
      exact ⟨fun given => (untaken given.2).elim, fun _ => rfl⟩
  · rename_i unchosen
    exact ⟨fun given => (unchosen given.1).elim, fun _ => rfl⟩

/-- The variable that a quantifier has after its turn is known from then on. -/
theorem knows_settle (known : naming.symbols.Knows z) :
    (naming.settle claims p z).2.symbols.Knows (naming.settle claims p z).1 := by
  -- The variable is kept or comes from the supply.
  rcases naming.settle_variable claims p z with kept | new
  · rw [kept]
    exact (naming.settle_grows claims p z).knows known
  · exact new.2

/--
When its turn comes, a quantifier that claims a variable given by then gets one that was not known
at the start and that none before it has got. All other quantifiers keep their variables.
-/
theorem settleAll_turn (known : ∀ b ∈ bs, naming.symbols.Knows b.2) {i : Nat}
    (old : bs[i]? = some (q, x)) (now : (naming.settleAll claims bs).1[i]? = some y) :
    (claims q = true ∧ naming.Given claims (bs.take i) x →
      ¬ naming.symbols.Knows y ∧ y ∉ (naming.settleAll claims bs).1.take i) ∧
    (¬ (claims q = true ∧ naming.Given claims (bs.take i) x) → y = x) := by
  -- The first turn makes a naming that knows more, from which the other turns start.
  induction bs generalizing naming i with
  | nil => cases old
  | cons b bs ih =>
    obtain ⟨p, z⟩ := b
    obtain ⟨here, later⟩ := List.forall_mem_cons.mp known
    rw [settleAll_cons] at now ⊢
    cases i with
    | zero =>
      obtain ⟨rfl, rfl⟩ : p = q ∧ z = x := by simpa using old
      obtain rfl : (naming.settle claims p z).1 = y := by simpa using now
      simpa [Given] using naming.settle_cases claims p z
    | succ i =>
      have grows := naming.settle_grows claims p z
      have inside : naming.symbols.Knows x := later (q, x) (List.mem_of_getElem? old)
      obtain ⟨new, kept⟩ := ih (fun c member => grows.knows (later c member)) old now
      rw [List.take_succ_cons, given_cons inside, List.take_succ_cons]
      refine ⟨fun given => ?_, kept⟩
      obtain ⟨unknown, other⟩ := new given
      refine ⟨fun earlier => unknown (grows.knows earlier), ?_⟩
      -- What the first quantifier has is known when the later ones have their turns.
      rw [List.mem_cons, not_or]
      refine ⟨?_, other⟩
      rintro rfl
      exact unknown (knows_settle here)

end Turns

end Naming

namespace Formula

section Across

variable {fs : List Formula} {naming : Naming} {symbols : SymbolTable}

/-- Each formula of a list only changes variables of universal quantifiers. -/
theorem alphaEquivalent_claimUniversals (known : ∀ f ∈ fs, f.Known naming.symbols) :
    List.Forall₂ (AlphaEquivalent (· == .universal)) fs (claimUniversals fs naming).1 := by
  -- The other formulas stay known to the table that the first one leaves.
  induction fs generalizing naming with
  | nil => exact .nil
  | cons f fs ih =>
    obtain ⟨here, later⟩ := List.forall_mem_cons.mp known
    refine .cons (alphaEquivalent_claimBinders _ here) (ih fun g member => ?_)
    exact (later g member).grows (f.claimBinders_grows _ id naming)

/-- The quantifiers of a list are settled one formula after the other. -/
theorem settleAll_claimUniversals (fs : List Formula) (naming : Naming) :
    naming.settleAll (· == .universal) (fs.flatMap binders) =
      (((claimUniversals fs naming).1.flatMap binders).map (·.2),
        (claimUniversals fs naming).2) := by
  -- Within a formula, its walk settles the quantifiers in their order.
  induction fs generalizing naming with
  | nil => rfl
  | cons f fs ih =>
    rw [List.flatMap_cons, Naming.settleAll_append, Naming.settleAll_binders _ f id, ih]
    simp only [claimUniversals, List.flatMap_cons, List.map_append, boundVariables]

/-- A list keeps its quantifiers, if with other variables. -/
theorem quantifiers_claimUniversals (fs : List Formula) (naming : Naming) :
    ((claimUniversals fs naming).1.flatMap binders).map (·.1) =
      (fs.flatMap binders).map (·.1) := by
  -- A walk changes no quantifier, and neither do several walks.
  induction fs generalizing naming with
  | nil => rfl
  | cons f fs ih =>
    have same : f.binders.map (·.1) = _ :=
      (f.sameShape_claimBinders (· == .universal) id naming).quantifiers
    simp only [claimUniversals, List.flatMap_cons, List.map_append, ih, same]
    rfl

/-- What renaming across a list makes of its formulas. -/
structure RenamesAcross (symbols : SymbolTable) (fs gs : List Formula) : Prop where
  alpha : List.Forall₂ (AlphaEquivalent (· == .universal)) fs gs
  free : List.Forall₂ (fun f g => ∀ x, x ∈ g.freeVariables ↔ x ∈ f.freeVariables) fs gs
  unique : areUniversalsUnique gs = true
  /-- Existential quantifiers keep their variables, as does the first universal one over each. -/
  keeps : ∀ (i : Nat) (q : Quantifier) (x : Variable), (fs.flatMap binders)[i]? = some (q, x) →
    q = .existential ∨ (.universal, x) ∉ (fs.flatMap binders).take i →
      (gs.flatMap binders)[i]? = some (q, x)
  /-- Later universal quantifiers get variables that neither the table nor one before them has. -/
  renews : ∀ (i : Nat) (x : Variable), (fs.flatMap binders)[i]? = some (.universal, x) →
    (.universal, x) ∈ (fs.flatMap binders).take i →
      ∃ y, (gs.flatMap binders)[i]? = some (.universal, y) ∧ ¬ symbols.Knows y ∧
        y ∉ ((gs.flatMap binders).take i).map (·.2)

/-- A quantifier of the list has its turn with all quantifiers before it. -/
theorem exists_turn (known : ∀ f ∈ fs, f.Known symbols) {i : Nat} {q : Quantifier} {x : Variable}
    (old : (fs.flatMap binders)[i]? = some (q, x)) :
    ∃ y, ((renameAcross fs symbols).1.flatMap binders)[i]? = some (q, y) ∧
      (q = .universal ∧ (.universal, x) ∈ (fs.flatMap binders).take i →
        ¬ symbols.Knows y ∧ y ∉ (((renameAcross fs symbols).1.flatMap binders).take i).map (·.2)) ∧
      (¬ (q = .universal ∧ (.universal, x) ∈ (fs.flatMap binders).take i) → y = x) := by
  -- Nothing is taken at the start.
  let start : Naming := { taken := [], symbols }
  have knows : ∀ b ∈ fs.flatMap binders, start.symbols.Knows b.2 := by
    intro b member
    obtain ⟨f, listed, inside⟩ := List.mem_flatMap.mp member
    exact (known f listed).binders b inside
  have given : start.Given (· == .universal) ((fs.flatMap binders).take i) x ↔
      (.universal, x) ∈ (fs.flatMap binders).take i := by
    simp [Naming.Given, start]
  have settled : (start.settleAll (· == .universal) (fs.flatMap binders)).1 =
      ((renameAcross fs symbols).1.flatMap binders).map (·.2) := by
    rw [settleAll_claimUniversals]
    rfl
  -- The list has kept its quantifiers, so the one at the same place is over some variable.
  have quantifiers : ((renameAcross fs symbols).1.flatMap binders).map (·.1) =
      (fs.flatMap binders).map (·.1) := quantifiers_claimUniversals fs start
  have same : ((renameAcross fs symbols).1.flatMap binders)[i]?.map (·.1) = some q := by
    rw [← List.getElem?_map, quantifiers, List.getElem?_map, old]
    rfl
  obtain ⟨⟨p, y⟩, now, rfl⟩ := Option.map_eq_some_iff.mp same
  have chosen : (start.settleAll (· == .universal) (fs.flatMap binders)).1[i]? = some y := by
    rw [settled, List.getElem?_map, now]
    rfl
  have turn := Naming.settleAll_turn knows old chosen
  rw [settled, ← List.map_take, given] at turn
  refine ⟨y, now, ?_⟩
  simpa only [beq_iff_eq] using turn

/--
Renaming across a list of known formulas changes variables of universal quantifiers only, so that no
two of these bind the same one. In the order of the list, the first one over a variable keeps it,
and the later ones get new variables.
-/
theorem renameAcross_alpha (known : ∀ f ∈ fs, f.Known symbols) :
    RenamesAcross symbols fs (renameAcross fs symbols).1 where
  alpha := alphaEquivalent_claimUniversals known
  free := (alphaEquivalent_claimUniversals known).imp fun f g alpha x => alpha.free.symm
  unique := areUniversalsUnique_renameAcross known
  keeps i q x old first := by
    -- At each place, the turn of the quantifier says what it is given.
    obtain ⟨y, now, _, kept⟩ := exists_turn known old
    obtain rfl : y = x := kept fun later => by
      rcases first with rfl | untaken
      · cases later.1
      · exact untaken later.2
    exact now
  renews i x old later := by
    obtain ⟨y, now, new, _⟩ := exists_turn known old
    exact ⟨y, now, new ⟨rfl, later⟩⟩

/-- Universal quantifiers over two variables, with existential ones over the first below them. -/
def repeating : List Formula :=
  [.quantified .universal ⟨0⟩ (.quantified .existential ⟨0⟩ (less ⟨0⟩ ⟨0⟩)),
    .and (.quantified .universal ⟨0⟩ (.quantified .existential ⟨0⟩ (less ⟨0⟩ ⟨1⟩)))
      (.quantified .universal ⟨1⟩ (less ⟨1⟩ ⟨0⟩))]

/-- Only the second universal quantifier over the first variable gets a name, one not in use. -/
theorem renameAcross_alpha_repeating :
    ((renameAcross repeating overlapping).1.flatMap binders).map (·.2) =
      [⟨0⟩, ⟨0⟩, ⟨2⟩, ⟨0⟩, ⟨1⟩] ∧
    RenamesAcross overlapping repeating (renameAcross repeating overlapping).1 := by
  -- The variables given out are computed.
  have known : ∀ f ∈ repeating, f.Known overlapping := by decide +kernel
  exact ⟨by decide +kernel, renameAcross_alpha known⟩

end Across

end Formula

end ClauseForm
