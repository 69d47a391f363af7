import ClauseForm.Proofs.Atoms
import ClauseForm.Proofs.Turns

/-! Clauses of different formulas have few variables in common. -/

namespace ClauseForm

namespace Formula

/-- After a walk a quantifier is one that was there before, or it binds a new variable. -/
theorem mem_binders_claimBinders (claims : Quantifier → Bool) (f : Formula)
    (names : Variable → Variable) (naming : Naming) :
    ∀ b ∈ (f.claimBinders claims names naming).1.binders, b ∈ f.binders ∨
      ¬ naming.symbols.Knows b.2 := by
  -- Quantifiers may bind new variables, but none of a kind that was not there arises.
  induction f generalizing names naming with
  | atom a => simp [claimBinders, binders]
  | not f ih => exact ih names naming
  | binary op l r left right =>
    intro b bound
    rw [claimBinders_binary, binders, List.mem_append] at bound
    rw [binders, List.mem_append]
    rcases bound with bound | bound
    · exact (left names naming b bound).imp_left Or.inl
    -- What is not known later was not known before.
    · refine (right names _ b bound).imp Or.inr fun unknown known => unknown ?_
      exact (l.claimBinders_grows claims names naming).knows known
  | quantified q x f ih =>
    intro b bound
    -- The quantifier itself keeps its variable or binds one that is not known at this time.
    rw [claimBinders_quantified, binders, List.mem_cons] at bound
    rw [binders, List.mem_cons]
    rcases bound with rfl | bound
    · exact (naming.settle_variable claims q x).imp
        (fun kept => Or.inl (congrArg (Prod.mk q) kept)) And.left
    · refine (ih _ _ b bound).imp Or.inr fun unknown known => unknown ?_
      exact (naming.settle_grows claims q x).knows known

end Formula

namespace Draft

variable {order : PrenexOrder} {d : Draft} {place : Nat} {f : Formula}
  (here : d.formulas[place]? = some f) (known : ∀ f ∈ d.formulas, f.Known d.symbols)

include here known

/-- In the end all quantifiers are universal. -/
theorem isSkolemized_separated :
    -- In a prepared draft the sixth stage leaves no other quantifiers, and this is one of its
    -- formulas.
    (f.separated order (d.turn order place)).isSkolemized = true := by
  have prepared : (d.afterFirst order 6).Prepared order 7 := prepared_afterFirst known (by decide)
  refine prepared.forms.skolemized (by decide) _ (List.mem_of_getElem? (i := place) ?_)
  rw [getElem?_afterFirst_six, here]
  rfl

omit here known in
/-- A known variable is bound in the end only by a quantifier that was there at the beginning. -/
theorem mem_binders_separated {b : Quantifier × Variable} (old : d.symbols.Knows b.2)
    (bound : b ∈ (f.separated order (d.turn order place)).binders) :
    b ∈ f.pushNegation.binders := by
  -- New variables are bound in two stages, and no other stage makes quantifiers.
  have later : (d.turn order place).third.symbols.Knows b.2 := by
    have stages : 5 ≤ Stage.formulaStages.length := by decide
    exact paired_third.grows.knows ((paired_afterFirst order d stages).grows.knows old)
  have witnessed : b ∈ (f.witnessed order (d.turn order place)).binders :=
    (Formula.mem_binders_claimBinders _ _ id _ b bound).resolve_right fun new => new later
  have standard := mem_binders_witnessed witnessed
  exact (Formula.mem_binders_claimBinders _ _ id _ b standard).resolve_right fun new =>
    new (paired_first.grows.knows old)

/-- A known variable that is bound in the end was bound by a universal quantifier. -/
theorem mem_binders_of_bound {x : Variable} (old : d.symbols.Knows x)
    (bound : x ∈ (f.separated order (d.turn order place)).boundVariables) :
    (.universal, x) ∈ f.pushNegation.binders := by
  -- Such a quantifier is universal, and it was there at the beginning.
  obtain ⟨⟨q, y⟩, member, rfl⟩ := List.mem_map.mp bound
  have universal := List.all_eq_true.mp (isSkolemized_separated here known) (q, y) member
  obtain rfl : q = .universal := eq_of_beq universal
  exact mem_binders_separated old member

/-- What is free in the end was free in the formula. -/
theorem mem_free_separated {x : Variable}
    (free : x ∈ (f.separated order (d.turn order place)).freeVariables) : x ∈ f.freeVariables := by
  -- The stages are undone one after the other, the last one first.
  have first : f.Known (d.turn order place).first := known_first here known
  have apart := Formula.standardForm_apart first
  -- No stage frees a variable.
  have renamed := Formula.claimBinders_renamed (· == .universal) (d.turn order place).third
    (known_witnessed here known)
  have witnessed := (renamed.free x).mp free
  have prenex := ((Formula.skolemizes _ [] _).mem_free witnessed).resolve_right List.not_mem_nil
  exact (Formula.mem_free_standardForm first).mp ((Formula.mem_free_toPrenex apart).mp prenex)

end Draft

section Sharing

/-- Where all quantifiers are universal, those that claim variables are all of them. -/
theorem Formula.claimedVariables_of_isSkolemized {f : Formula}
    (skolemized : f.isSkolemized = true) :
    f.claimedVariables (· == .universal) = f.boundVariables := by
  -- The filter for universal quantifiers takes all of them.
  rw [claimedVariables, boundVariables, List.filter_eq_self.mpr (List.all_eq_true.mp skolemized)]

variable {order : PrenexOrder} {d : Draft} {i j : Nat} {f g : Formula}

/-- Different formulas bind different variables once universal quantifiers have claimed theirs. -/
theorem Draft.separated_disjoint (known : ∀ f ∈ d.formulas, f.Known d.symbols)
    (first : d.formulas[i]? = some f) (second : d.formulas[j]? = some g) (different : i ≠ j) :
    ∀ x ∈ (f.separated order (d.turn order i)).boundVariables,
      x ∉ (g.separated order (d.turn order j)).boundVariables := by
  -- Both formulas stand in the list that the sixth stage leaves, where all claims are distinct.
  have prepared : (d.afterFirst order 6).Prepared order 7 := prepared_afterFirst known (by decide)
  have unique := prepared.forms .renaming (by decide)
  have here : (d.afterFirst order 6).formulas[i]? = some (f.separated order (d.turn order i)) := by
    rw [getElem?_afterFirst_six, first]
    rfl
  have there : (d.afterFirst order 6).formulas[j]? = some (g.separated order (d.turn order j)) := by
    rw [getElem?_afterFirst_six, second]
    rfl
  rw [← Formula.claimedVariables_of_isSkolemized (isSkolemized_separated first known),
    ← Formula.claimedVariables_of_isSkolemized (isSkolemized_separated second known)]
  -- No variable is claimed twice across the list.
  have distinct : ((d.afterFirst order 6).formulas.flatMap
      (Formula.claimedVariables (· == .universal))).Nodup := by
    have new := (Formula.areNew_iff.mp unique).1
    rwa [List.filter_flatMap, List.map_flatMap] at new
  obtain ⟨inFirst, isFirst⟩ := List.getElem?_eq_some_iff.mp here
  obtain ⟨inSecond, isSecond⟩ := List.getElem?_eq_some_iff.mp there
  have apart := List.pairwise_iff_getElem.mp (List.nodup_flatMap.mp distinct).2
  -- Two places of a list are in one order or the other.
  intro x one two
  rcases Nat.lt_or_gt_of_ne different with before | after
  · have disjoint := apart i j inFirst inSecond before
    rw [isFirst, isSecond] at disjoint
    exact disjoint one two
  · have disjoint := apart j i inSecond inFirst after
    rw [isFirst, isSecond] at disjoint
    exact disjoint two one

end Sharing

/-- A variable occurs in the clauses of the block at a place. -/
def OccursAt (blocks : List (List Clause)) (place : Nat) (x : Variable) : Prop :=
  ∃ block, blocks[place]? = some block ∧ ∃ c ∈ block, x ∈ c.vars

section Blocks

variable {config : Config} {clock : Clock} {formulas : List Formula} {symbols : SymbolTable}
  {sink : Sink} {result : Normalized} {blocks : List (List Clause)} {place : Nat} {f : Formula}

/-- The atoms of the clauses of a formula are its atoms once variables are claimed. -/
theorem mem_atoms_separated
    (succeeded : (normalize config clock formulas symbols sink).result = .ok result)
    (divided : result.Blocks blocks) (here : formulas[place]? = some f) {block : List Clause}
    (there : blocks[place]? = some block) {c : Clause} (listed : c ∈ block) {l : Literal}
    (part : l ∈ c.literals) : l.atom ∈ (f.separated config.prenexOrder
      (Draft.turn config.prenexOrder { formulas, symbols } place)).atoms := by
  -- Taking out clauses, distributing and stripping keep the atoms.
  have made := extractClauses_course succeeded divided here there
  obtain ⟨g, only, member⟩ := Formula.exists_atoms_of_extractClauses made listed part
  obtain rfl := List.mem_singleton.mp only
  have before := Formula.mem_atoms_of_toConjunctive member
  rwa [Formula.stripUniversals, Formula.atoms_dropBinders] at before

/-- A variable in the clauses of a formula is free in it, or bound once variables are claimed. -/
theorem mem_free_or_bound_of_occursAt (known : ∀ f ∈ formulas, f.Known symbols)
    (succeeded : (normalize config clock formulas symbols sink).result = .ok result)
    (divided : result.Blocks blocks) (here : formulas[place]? = some f) {x : Variable}
    (occurs : OccursAt blocks place x) :
    x ∈ f.freeVariables ∨ x ∈ (f.separated config.prenexOrder
      (Draft.turn config.prenexOrder { formulas, symbols } place)).boundVariables := by
  -- The variable is in a literal, whose atom is in the formula at that stage.
  obtain ⟨block, there, c, listed, inside⟩ := occurs
  obtain ⟨l, part, inside⟩ := List.mem_flatMap.mp inside
  have member := mem_atoms_separated succeeded divided here there listed part
  exact (Formula.mem_free_or_bound_of_atoms member inside).imp_left
    (Draft.mem_free_separated here known)

/--
A variable in clauses that come from two formulas of a list is free in both of them, or it is free
in one and bound by a universal quantifier in the negation normal form of the other.
-/
theorem normalize_apart (known : ∀ f ∈ formulas, f.Known symbols)
    (succeeded : (normalize config clock formulas symbols sink).result = .ok result) :
    ∃ blocks, result.Blocks blocks ∧ result.clauses = blocks.flatten ∧
      blocks.length = formulas.length ∧
      ∀ (i j : Nat) (f g : Formula) (x : Variable), i ≠ j → formulas[i]? = some f →
        formulas[j]? = some g → OccursAt blocks i x → OccursAt blocks j x →
        x ∈ f.freeVariables ∧ x ∈ g.freeVariables ∨
        x ∈ f.freeVariables ∧ (.universal, x) ∈ g.pushNegation.binders ∨
        x ∈ g.freeVariables ∧ (.universal, x) ∈ f.pushNegation.binders := by
  obtain ⟨blocks, divided, whole, length⟩ := exists_blocks succeeded
  refine ⟨blocks, divided, whole, length, fun i j f g x different first second one two => ?_⟩
  -- A free variable is known, and so a quantifier that binds it has not been given a new one.
  have old {h : Formula} {k : Nat} (here : formulas[k]? = some h) (free : x ∈ h.freeVariables) :
      symbols.Knows x := (known h (List.mem_of_getElem? here)).free x free
  -- In either formula the variable is free, or it is bound in the end.
  rcases mem_free_or_bound_of_occursAt known succeeded divided first one with freeF | boundF <;>
    rcases mem_free_or_bound_of_occursAt known succeeded divided second two with freeG | boundG
  · exact Or.inl ⟨freeF, freeG⟩
  · exact Or.inr (Or.inl ⟨freeF, Draft.mem_binders_of_bound second known (old first freeF) boundG⟩)
  · exact Or.inr (Or.inr ⟨freeG, Draft.mem_binders_of_bound first known (old second freeG) boundF⟩)
  · exact absurd boundG (Draft.separated_disjoint known first second different x boundF)

end Blocks

section Predicates

/-- One variable and two properties of elements. -/
def twoProperties : SymbolTable :=
  (((SymbolTable.empty.intern .var "x").2.intern .pred "P").2.intern .pred "Q").2

/-- The value of the variable has the property with a number. -/
def hasProperty (number : Nat) : Formula :=
  .atom { predicate := { id := number, arity := 1 }, args := [.var ⟨0⟩] }

/-- All elements have the property with a number. -/
def allHaveProperty (number : Nat) : Formula := .quantified .universal ⟨0⟩ (hasProperty number)

/-- Clauses of closed formulas have no variable in common, even where the formulas do. -/
theorem normalize_apart_closed : ∃ result blocks,
    (normalize {} (.still 0) [allHaveProperty 0, allHaveProperty 1] twoProperties
      .discarding).result = .ok result ∧
    result.Blocks blocks ∧ blocks.length = 2 ∧
    ∀ x, ¬ (OccursAt blocks 0 x ∧ OccursAt blocks 1 x) := by
  have known : ∀ f ∈ [allHaveProperty 0, allHaveProperty 1], f.Known twoProperties := by
    decide +kernel
  have made : (normalize {} (.still 0) [allHaveProperty 0, allHaveProperty 1] twoProperties
      .discarding).result.toOption.any (fun _ => true) = true := by
    decide +kernel
  -- The general statement leaves three cases, and each has a free variable.
  obtain ⟨result, succeeded, _⟩ := exists_ok_of_any made
  obtain ⟨blocks, divided, _, length, apart⟩ := normalize_apart known succeeded
  refine ⟨result, blocks, succeeded, divided, length, fun x ⟨one, two⟩ => ?_⟩
  -- Neither formula has a free variable.
  have closed (number : Nat) : x ∉ (allHaveProperty number).freeVariables := by
    simp [allHaveProperty, hasProperty, Atom.vars]
  rcases apart 0 1 _ _ x (by decide) rfl rfl one two with ⟨free, _⟩ | ⟨free, _⟩ | ⟨free, _⟩
  · exact closed 0 free
  · exact closed 0 free
  · exact closed 1 free

/-- A variable bound in one formula stays in its clauses although it is free in another formula. -/
theorem normalize_shares_bound : ∃ result blocks,
    (normalize {} (.still 0) [allHaveProperty 0, hasProperty 1] twoProperties
      .discarding).result = .ok result ∧
    result.Blocks blocks ∧ OccursAt blocks 0 ⟨0⟩ ∧ OccursAt blocks 1 ⟨0⟩ ∧
    ⟨0⟩ ∉ (allHaveProperty 0).freeVariables := by
  have made : (normalize {} (.still 0) [allHaveProperty 0, hasProperty 1] twoProperties
      .discarding).result.toOption.any (·.formulas = [hasProperty 0, hasProperty 1]) = true := by
    decide +kernel
  -- The formulas in the end are compared with what is expected of them.
  obtain ⟨result, succeeded, formulas⟩ := exists_ok_of_any made
  let clause (number : Nat) : Clause :=
    { literals := [{ positive := true
                     atom := { predicate := { id := number, arity := 1 }, args := [.var ⟨0⟩] } }] }
  refine ⟨result, [[clause 0], [clause 1]], succeeded, ?_, ?_, ?_, by decide⟩
  · rw [Normalized.Blocks, of_decide_eq_true formulas]
    exact .cons rfl (.cons rfl .nil)
  · exact ⟨_, rfl, clause 0, by simp, by decide⟩
  · exact ⟨_, rfl, clause 1, by simp, by decide⟩

end Predicates

end ClauseForm
