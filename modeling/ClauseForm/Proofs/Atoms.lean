import ClauseForm.Proofs.Closure
import ClauseForm.Proofs.SymbolMaps

/-! The atoms of formulas, of which distribution makes copies but no new ones. -/

namespace ClauseForm.Formula

/-- The atoms of a formula from left to right, repeats kept. -/
def atoms : Formula → List Atom
  | .atom a => [a]
  | .not f => f.atoms
  | .binary _ l r => l.atoms ++ r.atoms
  | .quantified _ _ f => f.atoms

section Atoms

variable {a : Atom} {f l r : Formula} {fs : List Formula}

/-- A variable of an atom is free in the formula or bound there. -/
theorem mem_free_or_bound_of_atoms (member : a ∈ f.atoms) {x : Variable} (occurs : x ∈ a.vars) :
    x ∈ f.freeVariables ∨ x ∈ f.boundVariables := by
  -- The atom brings the variable in, and quantifiers above it bind it or leave it free.
  induction f with
  | atom b =>
    obtain rfl := List.mem_singleton.mp member
    exact Or.inl (mem_free_atom.mpr occurs)
  | not f ih => exact ih member
  | binary op l r left right =>
    rw [mem_free_binary, bound_binary, List.mem_append]
    rcases List.mem_append.mp member with member | member
    · exact (left member).imp Or.inl Or.inl
    · exact (right member).imp Or.inr Or.inr
  | quantified q y f ih =>
    -- The quantifier binds its own variable, and leaves the others as they are.
    rw [mem_free_quantified, bound_quantified, List.mem_cons]
    by_cases same : x = y
    · exact Or.inr (Or.inl same)
    · exact (ih member).imp (fun free => ⟨free, same⟩) Or.inr

/-- Mapping the symbols of a formula maps those of its atoms, one by one. -/
theorem atoms_mapSymbols (image : SymbolMap) (f : Formula) :
    (f.mapSymbols image).atoms = f.atoms.map (Atom.mapSymbols image) := by
  -- A formula joined of two has its atoms in the same order afterwards.
  induction f with
  | atom a => rfl
  | not f ih => exact ih
  | binary op l r left right => simp only [mapSymbols, atoms, left, right, List.map_append]
  | quantified q x f ih => exact ih

/-- Leaving quantifiers out keeps the atoms. -/
theorem atoms_dropBinders (dropped : Quantifier → Bool) (f : Formula) :
    (f.dropBinders dropped).atoms = f.atoms := by
  -- A quantifier has no atoms of its own, whether it stays or goes.
  induction f with
  | atom a => rfl
  | not f ih => exact ih
  | binary op l r left right => simp only [dropBinders, atoms, left, right]
  | quantified q x f ih =>
    rw [dropBinders]
    split <;> exact ih

/-- Putting quantifiers in front keeps the atoms. -/
theorem atoms_quantify (bs : List (Quantifier × Variable)) (f : Formula) :
    (quantify bs f).atoms = f.atoms := by
  -- One quantifier after the other is put in front.
  induction bs with
  | nil => rfl
  | cons b bs ih => exact ih

/-- What stands behind the quantifiers in front has all atoms of the formula. -/
theorem atoms_matrix (f : Formula) : f.matrix.atoms = f.atoms := by
  -- Only the quantifiers in front are passed.
  induction f with
  | quantified q x f ih => exact ih
  | _ => rfl

/-- The atoms of a formula are those of its conjuncts. -/
theorem mem_atoms_iff_conjuncts : a ∈ f.atoms ↔ ∃ c ∈ f.conjuncts, a ∈ c.atoms := by
  -- A conjunction falls apart into what its sides fall apart into, and anything else stays whole.
  fun_induction conjuncts f with
  | case1 l r left right =>
    simp only [atoms, List.mem_append, left, right, or_and_right, exists_or]
  | case2 f single => simp only [List.mem_singleton, exists_eq_left]

/-- Distribution makes no atoms but those of both sides. -/
theorem mem_atoms_distribute (member : a ∈ (l.distribute r).atoms) : a ∈ l.atoms ∨ a ∈ r.atoms := by
  -- A conjunct joins one conjunct of either side.
  obtain ⟨c, pair, inside⟩ := mem_atoms_iff_conjuncts.mp member
  obtain ⟨b, inLeft, d, inRight, rfl⟩ := mem_conjuncts_distribute.mp pair
  rcases List.mem_append.mp inside with inside | inside
  · exact Or.inl (mem_atoms_iff_conjuncts.mpr ⟨b, inLeft, inside⟩)
  · exact Or.inr (mem_atoms_iff_conjuncts.mpr ⟨d, inRight, inside⟩)

/-- The atoms of a conjunctive normal form are atoms of the formula. -/
theorem mem_atoms_of_toConjunctive (member : a ∈ f.toConjunctive.atoms) : a ∈ f.atoms := by
  -- Only a disjunction is distributed. All else keeps the atoms where they are.
  induction f with
  | binary op l r left right =>
    rw [atoms, List.mem_append]
    cases op with
    | and => exact (List.mem_append.mp member).imp left right
    | or => exact (mem_atoms_distribute member).imp left right
    | _ => exact List.mem_append.mp member
  | _ => exact member

/-- The atoms of the literals that a formula is joined of are those of the formula. -/
theorem JoinedOf.atoms {ls : List Literal} (joined : JoinedOf f ls) :
    ls.map Literal.atom = f.atoms := by
  -- The literals of a disjunction are those of the left side and then those of the right one.
  induction joined with
  | atom a => rfl
  | not a => rfl
  | or _ _ left right => rw [List.map_append, left, right]; rfl

/-- The atoms of clauses are atoms of the formulas that the clauses come from. -/
theorem exists_atoms_of_extractClauses {cs : List Clause} (done : extractClauses fs = .ok cs)
    {c : Clause} (listed : c ∈ cs) {literal : Literal} (part : literal ∈ c.literals) :
    ∃ f ∈ fs, literal.atom ∈ f.atoms := by
  -- A clause has the literals of one conjunct.
  obtain ⟨d, inside, joined⟩ := exists_of_forall₂_right (forall₂_extractClauses done) listed
  obtain ⟨f, member, conjunct⟩ := List.mem_flatMap.mp inside
  refine ⟨f, member, mem_atoms_iff_conjuncts.mpr ⟨d, conjunct, ?_⟩⟩
  rw [← joined.atoms]
  exact List.mem_map_of_mem part

end Atoms

end ClauseForm.Formula
