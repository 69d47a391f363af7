import ClauseForm.Proofs.Run

/-! Clauses say no less than the formulas that they come from. -/

namespace ClauseForm

/--
Where a run succeeds, all formulas are true in every structure that makes all clauses true. This
holds for open formulas as well, and for any settings, times and sink.
-/
theorem normalize_sound {config : Config} {clock : Clock} {formulas : List Formula}
    {symbols : SymbolTable} {sink : Sink} {result : Normalized}
    (known : ∀ f ∈ formulas, f.Known symbols)
    (succeeded : (normalize config clock formulas symbols sink).result = .ok result)
    (m : Structure) (satisfied : ∀ c ∈ result.clauses, c.TrueIn m) :
    ∀ f ∈ formulas, f.TrueIn m := by
  -- The clauses are those of what the stages have made, and each stage says no less than before.
  obtain ⟨extracted, made⟩ := normalize_ok succeeded
  have last : ∀ g ∈ result.formulas, g.TrueIn m :=
    (Formula.trueIn_extractClauses extracted).mp satisfied
  have same : result.formulas =
      (Draft.afterFirst config.prenexOrder { formulas, symbols } 8).formulas :=
    congrArg Draft.formulas made
  rw [same] at last
  exact Draft.trueIn_of_afterFirst known (by decide) last

section Numbers

/-- Two variables and a relation between elements. -/
def comparisonSymbols : SymbolTable :=
  (((SymbolTable.empty.intern .var "x").2.intern .var "y").2.intern .pred "less").2

/-- The relation of the first variable to the second. -/
def less (x y : Variable) : Formula :=
  .atom { predicate := { id := 0, arity := 2 }, args := [.var x, .var y] }

/-- Every element has one above it. -/
def unbounded : Formula := .quantified .universal ⟨0⟩ (.quantified .existential ⟨1⟩ (less ⟨0⟩ ⟨1⟩))

/-- The natural numbers in their order, where every function finds a number above its argument. -/
def naturals : Structure where
  Domain := Nat
  inhabited := ⟨0⟩
  constant _ := 0
  function _ args := args.foldr (· + ·) 1
  predicate _ args := args.Pairwise (· < ·)

/-- The only clause of this formula relates each element to its image under a new function. -/
def unboundedClause : Clause where
  literals := [{ positive := true, atom := {
    predicate := { id := 0, arity := 2 }
    args := [.var ⟨0⟩, .app { id := 0, arity := 1 } [.var ⟨0⟩]] } }]

/-- A clause with a Skolem function holds of the numbers, and so does what it was made of. -/
theorem normalize_sound_naturals : ∃ result,
    (normalize { prenexOrder := .preserve } (.still 0) [unbounded] comparisonSymbols
      .discarding).result = .ok result ∧
    (∀ c ∈ result.clauses, c.TrueIn naturals) ∧ ∀ f ∈ [unbounded], f.TrueIn naturals := by
  -- The only clause is known by computation.
  have made : (normalize { prenexOrder := .preserve } (.still 0) [unbounded] comparisonSymbols
      .discarding).result.toOption.any (·.clauses = [unboundedClause]) = true := by
    decide +kernel
  obtain ⟨result, succeeded, checked⟩ := exists_ok_of_any made
  have known : ∀ f ∈ [unbounded], f.Known comparisonSymbols := by decide +kernel
  have satisfied : ∀ c ∈ result.clauses, c.TrueIn naturals := by
    rw [of_decide_eq_true checked, List.forall_mem_singleton]
    intro (values : Variable → Nat)
    -- A number is less than its successor.
    refine ⟨_, List.mem_singleton_self _, ?_⟩
    show [values ⟨0⟩, [values ⟨0⟩].foldr (· + ·) 1].Pairwise (· < ·)
    simp
  exact ⟨result, succeeded, satisfied, normalize_sound known succeeded naturals satisfied⟩

end Numbers

end ClauseForm
