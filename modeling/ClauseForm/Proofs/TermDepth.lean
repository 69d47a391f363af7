import ClauseForm.Proofs.Instances

/-! Terms get deeper by one at most when formulas are turned into clauses. -/

namespace ClauseForm

/-- How deep the deepest term of some atoms is, zero where there is no term. -/
def deepest (as : List Atom) : Nat := ((as.flatMap Atom.args).map Term.depth).foldl max 0

section Deepest

variable {as bs : List Atom} {bound k : Nat}

/-- No term is deeper than the deepest one. -/
theorem deepest_le_iff : deepest as ≤ bound ↔ ∀ a ∈ as, ∀ t ∈ a.args, t.depth ≤ bound := by
  rw [deepest, foldl_max_le_iff, List.forall_mem_map, List.forall_mem_flatMap]
  simp

/-- The deepest clauses are those that have the deepest atoms. -/
theorem largest_depth (cs : List Clause) :
    Profile.largest Clause.depth cs = deepest (cs.flatMap Clause.atoms) := by
  -- A clause is as deep as its deepest atom.
  have clause (c : Clause) : c.depth = deepest c.atoms := by
    rw [Clause.depth, deepest, Clause.atoms, List.flatMap_map]
  -- Both are bounded by the same numbers.
  refine eq_of_forall_ge_iff fun bound => ?_
  rw [Profile.largest, foldl_max_le_iff, List.forall_mem_map, deepest_le_iff,
    List.forall_mem_flatMap]
  simp only [clause, deepest_le_iff, Nat.zero_le, true_and]

namespace Instances

variable (related : Instances k as bs)

include related

/-- Every term has an instance, which is at least as deep. -/
theorem le_deepest : deepest as ≤ deepest bs := by
  rw [deepest_le_iff]
  -- The atom that a term belongs to has an instance, of which no term is too deep.
  intro a listed t argument
  obtain ⟨b, inside, values, _, rfl⟩ := related.kept a listed
  have known := deepest_le_iff.mp le_rfl _ inside _ (List.mem_map_of_mem argument)
  exact (Term.depth_le_bind values t).trans known

/-- Every term is an instance, which is deeper at most by what is put in. -/
theorem deepest_le : deepest bs ≤ deepest as + k := by
  -- Every atom has been made from one, by values that are no deeper than allowed.
  rw [deepest_le_iff]
  intro b listed
  obtain ⟨a, inside, values, shallow, rfl⟩ := related.made b listed
  refine List.forall_mem_map.mpr fun t argument => ?_
  have known := deepest_le_iff.mp le_rfl a inside t argument
  exact (Term.depth_bind_le shallow t).trans (Nat.add_le_add_right known k)

end Instances

end Deepest

section Functions

/-- A term that is not deep has no function symbol in it. -/
theorem Term.Within.depth_pos {g : FunctionSymbol} {args : List Term} {t : Term}
    (inside : (Term.app g args).Within t) : 0 < t.depth := by
  -- An application is never as shallow as a variable or a constant.
  cases inside with
  | self => exact (Term.depth_app_le_iff.mp le_rfl).1
  | argument => exact (Term.depth_app_le_iff.mp le_rfl).1

/-- An instance with variables and constants put in has no function symbol but those of the atom. -/
theorem Atom.Instance.exists_of_contains {a b : Atom} {g : FunctionSymbol} {args : List Term}
    (related : a.Instance 0 b) (contains : b.Contains (.app g args)) :
    ∃ args', a.Contains (.app g args') := by
  obtain ⟨values, shallow, rfl⟩ := related
  obtain ⟨s, listed, inside⟩ := contains
  -- The argument comes from one of the atom that the values have been put into.
  obtain ⟨t, argument, rfl⟩ := List.mem_map.mp listed
  -- What is put in for a variable has no function symbol.
  have plain (x : Variable) : ¬ (Term.app g args).Within (values x) := fun within =>
    Nat.not_lt_of_le (shallow x) within.depth_pos
  rcases inside.exists_of_bind with ⟨u, part, same⟩ | ⟨x, _, within⟩
  -- What is no variable has the function symbol in the atom itself.
  · cases u with
    | var x =>
      have value : values x = .app g args := same.symm
      exact absurd (value ▸ .self _) (plain x)
    | const c => cases same
    | app g' args' =>
      rw [Term.bind_app] at same
      obtain ⟨rfl, _⟩ := Term.app.inj same
      exact ⟨args', t, argument, part⟩
  · exact absurd within (plain x)

end Functions

section Whole

variable {config : Config} {clock : Clock} {formulas : List Formula} {symbols : SymbolTable}
  {sink : Sink} {result : Normalized}

/--
Where existential quantifiers come first, the deepest clauses are as deep as the deepest atoms of
the formulas, and have no other function symbols. Where the order of quantifiers is kept, they may
be deeper by one.
-/
theorem normalize_depth (known : ∀ f ∈ formulas, f.Known symbols)
    (succeeded : (normalize config clock formulas symbols sink).result = .ok result) :
    (config.prenexOrder = .existentialsFirst →
      Profile.largest Clause.depth result.clauses = deepest (formulas.flatMap Formula.atoms) ∧
      ∀ c ∈ result.clauses, ∀ (g : FunctionSymbol) (args : List Term),
        c.Contains (.app g args) → ∃ f ∈ formulas, ∃ args', f.Contains (.app g args')) ∧
    (config.prenexOrder = .preserve →
      Profile.largest Clause.depth result.clauses = deepest (formulas.flatMap Formula.atoms) ∨
      Profile.largest Clause.depth result.clauses =
        deepest (formulas.flatMap Formula.atoms) + 1) := by
  -- The clauses are over instances of the atoms, deeper at most by what the order allows.
  have related := instances_clauses known succeeded
  have least := related.le_deepest
  have most := related.deepest_le
  rw [largest_depth]
  refine ⟨fun order => ⟨?_, fun c listed g args contains => ?_⟩, fun order => ?_⟩
  · rw [order] at most
    -- With constants put in, nothing gets deeper.
    exact Nat.le_antisymm most least
  · -- A function symbol of a clause is one of the atom that the clause comes from.
    rw [order] at related
    obtain ⟨l, part, inside⟩ := contains
    have listed : l.atom ∈ result.clauses.flatMap Clause.atoms :=
      List.mem_flatMap.mpr ⟨c, listed, List.mem_map_of_mem part⟩
    obtain ⟨a, source, made⟩ := related.made l.atom listed
    obtain ⟨f, member, atom⟩ := List.mem_flatMap.mp source
    obtain ⟨args', found⟩ := made.exists_of_contains inside
    exact ⟨f, member, args', a, atom, found⟩
  · rw [order] at most
    -- Witnesses that depend on variables have depth one.
    have most : deepest (result.clauses.flatMap Clause.atoms) ≤
      deepest (formulas.flatMap Formula.atoms) + 1 := most
    omega

end Whole

section Numbers

/-- Two variables, the next number, and a relation between numbers. -/
def successionSymbols : SymbolTable := (comparisonSymbols.intern .func "next").2

/-- Every number is below one that comes next after some number. -/
def belowNext : Formula :=
  .quantified .universal ⟨0⟩ (.quantified .existential ⟨1⟩ (.atom
    { predicate := { id := 0, arity := 2 }
      args := [.var ⟨0⟩, .app { id := 0, arity := 1 } [.var ⟨1⟩]] }))

/-- A function of the first number comes to lie in the other one, unless a constant is enough. -/
theorem normalize_depth_belowNext :
    (∃ result, (normalize { prenexOrder := .preserve } (.still 0) [belowNext] successionSymbols
      .discarding).result = .ok result ∧ Profile.largest Clause.depth result.clauses = 2) ∧
    ∃ result, (normalize {} (.still 0) [belowNext] successionSymbols .discarding).result =
      .ok result ∧ Profile.largest Clause.depth result.clauses = 1 := by
  -- The deepest term of the formula is the successor of a variable.
  have known : ∀ f ∈ [belowNext], f.Known successionSymbols := by decide +kernel
  have one : deepest ([belowNext].flatMap Formula.atoms) = 1 := by decide
  constructor
  · have made : (normalize { prenexOrder := .preserve } (.still 0) [belowNext] successionSymbols
        .discarding).result.toOption.any
          (fun result => Profile.largest Clause.depth result.clauses ≠ 1) = true := by
      decide +kernel
    obtain ⟨result, succeeded, deeper⟩ := exists_ok_of_any made
    refine ⟨result, succeeded, ?_⟩
    -- The computed depth excludes one of the two cases.
    rcases (normalize_depth known succeeded).2 rfl with same | more
    · exact absurd (same.trans one) (of_decide_eq_true deeper)
    · rw [more, one]
  · have made : (normalize {} (.still 0) [belowNext] successionSymbols
        .discarding).result.toOption.any (fun _ => true) = true := by
      decide +kernel
    obtain ⟨result, succeeded, _⟩ := exists_ok_of_any made
    exact ⟨result, succeeded, ((normalize_depth known succeeded).1 rfl).1.trans one⟩

end Numbers

end ClauseForm
