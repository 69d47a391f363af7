import ClauseForm.Proofs.Profiles
import ClauseForm.Proofs.Soundness

/-! Tautologies are exactly the clauses that hold in every structure, and a run counts these. -/

namespace ClauseForm

/-- The structure whose elements are terms, each of which stands for itself, with chosen truths. -/
abbrev Structure.ofTerms (truths : Atom → Prop) : Structure where
  Domain := Term
  inhabited := ⟨.const ⟨0⟩⟩
  constant := .const
  function := .app
  predicate p args := truths { predicate := p, args }

section Terms

variable (truths : Atom → Prop)

/-- Where variables stand for themselves too, so does every term. -/
theorem Term.value_ofTerms (t : Term) : t.value (.ofTerms truths) .var = t := by
  induction t with
  | var x => rfl
  | const c => rfl
  | app f args ih =>
    -- The arguments stand for themselves, and the function puts its symbol in front of them.
    have same : args.map (value (.ofTerms truths) .var) = args :=
      (List.map_congr_left ih).trans (List.map_id' args)
    rw [value_app, same]

/-- Atoms are true among terms just if they are chosen to be. -/
theorem Atom.holds_ofTerms (a : Atom) : a.Holds (.ofTerms truths) .var ↔ truths a := by
  -- Each argument stands for itself.
  have same : a.args.map (Term.value (.ofTerms truths) .var) = a.args :=
    List.map_id'' (Term.value_ofTerms truths) a.args
  rw [Holds, same]

end Terms

section Literals

variable {m : Structure} {values : Variable → m.Domain} {l other : Literal}

/-- A literal that affirms is true with its atom. -/
theorem Literal.holds_of_positive (positive : l.positive = true) :
    l.Holds m values ↔ l.atom.Holds m values := by
  rw [Holds, if_pos positive]

/-- A literal that denies is true where its atom is not. -/
theorem Literal.holds_of_negative (negative : l.positive = false) :
    l.Holds m values ↔ ¬ l.atom.Holds m values := by
  rw [Holds, negative, if_neg Bool.false_ne_true]

/-- Of a literal and its complement just one is true. -/
theorem Literal.holds_complement : l.complement.Holds m values ↔ ¬ l.Holds m values := by
  -- One of both affirms the atom, and the other one denies it.
  cases sign : l.positive with
  | true =>
    have denies : l.complement.positive = false := by simp [complement, sign]
    rw [holds_of_positive sign, holds_of_negative denies]
    rfl
  | false =>
    have affirms : l.complement.positive = true := by simp [complement, sign]
    rw [holds_of_negative sign, holds_of_positive affirms, Classical.not_not]
    rfl

/-- Literals over one atom with different signs are complements. -/
theorem Literal.eq_complement (atom : other.atom = l.atom) (sign : other.positive ≠ l.positive) :
    other = l.complement := by
  -- There are only two signs.
  obtain ⟨positive, a⟩ := other
  obtain rfl : a = l.atom := atom
  exact congrArg (Literal.mk · l.atom) (Bool.eq_not_of_ne sign)

end Literals

namespace Clause

variable {c : Clause}

/-- A valid clause holds in every structure, whatever its variables stand for. -/
def Valid (c : Clause) : Prop := ∀ m, c.TrueIn m

/-- A tautology holds a literal together with its complement. -/
theorem isTautology_iff_exists :
    c.isTautology = true ↔ ∃ l ∈ c.literals, l.complement ∈ c.literals := by
  simp [isTautology]

/-- A tautology holds everywhere, because one of two complements does. -/
theorem valid_of_isTautology (tautology : c.isTautology = true) : c.Valid := by
  obtain ⟨l, listed, opposite⟩ := isTautology_iff_exists.mp tautology
  -- The literal is true or its complement is, whatever the structure.
  intro m values
  by_cases holds : l.Holds m values
  · exact ⟨l, listed, holds⟩
  · exact ⟨l.complement, opposite, Literal.holds_complement.mpr holds⟩

/-- The atoms that a clause denies. -/
def Denies (c : Clause) (a : Atom) : Prop := ∃ l ∈ c.literals, l.positive = false ∧ l.atom = a

/-- A clause that is no tautology fails among terms where just the atoms that it denies are true. -/
theorem isTautology_of_holds_ofTerms (holds : c.Holds (.ofTerms c.Denies) .var) :
    c.isTautology = true := by
  obtain ⟨l, listed, holds⟩ := holds
  -- A literal that denies its atom would make this one true, and so be false itself.
  have affirms : l.positive = true := by
    by_contra denies
    have negative : l.positive = false := Bool.eq_false_of_not_eq_true denies
    rw [Literal.holds_of_negative negative, Atom.holds_ofTerms] at holds
    exact holds ⟨l, listed, negative, rfl⟩
  rw [Literal.holds_of_positive affirms, Atom.holds_ofTerms] at holds
  -- A literal that affirms its atom is true only because the clause denies that atom as well.
  obtain ⟨other, opposite, negative, atom⟩ := holds
  have complement : other = l.complement := Literal.eq_complement atom (by simp [negative, affirms])
  exact isTautology_iff_exists.mpr ⟨l, listed, complement ▸ opposite⟩

/-- Just the tautologies are valid. -/
theorem isTautology_iff_valid : c.isTautology = true ↔ c.Valid :=
  ⟨valid_of_isTautology, fun valid => isTautology_of_holds_ofTerms (valid _ _)⟩

instance : DecidablePred Valid := fun _ => decidable_of_iff _ isTautology_iff_valid

end Clause

/--
Tautologies are exactly the clauses that hold in every structure under every assignment. What a run
counts as tautologies is therefore how many of its clauses are valid.
-/
theorem tautologies_valid :
    (∀ c : Clause, c.isTautology = true ↔
      ∀ (m : Structure) (values : Variable → m.Domain), c.Holds m values) ∧
    ∀ (config : Config) (clock : Clock) (formulas : List Formula) (symbols : SymbolTable)
      (sink : Sink) (result : Normalized), config.profiling = true →
      (normalize config clock formulas symbols sink).result = .ok result →
      ∃ profile, result.profile = some profile ∧
        profile.tautologies = result.clauses.countP fun c => c.Valid := by
  refine ⟨fun c => Clause.isTautology_iff_valid,
    fun config clock formulas symbols sink result counting succeeded => ?_⟩
  obtain ⟨counts, shown, _⟩ := exists_profile succeeded counting
  refine ⟨_, shown, ?_⟩
  -- The profile counts tautologies, which are the valid clauses.
  show result.clauses.countP Clause.isTautology = _
  refine List.countP_congr fun c _ => ?_
  rw [decide_eq_true_iff, Clause.isTautology_iff_valid]

section Numbers

/-- Every element is below some element, which it is below or not. -/
def belowOrNot : Formula :=
  .quantified .universal ⟨0⟩ (.quantified .existential ⟨1⟩
    (.and (.or (less ⟨0⟩ ⟨1⟩) (.not (less ⟨0⟩ ⟨1⟩))) (less ⟨0⟩ ⟨1⟩)))

/-- Of the two clauses of this formula one is counted as a tautology, and just one is valid. -/
theorem tautologies_valid_belowOrNot : ∃ result profile,
    (normalize { prenexOrder := .preserve, profiling := true } (.still 0) [belowOrNot]
      comparisonSymbols .discarding).result = .ok result ∧
    result.profile = some profile ∧ profile.clauses = 2 ∧ profile.tautologies = 1 ∧
    (result.clauses.countP fun c => c.Valid) = 1 := by
  -- The whole run is computed once, and only the validity is taken from the theorem.
  have made : (normalize { prenexOrder := .preserve, profiling := true } (.still 0) [belowOrNot]
      comparisonSymbols .discarding).result.toOption.any (fun result => result.profile.any
        fun profile => profile.clauses = 2 ∧ profile.tautologies = 1) = true := by
    decide +kernel
  obtain ⟨result, succeeded, counts⟩ := exists_ok_of_any made
  obtain ⟨profile, shown, valid⟩ := tautologies_valid.2 _ _ _ _ _ result rfl succeeded
  rw [shown, Option.any_some, decide_eq_true_iff] at counts
  exact ⟨result, profile, succeeded, shown, counts.1, counts.2, valid ▸ counts.2⟩

end Numbers

end ClauseForm
