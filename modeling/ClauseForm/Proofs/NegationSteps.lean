import ClauseForm.Proofs.Negation

/-! Moving negations inwards comes to an end, even where implications are written out on the way. -/

namespace ClauseForm.Formula

/--
Moving negations inwards call by call, with the sign of the formula and what the call returns. An
implication or equivalence that is met is written out, and the formula that this makes is entered
in its place.
-/
inductive PushesTo : Bool → Formula → Formula → Prop
  | affirmed (a : Atom) : PushesTo true (.atom a) (.atom a)
  | denied (a : Atom) : PushesTo false (.atom a) (.not (.atom a))
  | not {sign : Bool} {f g : Formula} : PushesTo (!sign) f g → PushesTo sign (.not f) g
  | and {l r l' r' : Formula} :
    PushesTo true l l' → PushesTo true r r' → PushesTo true (.and l r) (.and l' r')
  | notAnd {l r l' r' : Formula} :
    PushesTo false l l' → PushesTo false r r' → PushesTo false (.and l r) (.or l' r')
  | or {l r l' r' : Formula} :
    PushesTo true l l' → PushesTo true r r' → PushesTo true (.or l r) (.or l' r')
  | notOr {l r l' r' : Formula} :
    PushesTo false l l' → PushesTo false r r' → PushesTo false (.or l r) (.and l' r')
  | implies {sign : Bool} {l r g : Formula} :
    PushesTo sign (implies l r).eliminateImplications g → PushesTo sign (.implies l r) g
  | iff {sign : Bool} {l r g : Formula} :
    PushesTo sign (iff l r).eliminateImplications g → PushesTo sign (.iff l r) g
  | quantified {sign : Bool} (q : Quantifier) (x : Variable) {f g : Formula} :
    PushesTo sign f g →
      PushesTo sign (.quantified q x f) (.quantified (if sign then q else q.dual) x g)

variable {f g : Formula}

/-- Where no implication is left, the calls follow the formula and return its signed form. -/
theorem pushesTo_of_isImplicationFree (free : f.isImplicationFree = true) (sign : Bool) :
    PushesTo sign f (f.signed sign) := by
  -- The sign of each part follows from that of the whole.
  induction f generalizing sign with
  | atom a =>
    cases sign with
    | true => exact .affirmed a
    | false => exact .denied a
  | not f ih => exact .not (ih free (!sign))
  | binary op l r left right =>
    cases op <;> simp only [isImplicationFree, Bool.and_eq_true, Bool.false_eq_true] at free
    -- A negative sign exchanges conjunction and disjunction.
    · cases sign with
      | true => exact .and (left free.1 true) (right free.2 true)
      | false => exact .notAnd (left free.1 false) (right free.2 false)
    · cases sign with
      | true => exact .or (left free.1 true) (right free.2 true)
      | false => exact .notOr (left free.1 false) (right free.2 false)
  | quantified q x f ih => exact .quantified q x (ih free sign)

/-- The calls come to an end on every formula, with its signed form. -/
theorem pushesTo_signed (f : Formula) (sign : Bool) : PushesTo sign f (f.signed sign) := by
  -- The form with implications written out is treated by the lemma before.
  induction f generalizing sign with
  | atom a => exact pushesTo_of_isImplicationFree rfl sign
  | not f ih => exact .not (ih (!sign))
  | binary op l r left right =>
    -- What an implication has been written out to is no part of it, but has none left.
    have entered : PushesTo sign (binary op l r).eliminateImplications
        ((binary op l r).signed sign) := by
      rw [← signed_eliminateImplications]
      exact pushesTo_of_isImplicationFree (isImplicationFree_eliminateImplications _) sign
    cases op with
    | and =>
      cases sign with
      | true => exact .and (left true) (right true)
      | false => exact .notAnd (left false) (right false)
    | or =>
      cases sign with
      | true => exact .or (left true) (right true)
      | false => exact .notOr (left false) (right false)
    | implies => exact .implies entered
    | iff => exact .iff entered
  | quantified q x f ih => exact .quantified q x (ih sign)

/-- The calls return nothing but the signed form. -/
theorem PushesTo.eq_signed {sign : Bool} (pushes : PushesTo sign f g) : g = f.signed sign := by
  -- The induction is on the calls.
  induction pushes with
  | affirmed a | denied a => rfl
  | not _ ih => exact ih
  | and _ _ left right | notAnd _ _ left right | or _ _ left right | notOr _ _ left right =>
    rw [left, right]
    rfl
  | implies _ ih | iff _ ih => rw [ih, signed_eliminateImplications]
  | quantified q x _ ih =>
    rw [ih]
    rfl

/--
The first two stages keep the meaning and the free variables of every formula. The first leaves no
implication. The second comes to an end on every formula, returns one in negation normal form, and
makes no difference between a formula and what the first has made of it.
-/
theorem pushNegation_faithful (f : Formula) :
    (f.eliminateImplications.Equivalent f ∧ f.pushNegation.Equivalent f) ∧
    (∀ z, (z ∈ f.eliminateImplications.freeVariables ↔ z ∈ f.freeVariables) ∧
      (z ∈ f.pushNegation.freeVariables ↔ z ∈ f.freeVariables)) ∧
    f.eliminateImplications.isImplicationFree = true ∧
    (∀ g, PushesTo true f g ↔ g = f.pushNegation) ∧
    f.pushNegation.isNegationNormal = true ∧
    f.eliminateImplications.pushNegation = f.pushNegation := by
  refine ⟨⟨eliminateImplications_equivalent f, pushNegation_equivalent f⟩,
    fun z => ⟨mem_free_eliminateImplications, mem_free_signed true⟩,
    isImplicationFree_eliminateImplications f, fun g => ⟨PushesTo.eq_signed, ?_⟩,
    isNegationNormal_pushNegation f, signed_eliminateImplications f true⟩
  -- The calls return one formula, and they do return it.
  rintro rfl
  exact pushesTo_signed f true

end ClauseForm.Formula
