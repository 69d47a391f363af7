import ClauseForm.Formula

/-! Implications are written out, and negations are moved down to the atoms. -/

namespace ClauseForm.Formula

/-- Writes implications and equivalences with the other connectives. -/
def eliminateImplications : Formula → Formula
  | .atom a => .atom a
  | .not f => .not f.eliminateImplications
  | .and l r => .and l.eliminateImplications r.eliminateImplications
  | .or l r => .or l.eliminateImplications r.eliminateImplications
  | .implies l r => .or (.not l.eliminateImplications) r.eliminateImplications
  | .iff l r =>
    let l := l.eliminateImplications
    let r := r.eliminateImplications
    .and (.or (.not l) r) (.or l (.not r))
  | .quantified q x f => .quantified q x f.eliminateImplications

/--
Negation normal form of a formula, or of its negation where the sign is negative. Implications and
equivalences are read as what they are written out to.
-/
def signed (positive : Bool) : Formula → Formula
  | .atom a => if positive then .atom a else .not (.atom a)
  | .not f => f.signed (!positive)
  | .and l r =>
    if positive then .and (l.signed true) (r.signed true)
    else .or (l.signed false) (r.signed false)
  | .or l r =>
    if positive then .or (l.signed true) (r.signed true)
    else .and (l.signed false) (r.signed false)
  | .implies l r =>
    if positive then .or (l.signed false) (r.signed true)
    else .and (l.signed true) (r.signed false)
  | .iff l r =>
    if positive then
      .and (.or (l.signed false) (r.signed true)) (.or (l.signed true) (r.signed false))
    else .or (.and (l.signed true) (r.signed false)) (.and (l.signed false) (r.signed true))
  | .quantified q x f => .quantified (if positive then q else q.dual) x (f.signed positive)

/-- Moves negations down to the atoms. -/
def pushNegation (f : Formula) : Formula := f.signed true

/-- Moving negations inwards reads implications as what they are written out to. -/
theorem signed_eliminateImplications (f : Formula) (positive : Bool) :
    f.eliminateImplications.signed positive = f.signed positive := by
  -- Both signs are needed at once, because a negation changes them.
  induction f generalizing positive with
  | atom a => rfl
  | not f ih => exact ih (!positive)
  | binary op l r left right =>
    cases op <;> cases positive <;> simp [eliminateImplications, signed, left, right]
  | quantified q x f ih => simp [eliminateImplications, signed, ih]

end ClauseForm.Formula
