import ClauseForm.Proofs.Alpha
import ClauseForm.Proofs.Soundness

/-! Standardizing changes bound variables only, and only those that are taken at their turn. -/

namespace ClauseForm

namespace Naming

/-- Settles quantifiers one after the other, and lists the variables that they have then. -/
def settleAll (claims : Quantifier → Bool) :
    Naming → List (Quantifier × Variable) → List Variable × Naming
  | naming, [] => ([], naming)
  | naming, (q, x) :: bs =>
    let (y, naming) := naming.settle claims q x
    let (ys, naming) := naming.settleAll claims bs
    (y :: ys, naming)

section Order

variable (claims : Quantifier → Bool)

/-- The first quantifier is settled first, and the others after it. -/
theorem settleAll_cons (naming : Naming) (q : Quantifier) (x : Variable)
    (bs : List (Quantifier × Variable)) :
    naming.settleAll claims ((q, x) :: bs) =
      ((naming.settle claims q x).1 :: ((naming.settle claims q x).2.settleAll claims bs).1,
        ((naming.settle claims q x).2.settleAll claims bs).2) := rfl

/-- Later quantifiers are settled with what the earlier ones have left behind. -/
theorem settleAll_append (naming : Naming) (bs cs : List (Quantifier × Variable)) :
    naming.settleAll claims (bs ++ cs) =
      ((naming.settleAll claims bs).1 ++ ((naming.settleAll claims bs).2.settleAll claims cs).1,
        ((naming.settleAll claims bs).2.settleAll claims cs).2) := by
  -- Nothing but the naming passes from one part to the other.
  induction bs generalizing naming with
  | nil => rfl
  | cons b bs ih =>
    obtain ⟨q, x⟩ := b
    rw [List.cons_append, settleAll_cons, ih, settleAll_cons, List.cons_append]

/-- A walk settles the quantifiers of a formula, each before those of its scope. -/
theorem settleAll_binders (f : Formula) (names : Variable → Variable) (naming : Naming) :
    naming.settleAll claims f.binders =
      ((f.claimBinders claims names naming).1.boundVariables,
        (f.claimBinders claims names naming).2) := by
  -- The order of the walk is that of the quantifiers.
  induction f generalizing names naming with
  | atom a => rfl
  | not f ih => exact ih names naming
  | binary op l r left right =>
    rw [Formula.binders, settleAll_append, left names naming, right names,
      Formula.claimBinders_binary, Formula.bound_binary]
  | quantified q x f ih =>
    rw [Formula.binders, settleAll_cons, ih (assign names x (naming.settle claims q x).1),
      Formula.claimBinders_quantified, Formula.bound_quantified]

end Order

/-- A quantifier keeps the variable that it claims just if that one is not taken. -/
theorem claim_eq_iff {naming : Naming} (q : Quantifier) {x : Variable}
    (known : naming.symbols.Knows x) : (naming.claim q x).1 = x ↔ x ∉ naming.taken := by
  -- Only a claim to a variable that is taken gives out another one.
  rw [claim]
  split
  · rename_i taken
    -- The new variable was unknown, and so it is not the one asked for.
    refine ⟨fun same => ?_, fun untaken => absurd taken untaken⟩
    exact absurd known (same ▸ naming.symbols.freshVariable_new.1)
  · rename_i untaken
    exact ⟨fun _ => untaken, fun _ => rfl⟩

/--
Where all quantifiers claim their variables, each keeps its own just if that one is neither taken
from the start nor given to a quantifier before it.
-/
theorem settleAll_eq_iff {naming : Naming} (sound : naming.Sound)
    {bs : List (Quantifier × Variable)} (known : ∀ b ∈ bs, naming.symbols.Knows b.2) {i : Nat}
    {x y : Variable} (old : (bs.map (·.2))[i]? = some x)
    (new : (naming.settleAll (fun _ => true) bs).1[i]? = some y) :
    y = x ↔ x ∉ naming.taken ∧ x ∉ (naming.settleAll (fun _ => true) bs).1.take i := by
  -- The place counts down to the quantifier, while its turn comes nearer.
  induction bs generalizing naming i with
  | nil => simp at old
  | cons b bs ih =>
    obtain ⟨q, z⟩ := b
    obtain ⟨here, later⟩ := List.forall_mem_cons.mp known
    have passes := settle_passes sound (fun _ => true) q here
    rw [settleAll_cons] at new ⊢
    cases i with
    | zero =>
      obtain rfl : z = x := Option.some.inj old
      obtain rfl : (naming.claim q z).1 = y := Option.some.inj new
      simpa using claim_eq_iff q here
    | succ i =>
      simp only [List.map_cons, List.getElem?_cons_succ] at old new
      rw [ih passes.sound (fun c member => passes.grows.knows (later c member)) old new,
        passes.taken]
      -- The variable settled on first is taken from then on.
      rw [if_pos rfl, List.mem_singleton, List.take_succ_cons, List.mem_cons, not_or, not_or]
      exact ⟨fun ⟨⟨first, untaken⟩, rest⟩ => ⟨untaken, first, rest⟩,
        fun ⟨untaken, first, rest⟩ => ⟨⟨first, untaken⟩, rest⟩⟩

end Naming

namespace Formula

/-- What standardizing makes of a formula and of the variables taken. -/
structure Standardizes (f : Formula) (before : Naming) (g : Formula) (after : Naming) : Prop where
  alpha : AlphaEquivalent (fun _ => true) f g
  equivalent : f.Equivalent g
  free : ∀ x, x ∈ g.freeVariables ↔ x ∈ f.freeVariables
  /-- No variable is bound twice. -/
  distinct : g.boundVariables.Nodup
  untaken : ∀ x ∈ g.boundVariables, x ∉ before.taken
  taken : ∀ x, x ∈ after.taken ↔ x ∈ before.taken ∨ x ∈ g.boundVariables
  length : g.boundVariables.length = f.boundVariables.length
  /-- A quantifier keeps its variable just if it is not taken when its turn comes. -/
  keeps : ∀ (i : Nat) (x y : Variable), f.boundVariables[i]? = some x →
    g.boundVariables[i]? = some y → (y = x ↔ x ∉ before.taken ∧ x ∉ g.boundVariables.take i)

variable {f : Formula}

/-- Known formulas are standardized, whatever known variables are taken. -/
theorem standardizeVariables_standardizes {naming : Naming} (known : f.Known naming.symbols)
    (sound : naming.Sound) :
    Standardizes f naming (f.standardizeVariables naming).1 (f.standardizeVariables naming).2 := by
  -- The walk changes bound variables only, and those that it claims are all different.
  have alpha : AlphaEquivalent (fun _ => true) f (f.standardizeVariables naming).1 :=
    alphaEquivalent_claimBinders _ known
  have passes := claimBinders_passes (fun _ => true) known sound id
  rw [claimedVariables_all] at passes
  have settled := naming.settleAll_binders (fun _ => true) f id
  have shape := f.sameShape_claimBinders (fun _ => true) id naming
  refine ⟨alpha, alpha.equivalent, fun x => alpha.free.symm, passes.distinct, passes.apart,
    fun x => (passes.taken x).trans or_comm, ?_, fun i x y old new => ?_⟩
  · -- Both formulas have the same quantifiers, if with other variables.
    have same := congrArg List.length shape.quantifiers
    simpa [quantifiers, boundVariables, standardizeVariables] using same.symm
  · have order := Naming.settleAll_eq_iff sound known.binders (i := i) (x := x) (y := y) old
    rw [settled] at order
    exact order new

/--
Standardizing a known formula changes bound variables only, each of which keeps its name just if it
is not taken at its turn. A formula standardized by itself binds none of its free variables either.
-/
theorem standardize_alpha {naming : Naming} (known : f.Known naming.symbols)
    (sound : naming.Sound) :
    Standardizes f naming (f.standardizeVariables naming).1 (f.standardizeVariables naming).2 ∧
      Standardizes f { taken := f.freeVariables, symbols := naming.symbols }
        (f.standardize naming.symbols).1 (f.standardize naming.symbols).2 ∧
      ∀ x ∈ (f.standardize naming.symbols).1.boundVariables,
        x ∉ (f.standardize naming.symbols).1.freeVariables :=
  ⟨standardizeVariables_standardizes known sound,
    standardizeVariables_standardizes known known.free, (standardize_apart known).unfree⟩

section Shadowing

/-- A table in which a name that the supply of variables would try is in use. -/
def overlapping : SymbolTable :=
  (((SymbolTable.empty.intern .var "x").2.intern .var "z1").2.intern .pred "less").2

/-- Three quantifiers over one variable below each other, and one over a variable free elsewhere. -/
def shadowing : Formula :=
  .and (.quantified .universal ⟨0⟩ (.and (less ⟨0⟩ ⟨1⟩) (.quantified .existential ⟨0⟩
    (.or (less ⟨0⟩ ⟨1⟩) (.quantified .universal ⟨0⟩ (less ⟨0⟩ ⟨0⟩))))))
    (.quantified .existential ⟨1⟩ (less ⟨1⟩ ⟨1⟩))

/-- With the first variable taken, all three of its quantifiers get names that are not in use. -/
theorem standardize_alpha_shadowing :
    (shadowing.standardizeVariables { taken := [⟨0⟩], symbols := overlapping }).1.boundVariables =
      [⟨2⟩, ⟨3⟩, ⟨4⟩, ⟨1⟩] ∧
    Standardizes shadowing { taken := [⟨0⟩], symbols := overlapping }
      (shadowing.standardizeVariables { taken := [⟨0⟩], symbols := overlapping }).1
      (shadowing.standardizeVariables { taken := [⟨0⟩], symbols := overlapping }).2 ∧
    ∀ x ∈ (shadowing.standardize overlapping).1.boundVariables,
      x ∉ (shadowing.standardize overlapping).1.freeVariables := by
  -- The free variable is taken at the start, and is known.
  have known : shadowing.Known overlapping := by decide +kernel
  have sound : Naming.Sound { taken := [⟨0⟩], symbols := overlapping } := by
    show ∀ x ∈ [(⟨0⟩ : Variable)], overlapping.Knows x
    decide +kernel
  have standardized := standardize_alpha known sound
  exact ⟨by decide +kernel, standardized.1, standardized.2.2⟩

end Shadowing

end Formula

end ClauseForm
