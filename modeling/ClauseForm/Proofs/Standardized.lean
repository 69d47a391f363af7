import ClauseForm.Proofs.NormalForm
import ClauseForm.Proofs.Semantics
import ClauseForm.Standardized

/-! Renamed formulas mean the same, and the variables that quantifiers claim are all different. -/

namespace ClauseForm

namespace Naming

/-- Every variable that is taken has been given out. -/
def Sound (naming : Naming) : Prop := ∀ x ∈ naming.taken, naming.symbols.Knows x

/-- What becomes of a naming while the variables listed are claimed one after the other. -/
structure Passes (before after : Naming) (claimed : List Variable) : Prop where
  grows : before.symbols.Grows after.symbols
  taken : ∀ x, x ∈ after.taken ↔ x ∈ claimed ∨ x ∈ before.taken
  distinct : claimed.Nodup
  apart : ∀ x ∈ claimed, x ∉ before.taken
  sound : after.Sound

/-- Where nothing is claimed, nothing happens. -/
theorem Passes.refl {naming : Naming} (sound : naming.Sound) : naming.Passes naming [] :=
  ⟨.refl _, by simp, by simp, by simp, sound⟩

/-- Variables claimed later differ from those claimed earlier, which are taken by then. -/
theorem Passes.trans {a b c : Naming} {xs ys : List Variable} (first : a.Passes b xs)
    (second : b.Passes c ys) : a.Passes c (xs ++ ys) := by
  -- What is claimed later differs from all that was taken before.
  refine ⟨first.grows.trans second.grows, fun x => ?_, ?_, fun x claimed taken => ?_, second.sound⟩
  · rw [second.taken, first.taken, List.mem_append]
    exact or_left_comm.trans or_assoc.symm
  · rw [List.nodup_append]
    refine ⟨first.distinct, second.distinct, ?_⟩
    rintro x early y late rfl
    exact second.apart x late ((first.taken x).mpr (Or.inl early))
  · rcases List.mem_append.mp claimed with early | late
    · exact first.apart x early taken
    · exact second.apart x late ((first.taken x).mpr (Or.inr taken))

/-- A claim passes on with one more variable taken, which is the one asked for or a new one. -/
theorem claim_passes {naming : Naming} (sound : naming.Sound) (q : Quantifier) {x : Variable}
    (known : naming.symbols.Knows x) :
    naming.Passes (naming.claim q x).2 [(naming.claim q x).1] := by
  -- Either the variable is taken, and a new one is given out, or it becomes taken.
  rw [claim]
  split
  · -- A new variable is not taken, because everything taken has been given out before.
    have new := naming.symbols.freshVariable_new
    have grows := naming.symbols.grows_freshVariable
    refine ⟨grows, by simp, by simp, ?_, ?_⟩
    · simp only [List.mem_singleton, forall_eq]
      exact fun taken => new.1 (sound _ taken)
    · intro y member
      rcases List.mem_cons.mp member with rfl | member
      · exact new.2
      · exact grows.knows (sound y member)
  · rename_i untaken
    refine ⟨.refl _, by simp, by simp, by simpa using untaken, ?_⟩
    intro y member
    rcases List.mem_cons.mp member with rfl | member
    · exact known
    · exact sound y member

/-- A settled quantifier adds its variable to those taken if it claims one. -/
theorem settle_passes {naming : Naming} (sound : naming.Sound) (claims : Quantifier → Bool)
    (q : Quantifier) {x : Variable} (known : naming.symbols.Knows x) :
    naming.Passes (naming.settle claims q x).2
      (if claims q then [(naming.settle claims q x).1] else []) := by
  -- A quantifier that claims no variable takes none.
  rw [settle]
  split
  · exact claim_passes sound q known
  · exact .refl sound

/-- Settling a quantifier keeps the name of every symbol. -/
theorem settle_grows (naming : Naming) (claims : Quantifier → Bool) (q : Quantifier)
    (x : Variable) : naming.symbols.Grows (naming.settle claims q x).2.symbols := by
  -- The table changes only if a new variable is made.
  rw [settle, claim]
  split
  · split
    · exact naming.symbols.grows_freshVariable
    · exact .refl _
  · exact .refl _

/-- A settled quantifier has the variable it had or a new one. -/
theorem settle_variable (naming : Naming) (claims : Quantifier → Bool) (q : Quantifier)
    (x : Variable) :
    (naming.settle claims q x).1 = x ∨
      naming.symbols.New (naming.settle claims q x).2.symbols (naming.settle claims q x).1 := by
  -- Only a claim to a variable that is taken gives out a new one.
  rw [settle, claim]
  split
  · split
    · exact Or.inr naming.symbols.freshVariable_new
    · exact Or.inl rfl
  · exact Or.inl rfl

end Naming

/-- Renamings that change a variable only to one given out since an earlier state of the table. -/
def RenamesSince (base current : SymbolTable) (names : Variable → Variable) : Prop :=
  ∀ x, names x = x ∨ base.New current (names x)

namespace RenamesSince

variable {base : SymbolTable} {naming : Naming} {names : Variable → Variable}

/-- Leaving every variable as it is changes none. -/
theorem id : RenamesSince base base id := fun _ => Or.inl rfl

/-- What was given out before the table grew further has still been given out. -/
theorem grows {current after : SymbolTable} (renames : RenamesSince base current names)
    (grows : current.Grows after) : RenamesSince base after names :=
  fun x => (renames x).imp_right fun new => new.later grows

/-- Below a settled quantifier its variable is renamed as well. -/
theorem settle (renames : RenamesSince base naming.symbols names) (past : base.Grows naming.symbols)
    (claims : Quantifier → Bool) (q : Quantifier) (x : Variable) :
    RenamesSince base (naming.settle claims q x).2.symbols
      (assign names x (naming.settle claims q x).1) := by
  -- The variable of the quantifier stays or is new, and all others are renamed as before.
  intro z
  by_cases same : z = x
  · subst same
    rw [assign_same]
    exact (naming.settle_variable claims q z).imp_right fun new => new.earlier past
  · rw [assign_of_ne same]
    exact renames.grows (naming.settle_grows claims q x) z

/-- A settled quantifier captures no other variable of the formula. -/
theorem uncaptured (renames : RenamesSince base naming.symbols names)
    (past : base.Grows naming.symbols) (claims : Quantifier → Bool) (q : Quantifier)
    {x z : Variable} (bound : base.Knows x) (free : base.Knows z) (different : z ≠ x) :
    names z ≠ (naming.settle claims q x).1 := by
  -- Another variable of the formula is known and keeps its name or was renamed before.
  intro captured
  rcases naming.settle_variable claims q x with kept | new
  · -- The quantifier has its old variable, which is not given out anew to others.
    rw [kept] at captured
    rcases renames z with same | made
    · exact different (same.symm.trans captured)
    · exact made.1 (captured ▸ bound)
  · -- The quantifier has a new variable, and others were renamed before it was made.
    have known : naming.symbols.Knows (names z) := by
      rcases renames z with same | made
      · rw [same]
        exact past.knows free
      · exact made.2
    exact new.1 (captured ▸ known)

end RenamesSince

namespace Formula

section Walk

variable (claims : Quantifier → Bool)

/-- The walk visits the right side of a connective with what it left behind on the left side. -/
theorem claimBinders_binary (op : Connective) (l r : Formula) (names : Variable → Variable)
    (naming : Naming) :
    (binary op l r).claimBinders claims names naming =
      (.binary op (l.claimBinders claims names naming).1
        (r.claimBinders claims names (l.claimBinders claims names naming).2).1,
        (r.claimBinders claims names (l.claimBinders claims names naming).2).2) := rfl

/-- The walk visits the scope of a quantifier once the quantifier has its variable. -/
theorem claimBinders_quantified (q : Quantifier) (x : Variable) (f : Formula)
    (names : Variable → Variable) (naming : Naming) :
    (quantified q x f).claimBinders claims names naming =
      (.quantified q (naming.settle claims q x).1
        (f.claimBinders claims (assign names x (naming.settle claims q x).1)
          (naming.settle claims q x).2).1,
        (f.claimBinders claims (assign names x (naming.settle claims q x).1)
          (naming.settle claims q x).2).2) := rfl

/-- The walk keeps the name of every symbol. -/
theorem claimBinders_grows (f : Formula) (names : Variable → Variable) (naming : Naming) :
    naming.symbols.Grows (f.claimBinders claims names naming).2.symbols := by
  -- The table grows with each claim.
  induction f generalizing names naming with
  | atom a => exact .refl _
  | not f ih => exact ih names naming
  | binary op l r left right => exact (left names naming).trans (right names _)
  | quantified q x f ih => exact (naming.settle_grows claims q x).trans (ih _ _)

/-- The walk keeps the shape of the formula. -/
theorem sameShape_claimBinders (f : Formula) (names : Variable → Variable) (naming : Naming) :
    SameShape f (f.claimBinders claims names naming).1 := by
  -- A quantifier stays the quantifier that it was, over whatever variable.
  induction f generalizing names naming with
  | atom a => exact .atom _ _
  | not f ih => exact .not (ih names naming)
  | binary op l r left right => exact .binary op (left names naming) (right names _)
  | quantified q x f ih => exact .quantified q x _ (ih _ _)

/-- After the walk a quantifier has a variable that was bound before or is new. -/
theorem mem_bound_claimBinders (f : Formula) (names : Variable → Variable) (naming : Naming) :
    ∀ y ∈ (f.claimBinders claims names naming).1.boundVariables, y ∈ f.boundVariables ∨
      naming.symbols.New (f.claimBinders claims names naming).2.symbols y := by
  -- Each quantifier keeps its variable or takes the one that it claims.
  induction f generalizing names naming with
  | atom a => simp [claimBinders]
  | not f ih => exact ih names naming
  | binary op l r left right =>
    intro y bound
    rw [claimBinders_binary] at bound ⊢
    rw [bound_binary, List.mem_append] at bound ⊢
    have past := l.claimBinders_grows claims names naming
    have future := r.claimBinders_grows claims names (l.claimBinders claims names naming).2
    rcases bound with bound | bound
    · exact (left names naming y bound).imp Or.inl fun new => new.later future
    · exact (right names _ y bound).imp Or.inr fun new => new.earlier past
  | quantified q x f ih =>
    intro y bound
    rw [claimBinders_quantified] at bound ⊢
    rw [bound_quantified, List.mem_cons] at bound ⊢
    have past := naming.settle_grows claims q x
    rcases bound with rfl | bound
    · exact (naming.settle_variable claims q x).imp Or.inl fun new =>
        new.later (f.claimBinders_grows claims _ _)
    · exact (ih _ _ y bound).imp Or.inr fun new => new.earlier past

/-- The walk keeps a formula known if free variables are renamed to known ones. -/
theorem Known.claimBinders {table : SymbolTable} {f : Formula} (known : f.Known table)
    {names : Variable → Variable} {naming : Naming} (past : table.Grows naming.symbols)
    (sources : ∀ x ∈ f.freeVariables, naming.symbols.Knows (names x)) :
    (f.claimBinders claims names naming).1.Known
      (f.claimBinders claims names naming).2.symbols := by
  -- Names in scope are known, and what a quantifier claims is known from then on.
  induction f generalizing names naming with
  | atom a =>
    refine Atom.Known.bind (Atom.Known.grows past known) fun x inside => ?_
    exact sources x (mem_free_atom.mpr inside)
  | not f ih => exact ih known past sources
  | binary op l r left right =>
    rw [claimBinders_binary]
    have grows := l.claimBinders_grows claims names naming
    have first := left known.1 past fun x inside => sources x (by simp [inside])
    have second := right known.2 (past.trans grows) fun x inside =>
      grows.knows (sources x (by simp [inside]))
    exact ⟨first.grows (r.claimBinders_grows claims _ _), second⟩
  | quantified q x f ih =>
    rw [claimBinders_quantified]
    have grows := naming.settle_grows claims q x
    have settled : (naming.settle claims q x).2.symbols.Knows (naming.settle claims q x).1 := by
      rcases naming.settle_variable claims q x with kept | new
      · rw [kept]
        exact (past.trans grows).knows known.1
      · exact new.2
    refine ⟨(f.claimBinders_grows claims _ _).knows settled, ih known.2 (past.trans grows) ?_⟩
    intro z inside
    by_cases same : z = x
    · rw [same, assign_same]
      exact settled
    · rw [assign_of_ne same]
      exact grows.knows (sources z (mem_free_quantified.mpr ⟨inside, same⟩))

/-- After the walk a formula says of values what it said of them under the old names. -/
theorem holds_claimBinders {m : Structure} {base : SymbolTable} {f : Formula}
    (known : f.Known base) {names : Variable → Variable} {naming : Naming}
    (past : base.Grows naming.symbols) (renames : RenamesSince base naming.symbols names)
    (values : Variable → m.Domain) :
    (f.claimBinders claims names naming).1.Holds m values ↔
      f.Holds m fun x => values (names x) := by
  -- The values of the new names are those of the old variables.
  induction f generalizing names naming values with
  | atom a => exact Atom.holds_bind _ a
  | not f ih => exact not_congr (ih known past renames values)
  | binary op l r left right =>
    have grows := l.claimBinders_grows claims names naming
    exact op.joins_congr (left known.1 past renames values)
      (right known.2 (past.trans grows) (renames.grows grows) values)
  | quantified q x f ih =>
    rw [claimBinders_quantified]
    refine q.ranges_congr fun d => ?_
    rw [ih known.2 (past.trans (naming.settle_grows claims q x)) (renames.settle past claims q x)]
    -- The variable of the quantifier has the value given to it, and no other one is captured.
    refine holds_congr fun z inside => ?_
    by_cases same : z = x
    · rw [same, assign_same, assign_same, assign_same]
    · rw [assign_of_ne same, assign_of_ne same, assign_of_ne]
      exact renames.uncaptured past claims q known.1 (known.2.free z inside) same

/-- After the walk the free variables are the old ones under their new names. -/
theorem mem_free_claimBinders {base : SymbolTable} {f : Formula} (known : f.Known base)
    {names : Variable → Variable} {naming : Naming} (past : base.Grows naming.symbols)
    (renames : RenamesSince base naming.symbols names) {y : Variable} :
    y ∈ (f.claimBinders claims names naming).1.freeVariables ↔
      ∃ z ∈ f.freeVariables, names z = y := by
  -- A quantifier binds the same occurrences under its new name.
  induction f generalizing names naming with
  | atom a =>
    rw [claimBinders, mem_free_atom, Atom.rename, Atom.mem_vars_bind]
    simp only [Term.vars_var, List.mem_singleton, mem_free_atom, eq_comm]
  | not f ih => exact ih known past renames
  | binary op l r left right =>
    have grows := l.claimBinders_grows claims names naming
    rw [claimBinders_binary, mem_free_binary, left known.1 past renames,
      right known.2 (past.trans grows) (renames.grows grows)]
    simp only [mem_free_binary, or_and_right, exists_or]
  | quantified q x f ih =>
    rw [claimBinders_quantified, mem_free_quantified,
      ih known.2 (past.trans (naming.settle_grows claims q x)) (renames.settle past claims q x)]
    constructor
    · rintro ⟨⟨z, inside, rfl⟩, unbound⟩
      by_cases same : z = x
      · rw [same, assign_same] at unbound
        exact absurd rfl unbound
      · exact ⟨z, mem_free_quantified.mpr ⟨inside, same⟩, (assign_of_ne same).symm⟩
    · rintro ⟨z, inside, rfl⟩
      obtain ⟨inside, different⟩ := mem_free_quantified.mp inside
      exact ⟨⟨z, inside, assign_of_ne different⟩,
        renames.uncaptured past claims q known.1 (known.2.free z inside) different⟩

/-- The variables bound by the quantifiers chosen, each before those of its scope. -/
def claimedVariables (f : Formula) : List Variable :=
  (f.binders.filter fun b => claims b.1).map (·.2)

/-- Where all quantifiers claim variables, those claimed are the bound ones. -/
theorem claimedVariables_all (f : Formula) :
    f.claimedVariables (fun _ => true) = f.boundVariables := by
  simp [claimedVariables, boundVariables]

/-- Those chosen on the left come before those on the right. -/
theorem claimedVariables_binary (op : Connective) (l r : Formula) :
    (binary op l r).claimedVariables claims =
      l.claimedVariables claims ++ r.claimedVariables claims := by
  simp [claimedVariables, binders]

/-- The outer quantifier comes first if it is chosen. -/
theorem claimedVariables_quantified (q : Quantifier) (x : Variable) (f : Formula) :
    (quantified q x f).claimedVariables claims =
      (if claims q then [x] else []) ++ f.claimedVariables claims := by
  by_cases chosen : claims q = true <;> simp [claimedVariables, binders, chosen]

/-- The quantifiers chosen claim variables that differ from each other and from all those taken. -/
theorem claimBinders_passes {f : Formula} {naming : Naming} (known : f.Known naming.symbols)
    (sound : naming.Sound) (names : Variable → Variable) :
    naming.Passes (f.claimBinders claims names naming).2
      ((f.claimBinders claims names naming).1.claimedVariables claims) := by
  -- What the walk claims later differs from what it has claimed before.
  induction f generalizing names naming with
  | atom a => exact .refl sound
  | not f ih => exact ih known sound names
  | binary op l r left right =>
    rw [claimBinders_binary, claimedVariables_binary]
    have first := left known.1 sound names
    exact first.trans (right (known.2.grows first.grows) first.sound names)
  | quantified q x f ih =>
    rw [claimBinders_quantified, claimedVariables_quantified]
    have first := Naming.settle_passes sound claims q known.1
    exact first.trans (ih (known.2.grows first.grows) first.sound _)

end Walk

/-- What the renaming of bound variables makes of a formula over the symbols of a table. -/
structure Renamed (symbols : SymbolTable) (f g : Formula) : Prop where
  shape : SameShape f g
  equivalent : g.Equivalent f
  free : ∀ x, x ∈ g.freeVariables ↔ x ∈ f.freeVariables
  known : g.Known symbols

/-- A renamed formula stays one when the table grows. -/
theorem Renamed.grows {before after : SymbolTable} {f g : Formula} (renamed : Renamed before f g)
    (grows : before.Grows after) : Renamed after f g :=
  { renamed with known := renamed.known.grows grows }

/-- A walk that starts without renamings yields a renamed formula. -/
theorem claimBinders_renamed (claims : Quantifier → Bool) {f : Formula} (naming : Naming)
    (known : f.Known naming.symbols) :
    Renamed (f.claimBinders claims id naming).2.symbols f (f.claimBinders claims id naming).1 where
  shape := f.sameShape_claimBinders claims id naming
  equivalent _ values := holds_claimBinders claims known (.refl _) .id values
  free x := by
    rw [mem_free_claimBinders claims known (.refl _) .id]
    simp
  known := known.claimBinders claims (.refl _) known.free

/-- Standardizing keeps the name of every symbol. -/
theorem standardize_grows (f : Formula) (symbols : SymbolTable) :
    symbols.Grows (f.standardize symbols).2.symbols :=
  f.claimBinders_grows (fun _ => true) id { taken := f.freeVariables, symbols }

/-- A standardized formula is a renamed one. -/
theorem standardize_renamed {f : Formula} {symbols : SymbolTable} (known : f.Known symbols) :
    Renamed (f.standardize symbols).2.symbols f (f.standardize symbols).1 :=
  claimBinders_renamed (fun _ => true) { taken := f.freeVariables, symbols } known

/-- A standardized formula keeps its variables apart. -/
theorem standardize_apart {f : Formula} {symbols : SymbolTable} (known : f.Known symbols) :
    (f.standardize symbols).1.Apart := by
  -- Every quantifier claims its variable, and the free variables are taken from the start.
  have sound : Naming.Sound { taken := f.freeVariables, symbols } := known.free
  have passes := claimBinders_passes (fun _ => true) (f := f) known sound id
  rw [claimedVariables_all] at passes
  refine ⟨passes.distinct, fun x bound free => passes.apart x bound ?_⟩
  exact ((standardize_renamed known).free x).mp free

/-- Standardizing a list of formulas keeps the name of every symbol. -/
theorem standardizeAll_grows (fs : List Formula) (symbols : SymbolTable) :
    symbols.Grows (standardizeAll fs symbols).2.1 := by
  induction fs generalizing symbols with
  | nil => exact .refl _
  | cons f fs ih => exact (f.standardize_grows symbols).trans (ih _)

/-- Each formula of a list is standardized to a renamed one that keeps its variables apart. -/
theorem standardizeAll_spec {fs : List Formula} {symbols : SymbolTable}
    (known : ∀ f ∈ fs, f.Known symbols) :
    List.Forall₂ (fun f g => Renamed (standardizeAll fs symbols).2.1 f g ∧ g.Apart) fs
      (standardizeAll fs symbols).1 := by
  -- The table has grown already when the later formulas have their turn.
  induction fs generalizing symbols with
  | nil => exact .nil
  | cons f fs ih =>
    have here := known f (by simp)
    have grows := f.standardize_grows symbols
    have later := standardizeAll_grows fs (f.standardize symbols).2.symbols
    refine .cons ⟨(standardize_renamed here).grows later, standardize_apart here⟩ (ih ?_)
    exact fun g member => (known g (by simp [member])).grows grows

/-- Claiming variables across a list of formulas keeps the name of every symbol. -/
theorem claimUniversals_grows (fs : List Formula) (naming : Naming) :
    naming.symbols.Grows (claimUniversals fs naming).2.symbols := by
  -- The table is handed on from each formula to the next one.
  induction fs generalizing naming with
  | nil => exact .refl _
  | cons f fs ih => exact (f.claimBinders_grows _ id naming).trans (ih _)

/-- Renaming across a list keeps the name of every symbol. -/
theorem renameAcross_grows (fs : List Formula) (symbols : SymbolTable) :
    symbols.Grows (renameAcross fs symbols).2.symbols :=
  claimUniversals_grows fs { taken := [], symbols }

/-- The universal quantifiers of a list claim variables that differ from each other. -/
theorem claimUniversals_passes {fs : List Formula} {naming : Naming}
    (known : ∀ f ∈ fs, f.Known naming.symbols) (sound : naming.Sound) :
    naming.Passes (claimUniversals fs naming).2
      ((claimUniversals fs naming).1.flatMap (claimedVariables (· == .universal))) := by
  -- The naming is handed on from each formula to the next one.
  induction fs generalizing naming with
  | nil => exact .refl sound
  | cons f fs ih =>
    have first := claimBinders_passes (· == .universal) (known f (by simp)) sound id
    refine first.trans (ih (fun g member => ?_) first.sound)
    exact (known g (by simp [member])).grows first.grows

/-- No variable is bound by two universal quantifiers of a list renamed across. -/
theorem areUniversalsUnique_renameAcross {fs : List Formula} {symbols : SymbolTable}
    (known : ∀ f ∈ fs, f.Known symbols) :
    areUniversalsUnique (renameAcross fs symbols).1 = true := by
  -- The variables of universal quantifiers are just those that are claimed.
  have sound : Naming.Sound { taken := [], symbols } := by simp [Naming.Sound]
  have passes := claimUniversals_passes known sound
  rw [areUniversalsUnique, areNew_iff, List.filter_flatMap, List.map_flatMap]
  exact ⟨passes.distinct, by simp⟩

/-- Each formula of a list is renamed, and its quantifiers keep their variables or get new ones. -/
theorem claimUniversals_spec {fs : List Formula} {naming : Naming}
    (known : ∀ f ∈ fs, f.Known naming.symbols) (sound : naming.Sound) :
    List.Forall₂ (fun f g => Renamed (claimUniversals fs naming).2.symbols f g ∧
        (g.claimedVariables (· == .universal)).Nodup ∧
        ∀ x ∈ g.boundVariables, x ∈ f.boundVariables ∨ ¬ naming.symbols.Knows x) fs
      (claimUniversals fs naming).1 := by
  -- Each formula is renamed at some time, and its variables stay known from then on.
  induction fs generalizing naming with
  | nil => exact .nil
  | cons f fs ih =>
    have here := known f (by simp)
    have first := claimBinders_passes (· == .universal) here sound id
    have later := claimUniversals_grows fs (f.claimBinders (· == .universal) id naming).2
    refine .cons ⟨(claimBinders_renamed _ naming here).grows later, first.distinct, ?_⟩ ?_
    · intro x bound
      exact (mem_bound_claimBinders _ f id naming x bound).imp_right And.left
    · have rest := ih (fun g member => (known g (by simp [member])).grows first.grows) first.sound
      -- A variable unknown to the grown table was unknown before it grew.
      exact rest.imp fun f' g ⟨renamed, distinct, bound⟩ => ⟨renamed, distinct, fun x inside =>
        (bound x inside).imp_right fun unknown known => unknown (first.grows.knows known)⟩

/--
Each formula of a list renamed across is a renamed one. Where all quantifiers are universal, those
that kept their variables apart still do.
-/
theorem renameAcross_spec {fs : List Formula} {symbols : SymbolTable}
    (known : ∀ f ∈ fs, f.Known symbols) :
    List.Forall₂ (fun f g => Renamed (renameAcross fs symbols).2.symbols f g ∧
        (f.Known symbols → f.isSkolemized = true → f.Apart → g.Apart)) fs
      (renameAcross fs symbols).1 := by
  -- Nothing is taken at the start, so that the first claims are all met.
  have sound : Naming.Sound { taken := [], symbols } := by simp [Naming.Sound]
  refine (claimUniversals_spec known sound).imp ?_
  rintro f g ⟨renamed, distinct, bound⟩
  refine ⟨renamed, fun known skolemized apart => ⟨?_, fun x inside free => ?_⟩⟩
  · -- All quantifiers are universal, so that each of them has claimed its variable.
    rw [renamed.shape.isSkolemized] at skolemized
    have universal : ∀ b ∈ g.binders, (b.1 == .universal) = true := List.all_eq_true.mp skolemized
    have claimed : g.claimedVariables (· == .universal) = g.boundVariables := by
      rw [claimedVariables, List.filter_eq_self.mpr universal, boundVariables]
    exact claimed ▸ distinct
  · -- A free variable was free before, where it was neither bound nor unknown.
    have free := (renamed.free x).mp free
    rcases bound x inside with old | unknown
    · exact apart.unfree x old free
    · exact unknown (known.free x free)

end Formula

end ClauseForm
