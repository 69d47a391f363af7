import ClauseForm.Proofs.Closure
import ClauseForm.Proofs.SymbolMaps
import ClauseForm.Proofs.Threads

/-! Universal quantifiers in front of a formula claim variables that other formulas do not bind. -/

namespace ClauseForm

/-- The names of different variables once universal quantifiers over them have claimed variables. -/
structure Naming.Claimed (naming : Naming) (us : List Variable) (names : Variable → Variable) :
    Prop where
  distinct : (us.map names).Nodup
  others : ∀ z, z ∉ us → names z = z
  settled : ∀ u ∈ us, names u = u ∨ ¬ naming.symbols.Knows (names u)
  keeps : ∀ u ∈ us, u ∉ naming.taken → names u = u

/-- A quantifier that claims a variable takes the one that it gets. -/
theorem Naming.taken_settle {naming : Naming} {claims : Quantifier → Bool} {q : Quantifier}
    (chosen : claims q = true) (x : Variable) :
    (naming.settle claims q x).2.taken = (naming.settle claims q x).1 :: naming.taken := by
  -- A claim enters what it gives out.
  rw [settle, if_pos chosen, claim]
  split <;> rfl

/-- A quantifier keeps its variable if it is not taken. -/
theorem Naming.settle_untaken {naming : Naming} (claims : Quantifier → Bool) (q : Quantifier)
    {x : Variable} (untaken : x ∉ naming.taken) : (naming.settle claims q x).1 = x := by
  -- Neither a claim nor its absence changes a variable that is free for it.
  rw [settle, claim, if_neg untaken]
  split <;> rfl

/-- No two known variables get the same name. -/
theorem Naming.Claimed.injOn {naming : Naming} {us : List Variable} {names : Variable → Variable}
    (claimed : naming.Claimed us names) : Set.InjOn names {z | naming.symbols.Knows z} := by
  -- A known variable of another name is none of those claimed, which are kept or new.
  have apart {u z : Variable} (listed : u ∈ us) (unlisted : z ∉ us)
      (known : naming.symbols.Knows z) : names u ≠ names z := by
    rw [claimed.others z unlisted]
    intro same
    rcases claimed.settled u listed with kept | new
    · exact unlisted (same ▸ kept.symm ▸ listed)
    · exact new (same.symm ▸ known)
  intro y known z known' same
  -- Of two variables both, one or none may be bound by the quantifiers.
  by_cases listed : y ∈ us <;> by_cases listed' : z ∈ us
  · exact List.inj_on_of_nodup_map claimed.distinct listed listed' same
  · exact absurd same (apart listed listed' known')
  · exact absurd same.symm (apart listed' listed known)
  · rwa [claimed.others y listed, claimed.others z listed'] at same

namespace Formula

/-- A prenex formula whose quantifiers are all universal is its matrix below them. -/
theorem eq_forAll {f : Formula} (prenex : f.isPrenex = true) (skolemized : f.isSkolemized = true) :
    f = forAll f.boundVariables f.matrix := by
  -- One universal quantifier after the other is taken off.
  induction f with
  | quantified q x f ih =>
    unfold isSkolemized at skolemized
    rw [binders, List.all_cons, Bool.and_eq_true] at skolemized
    obtain rfl : q = .universal := eq_of_beq skolemized.1
    rw [bound_quantified, forAll_cons]
    exact congrArg (quantified .universal x) (ih prenex skolemized.2)
  | atom a => rfl
  -- Elsewhere a prenex formula has no quantifier.
  | not f _ =>
    have unbound : (not f).binders = [] := binders_of_isQuantifierFree prenex
    rw [boundVariables, unbound]
    rfl
  | binary op l r _ _ =>
    have unbound : (binary op l r).binders = [] := binders_of_isQuantifierFree prenex
    rw [boundVariables, unbound]
    rfl

/-- Below all quantifiers there is nothing to be claimed, and variables are renamed. -/
theorem claimBinders_of_isQuantifierFree (claims : Quantifier → Bool) {f : Formula}
    (free : f.isQuantifierFree = true) (names : Variable → Variable) (naming : Naming) :
    f.claimBinders claims names naming = (f.mapSymbols (.ofVariables names), naming) := by
  -- No step of the walk meets a quantifier.
  induction f with
  | atom a => rw [claimBinders, a.rename_eq_mapSymbols]; rfl
  | not f ih => rw [claimBinders, ih free]; rfl
  | binary op l r left right =>
    -- Neither side has a quantifier.
    rw [isQuantifierFree, hasQuantifier, Bool.not_eq_true', Bool.or_eq_false_iff] at free
    have freeLeft : l.isQuantifierFree = true := by rw [isQuantifierFree, free.1]; rfl
    have freeRight : r.isQuantifierFree = true := by rw [isQuantifierFree, free.2]; rfl
    rw [claimBinders_binary, left freeLeft, right freeRight]
    rfl
  | quantified q x f _ => cases free

/-- Universal quantifiers over different variables in front of a formula claim variables. -/
theorem exists_claimed_forAll {us : List Variable} {m : Formula} (free : m.isQuantifierFree = true)
    {naming : Naming} (known : ∀ u ∈ us, naming.symbols.Knows u) (distinct : us.Nodup)
    (start : Variable → Variable) :
    ∃ names : Variable → Variable,
      ((forAll us m).claimBinders (· == .universal) start naming).1 =
          forAll (us.map names) (m.mapSymbols (.ofVariables names)) ∧
      (∀ z, z ∉ us → names z = start z) ∧
      (∀ u ∈ us, names u = u ∨ ¬ naming.symbols.Knows (names u)) ∧
      ∀ u ∈ us, u ∉ naming.taken → names u = u := by
  -- The renamings in force below the first quantifiers are kept general.
  induction us generalizing start naming with
  | nil =>
    refine ⟨start, ?_, fun _ _ => rfl, by simp, by simp⟩
    exact congrArg Prod.fst (claimBinders_of_isQuantifierFree _ free start naming)
  | cons u us ih =>
    obtain ⟨fresh, distinct⟩ := List.nodup_cons.mp distinct
    obtain ⟨here, later⟩ := List.forall_mem_cons.mp known
    have grows := naming.settle_grows (· == .universal) .universal u
    have settled := naming.settle_variable (· == .universal) .universal u
    obtain ⟨names, made, others, rest, keeps⟩ :=
      ih (fun v inside => grows.knows (later v inside)) distinct
        (assign start u (naming.settle (· == .universal) .universal u).1)
    -- The first variable is not bound again, and keeps the name that it gets first.
    have name : names u = (naming.settle (· == .universal) .universal u).1 := by
      rw [others u fresh, assign_same]
    refine ⟨names, ?_, fun z unlisted => ?_, List.forall_mem_cons.mpr ⟨?_, fun v inside => ?_⟩,
      List.forall_mem_cons.mpr ⟨fun untaken => ?_, fun v inside untaken => ?_⟩⟩
    · rw [forAll_cons, claimBinders_quantified, made, ← name]
      rfl
    · rw [List.mem_cons, not_or] at unlisted
      rw [others z unlisted.2, assign_of_ne unlisted.1]
    · rw [name]
      exact settled.imp_right And.left
    · exact (rest v inside).imp_right fun unknown earlier => unknown (grows.knows earlier)
    · rw [name]
      exact naming.settle_untaken _ _ untaken
    · -- The variable claimed first is another one, or was not known.
      refine keeps v inside ?_
      rw [Naming.taken_settle rfl, List.mem_cons, not_or]
      refine ⟨?_, untaken⟩
      rintro rfl
      rcases settled with kept | new
      · exact fresh (kept ▸ inside)
      · exact new.1 (later _ inside)

/-- What becomes of a formula with universal quantifiers in front only when they claim variables. -/
theorem exists_claimed {f : Formula} {naming : Naming} (prenex : f.isPrenex = true)
    (skolemized : f.isSkolemized = true) (known : f.Known naming.symbols) (sound : naming.Sound)
    (distinct : f.boundVariables.Nodup) :
    ∃ names : Variable → Variable, naming.Claimed f.boundVariables names ∧
      (f.claiming naming).1 =
        forAll (f.boundVariables.map names) (f.matrix.mapSymbols (.ofVariables names)) := by
  -- Known formulas are over known variables.
  have bound : ∀ u ∈ f.boundVariables, naming.symbols.Knows u :=
    List.forall_mem_map.mpr known.binders
  obtain ⟨names, made, others, settled, keeps⟩ :=
    exists_claimed_forAll prenex bound distinct id
  rw [← eq_forAll prenex skolemized] at made
  refine ⟨names, ⟨?_, others, settled, keeps⟩, made⟩
  -- The variables claimed are those of the quantifiers in front.
  have passes := claimBinders_passes (· == .universal) known sound id
  have free : (f.matrix.mapSymbols (.ofVariables names)).binders = [] := by
    rw [binders_mapSymbols, binders_of_isQuantifierFree prenex, List.map_nil]
  have claimed : (forAll (f.boundVariables.map names)
      (f.matrix.mapSymbols (.ofVariables names))).claimedVariables (· == .universal) =
        f.boundVariables.map names := by
    rw [claimedVariables, binders_forAll, free]
    simp [List.filter_map, Function.comp_def]
  rw [← claimed, ← made]
  exact passes.distinct

/-- Universal quantifiers in front of a formula without quantifiers are all that bind variables. -/
theorem bound_forAll {us : List Variable} {m : Formula} (free : m.isQuantifierFree = true) :
    (forAll us m).boundVariables = us := by
  -- The matrix has no quantifiers to add to them.
  rw [boundVariables, binders_forAll, binders_of_isQuantifierFree free, List.append_nil,
    List.map_map]
  exact us.map_id

/-- Universal quantifiers in front of a formula without quantifiers are all left out. -/
theorem stripUniversals_forAll {us : List Variable} {m : Formula}
    (free : m.isQuantifierFree = true) : (forAll us m).stripUniversals = m := by
  -- Every one of them is universal.
  induction us with
  | nil => exact dropBinders_of_isQuantifierFree _ free
  | cons u us ih => exact ih

end Formula

end ClauseForm
