import ClauseForm.Proofs.Renamings
import ClauseForm.Proofs.Threads
import Mathlib.Algebra.BigOperators.Group.Finset.Basic
import Mathlib.Algebra.GroupWithZero.Nat

/-! How far supplies are used can be told from the quantifiers that claim variables or give way. -/

namespace ClauseForm

namespace Naming

/-- The variables that those among some quantifiers ask for which claim theirs, in their order. -/
def claimed (claims : Quantifier → Bool) (bs : List (Quantifier × Variable)) : List Variable :=
  (bs.filter fun b => claims b.1).map (·.2)

section Claims

variable {claims : Quantifier → Bool} {naming : Naming} {bs : List (Quantifier × Variable)}
  {p q : Quantifier} {x z : Variable}

/-- A quantifier adds its variable in front just if it claims it. -/
theorem claimed_cons : claimed claims ((p, z) :: bs) =
    if claims p then z :: claimed claims bs else claimed claims bs := by
  by_cases chosen : claims p = true <;> simp [claimed, chosen]

/-- A variable is claimed if some quantifier over it claims variables. -/
theorem mem_claimed : x ∈ claimed claims bs ↔ ∃ q, claims q = true ∧ (q, x) ∈ bs := by
  simp [claimed, and_comm]

/-- A quantifier has a variable given out just if it claims one that is taken. -/
theorem count_settle_var (naming : Naming) (claims : Quantifier → Bool) (q : Quantifier)
    (x : Variable) : (naming.settle claims q x).2.symbols.count .var =
      naming.symbols.count .var + if claims q ∧ x ∈ naming.taken then 1 else 0 := by
  -- Only the branch that finds the variable taken turns to the supply.
  rw [settle, claim]
  by_cases chosen : claims q = true
  · by_cases taken : x ∈ naming.taken
    · simpa [chosen, taken] using naming.symbols.freshVariable_next.2 .var
    · simp [chosen, taken]
  · simp [chosen]

/-- A variable that is asked for counts just if it is not taken, and once however often it is. -/
theorem card_insert_sdiff (z : Variable) (asked taken : Finset Variable) :
    (insert z asked \ taken).card =
      ((asked \ taken).erase z).card + if z ∈ taken then 0 else 1 := by
  by_cases held : z ∈ taken
  · -- A variable that is taken is among neither.
    rw [Finset.insert_sdiff_of_mem _ held, Finset.erase_eq_of_notMem (by simp [held]), if_pos held,
      Nat.add_zero]
  · have once : insert z asked \ taken = insert z ((asked \ taken).erase z) := by
      rw [Finset.insert_sdiff_of_notMem _ held]
      ext y
      by_cases same : y = z <;> simp [same]
    rw [once, Finset.card_insert_of_notMem (Finset.notMem_erase _ _), if_neg held]

/--
As many variables are given out as are claimed, except that the first claim to a variable that is
not taken is met with this variable itself.
-/
theorem count_settleAll (naming : Naming) (claims : Quantifier → Bool)
    (known : ∀ b ∈ bs, naming.symbols.Knows b.2) :
    (naming.settleAll claims bs).2.symbols.count .var +
        ((claimed claims bs).toFinset \ naming.taken.toFinset).card =
      naming.symbols.count .var + (claimed claims bs).length := by
  -- Every turn changes what is taken, so the naming stays general.
  induction bs generalizing naming with
  | nil => simp [settleAll, claimed]
  | cons b bs ih =>
    obtain ⟨p, z⟩ := b
    obtain ⟨here, later⟩ := List.forall_mem_cons.mp known
    have grows := naming.settle_grows claims p z
    have rest := ih (naming.settle claims p z).2 fun c member => grows.knows (later c member)
    rw [count_settle_var] at rest
    rw [settleAll_cons]
    by_cases chosen : claims p = true
    · -- For what is claimed later, at most the variable claimed now is taken besides.
      have taken : (claimed claims bs).toFinset \ (naming.settle claims p z).2.taken.toFinset =
          ((claimed claims bs).toFinset \ naming.taken.toFinset).erase z := by
        ext x
        by_cases asked : x ∈ claimed claims bs
        · obtain ⟨q, _, inside⟩ := mem_claimed.mp asked
          simp [asked, mem_taken_settle (later _ inside), chosen, and_comm]
        · simp [asked]
      rw [taken] at rest
      rw [claimed_cons, if_pos chosen, List.toFinset_cons, card_insert_sdiff, List.length_cons]
      by_cases held : z ∈ naming.taken
      · simp only [chosen, held, and_self, if_true, List.mem_toFinset] at rest ⊢
        omega
      · simp only [chosen, held, and_false, if_false, List.mem_toFinset] at rest ⊢
        omega
    · -- A quantifier that claims nothing leaves everything as it is.
      have still : (naming.settle claims p z).2 = naming := by rw [settle, if_neg chosen]
      rw [claimed_cons, if_neg chosen, still]
      rw [still, if_neg fun both => chosen both.1] at rest
      exact rest

/--
Where all quantifiers claim their variables, the first one over a variable that is not taken keeps
it, and no other one has it.
-/
theorem mem_zip_settleAll (naming : Naming) (q : Quantifier)
    (known : ∀ b ∈ bs, naming.symbols.Knows b.2) (familiar : naming.symbols.Knows x) :
    (q, x) ∈ (bs.map (·.1)).zip (naming.settleAll (fun _ => true) bs).1 ↔
      x ∉ naming.taken ∧ bs.find? (·.2 = x) = some (q, x) := by
  -- The first quantifier decides about its own variable, and the rest is decided after its turn.
  induction bs generalizing naming with
  | nil => simp
  | cons b bs ih =>
    obtain ⟨p, z⟩ := b
    obtain ⟨here, later⟩ := List.forall_mem_cons.mp known
    have grows := naming.settle_grows (fun _ => true) p z
    rw [settleAll_cons, List.map_cons, List.zip_cons_cons, List.mem_cons,
      ih _ (fun c member => grows.knows (later c member)) (grows.knows familiar),
      mem_taken_settle familiar]
    by_cases same : z = x
    · -- The first quantifier takes the variable, and keeps it if it was not taken before.
      subst same
      have kept : z = (naming.settle (fun _ => true) p z).1 ↔ z ∉ naming.taken :=
        eq_comm.trans (claim_eq_iff p here)
      simp [kept, and_comm, @eq_comm _ q p]
    · -- The first quantifier keeps another variable or gets one that was not known.
      have other : x ≠ (naming.settle (fun _ => true) p z).1 := by
        rintro rfl
        rcases naming.settle_variable (fun _ => true) p z with kept | new
        · exact same kept.symm
        · exact new.1 familiar
      simp [same, other, Ne.symm same]

/-- A turn adds at most the renaming of its quantifier, which claims a variable that is taken. -/
theorem mem_renamings_settle {r : Renaming}
    (listed : r ∈ (naming.settle claims p z).2.renamings) :
    r ∈ naming.renamings ∨ claims p = true ∧ r.old = z ∧ z ∈ naming.taken ∧
      ¬ naming.symbols.Knows r.new := by
  -- A renaming is entered in one branch only, where a fresh variable is given out.
  by_cases chosen : claims p = true
  · by_cases taken : z ∈ naming.taken
    · rw [settle, if_pos chosen, claim, if_pos taken] at listed
      rcases List.mem_append.mp listed with old | last
      · exact Or.inl old
      · obtain rfl := List.mem_singleton.mp last
        exact Or.inr ⟨chosen, rfl, taken, naming.symbols.freshVariable_new.1⟩
    · rw [settle, if_pos chosen, claim, if_neg taken] at listed
      exact Or.inl listed
  · rw [settle, if_neg chosen] at listed
    exact Or.inl listed

/--
A renaming takes a variable that is taken at the start or claimed more than once, and gives one
that was not known at the start.
-/
theorem exchange_settleAll (known : ∀ b ∈ bs, naming.symbols.Knows b.2) {r : Renaming}
    (listed : r ∈ (naming.settleAll claims bs).2.renamings) :
    r ∈ naming.renamings ∨ r.old ∈ claimed claims bs ∧
      (r.old ∈ naming.taken ∨ 2 ≤ (claimed claims bs).count r.old) ∧
        ¬ naming.symbols.Knows r.new := by
  induction bs generalizing naming with
  | nil => exact Or.inl listed
  | cons b bs ih =>
    obtain ⟨p, z⟩ := b
    obtain ⟨here, later⟩ := List.forall_mem_cons.mp known
    have grows := naming.settle_grows claims p z
    rw [claimed_cons]
    rcases ih (fun c member => grows.knows (later c member)) listed with first | ⟨asked, cause, new⟩
    · -- The first turn entered it.
      refine (mem_renamings_settle first).imp_right fun ⟨chosen, same, taken, new⟩ => ?_
      subst same
      rw [if_pos chosen]
      exact ⟨List.mem_cons_self, Or.inl taken, new⟩
    · -- What is taken by the time of a later turn was taken before or has been claimed now.
      refine Or.inr ⟨?_, ?_, fun old => new (grows.knows old)⟩
      · split
        · exact List.mem_cons_of_mem _ asked
        · exact asked
      · obtain ⟨q, _, inside⟩ := mem_claimed.mp asked
        rw [mem_taken_settle (later _ inside)] at cause
        have more : (claimed claims bs).count r.old ≤
            (if claims p then z :: claimed claims bs else claimed claims bs).count r.old := by
          split
          · exact List.count_le_count_cons
          · exact le_rfl
        rcases cause with (taken | ⟨chosen, same⟩) | twice
        · exact Or.inl taken
        · subst same
          rw [if_pos chosen, List.count_cons_self]
          exact Or.inr (Nat.succ_le_succ (List.count_pos_iff.mpr asked))
        · exact Or.inr (twice.trans more)

end Claims

end Naming

namespace Formula

section Standardizing

variable {f : Formula} {fs : List Formula} {symbols : SymbolTable} {q : Quantifier} {x : Variable}

/-- How many quantifiers there are beyond one for each bound variable that is not free as well. -/
def repeats (f : Formula) : Nat :=
  f.binders.length - (f.boundVariables.toFinset \ f.freeVariables.toFinset).card

/-- Standardizing gives out a variable for each quantifier that cannot have its own. -/
theorem count_standardize (known : f.Known symbols) :
    (f.standardize symbols).2.symbols.count .var = symbols.count .var + f.repeats := by
  -- The count of a whole list of turns is read off for the quantifiers of the formula.
  let start : Naming := { taken := f.freeVariables, symbols }
  have all : Naming.claimed (fun _ => true) f.binders = f.boundVariables := f.claimedVariables_all
  have growth := start.count_settleAll (fun _ => true) known.binders
  rw [Naming.settleAll_binders _ f id, all] at growth
  have growth : (f.standardize symbols).2.symbols.count .var +
      (f.boundVariables.toFinset \ f.freeVariables.toFinset).card =
        symbols.count .var + f.boundVariables.length := growth
  -- There are no more distinct variables than quantifiers.
  have fewer : (f.boundVariables.toFinset \ f.freeVariables.toFinset).card ≤
      f.boundVariables.length :=
    (Finset.card_le_card Finset.sdiff_subset).trans (List.toFinset_card_le _)
  have length : f.boundVariables.length = f.binders.length := List.length_map _
  rw [repeats]
  omega

/-- For a list, such variables are given out for one formula after the other. -/
theorem count_standardizeAll (known : ∀ f ∈ fs, f.Known symbols) :
    (standardizeAll fs symbols).2.1.count .var = symbols.count .var + (fs.map repeats).sum := by
  -- Later formulas start from the table that the first one leaves.
  induction fs generalizing symbols with
  | nil => rfl
  | cons f fs ih =>
    obtain ⟨here, later⟩ := List.forall_mem_cons.mp known
    have grows := f.standardize_grows symbols
    have rest := ih fun g listed => (later g listed).grows grows
    rw [count_standardize here] at rest
    rw [List.map_cons, List.sum_cons, ← Nat.add_assoc]
    exact rest

/-- Of the quantifiers over a variable that is not free, just the first one keeps it. -/
theorem mem_binders_standardize (known : f.Known symbols) (familiar : symbols.Knows x) :
    (q, x) ∈ (f.standardize symbols).1.binders ↔
      x ∉ f.freeVariables ∧ f.binders.find? (·.2 = x) = some (q, x) := by
  let start : Naming := { taken := f.freeVariables, symbols }
  have kept := start.mem_zip_settleAll q known.binders familiar
  have same : f.binders.map (·.1) = (f.standardize symbols).1.binders.map (·.1) :=
    (f.sameShape_claimBinders (fun _ => true) id start).quantifiers
  -- The turns and the formula treat the same quantifiers in the same order.
  rw [Naming.settleAll_binders _ f id, same] at kept
  -- The quantifiers and their variables together make up what the formula binds.
  have whole : ((f.standardize symbols).1.binders.map (·.1)).zip
      (f.standardize symbols).1.boundVariables = (f.standardize symbols).1.binders :=
    List.zip_map'.trans (List.map_id _)
  rw [← whole]
  exact kept

/-- Whether a variable is bound without being free, and first by a universal quantifier. -/
def bindsFirstByAll (x : Variable) (f : Formula) : Bool :=
  x ∉ f.freeVariables && f.binders.find? (·.2 = x) == some (.universal, x)

/-- A variable that a formula binds first in this way is bound in it. -/
theorem mem_bound_of_bindsFirstByAll (first : f.bindsFirstByAll x = true) :
    x ∈ f.boundVariables := by
  have found := eq_of_beq (Bool.and_eq_true _ _ ▸ first).2
  exact List.mem_map.mpr ⟨_, List.mem_of_find?_eq_some found, rfl⟩

/-- The variables that the universal quantifiers of a formula bind. -/
def universals (f : Formula) : List Variable := f.claimedVariables (· == .universal)

/-- A variable is among them exactly when some universal quantifier binds it. -/
theorem mem_universals : x ∈ f.universals ↔ (.universal, x) ∈ f.binders := by
  simp [universals, claimedVariables]

/-- What is bound universally in some formula is bound in it. -/
theorem mem_bound_of_mem_universals (bound : x ∈ fs.flatMap universals) :
    x ∈ fs.flatMap boundVariables := by
  -- The universal quantifier is one of the quantifiers of its formula.
  obtain ⟨f, listed, bound⟩ := List.mem_flatMap.mp bound
  exact List.mem_flatMap.mpr ⟨f, listed, List.mem_map.mpr ⟨_, mem_universals.mp bound, rfl⟩⟩

/-- Where no variable is bound twice, none is bound universally twice. -/
theorem nodup_universals (distinct : f.boundVariables.Nodup) : f.universals.Nodup :=
  distinct.sublist (List.filter_sublist.map _)

/-- A standardized formula binds known variables universally that it bound first in this way. -/
theorem count_universals_standardize (known : f.Known symbols) (familiar : symbols.Knows x) :
    (f.standardize symbols).1.universals.count x = if f.bindsFirstByAll x then 1 else 0 := by
  -- It is bound universally at most once after standardizing, so that membership tells the count.
  have kept : x ∈ (f.standardize symbols).1.universals ↔ f.bindsFirstByAll x = true := by
    rw [mem_universals, mem_binders_standardize known familiar]
    simp [bindsFirstByAll]
  rw [(nodup_universals (standardize_apart known).distinct).count]
  exact if_congr kept rfl rfl

/-- A known variable is bound universally in as many formulas as have bound it first in this way. -/
theorem count_universals_of_knows (known : ∀ f ∈ fs, f.Known symbols) (familiar : symbols.Knows x) :
    ((standardizeAll fs symbols).1.flatMap universals).count x =
      fs.countP (bindsFirstByAll x) := by
  -- Each formula adds one or nothing to both counts.
  induction fs generalizing symbols with
  | nil => rfl
  | cons f fs ih =>
    obtain ⟨here, later⟩ := List.forall_mem_cons.mp known
    have grows := f.standardize_grows symbols
    have rest := ih (fun g listed => (later g listed).grows grows) (grows.knows familiar)
    rw [standardizeAll, List.flatMap_cons, List.count_append, List.countP_cons,
      count_universals_standardize here familiar, rest, Nat.add_comm]

/-- Known variables that are bound when formulas are standardized were bound before. -/
theorem mem_bound_of_knows (known : ∀ f ∈ fs, f.Known symbols) (familiar : symbols.Knows x)
    (bound : x ∈ (standardizeAll fs symbols).1.flatMap boundVariables) :
    x ∈ fs.flatMap boundVariables := by
  -- A table that knows a variable still knows it after the first formula.
  induction fs generalizing symbols with
  | nil => exact bound
  | cons f fs ih =>
    obtain ⟨here, later⟩ := List.forall_mem_cons.mp known
    have grows := f.standardize_grows symbols
    rw [standardizeAll, List.flatMap_cons] at bound
    rw [List.flatMap_cons]
    rcases List.mem_append.mp bound with first | rest
    · -- The first formula kept it, since what is given out was not known.
      rcases mem_bound_claimBinders _ f id _ x first with old | new
      · exact List.mem_append_left _ old
      · exact absurd familiar new.1
    · refine List.mem_append_right _ (ih ?_ (grows.knows familiar) rest)
      exact fun g listed => (later g listed).grows grows

/-- A variable that was not known is bound universally at most once. -/
theorem count_universals_of_not_knows (known : ∀ f ∈ fs, f.Known symbols)
    (unfamiliar : ¬ symbols.Knows x) :
    ((standardizeAll fs symbols).1.flatMap universals).count x ≤ 1 := by
  -- The first formula that binds the variable makes it known to all later ones.
  induction fs generalizing symbols with
  | nil => exact Nat.zero_le _
  | cons f fs ih =>
    obtain ⟨here, later⟩ := List.forall_mem_cons.mp known
    have grows := f.standardize_grows symbols
    have met : ∀ g ∈ fs, g.Known (f.standardize symbols).2.symbols :=
      fun g listed => (later g listed).grows grows
    rw [standardizeAll, List.flatMap_cons, List.count_append]
    by_cases made : (f.standardize symbols).2.symbols.Knows x
    · -- It has been given out by then, so that no later formula binds it.
      have last : x ∉ (standardizeAll fs (f.standardize symbols).2.symbols).1.flatMap
          universals := by
        intro inside
        obtain ⟨g, listed, bound⟩ := List.mem_flatMap.mp
          (mem_bound_of_knows met made (mem_bound_of_mem_universals inside))
        obtain ⟨b, member, rfl⟩ := List.mem_map.mp bound
        exact unfamiliar ((later g listed).binders b member)
      rw [List.count_eq_zero.mpr last]
      exact List.nodup_iff_count_le_one.mp (nodup_universals (standardize_apart here).distinct) x
    · -- It has not been given out yet, so that the first formula does not bind it.
      have first : x ∉ (f.standardize symbols).1.universals := fun bound =>
        made ((standardize_renamed here).known.binders _ (mem_universals.mp bound))
      rw [List.count_eq_zero.mpr first, Nat.zero_add]
      exact ih met made

end Standardizing

section Witnesses

variable {f g : Formula} {fs : List Formula} {scope : List Variable} {symbols : SymbolTable}

/-- How many existential quantifiers there are. -/
def existentials (f : Formula) : Nat := f.binders.countP (·.1 == .existential)

/-- Each existential quantifier in front of a formula gets a witness. -/
theorem length_witnesses (prenex : f.isPrenex = true) :
    (f.skolemizeIn scope symbols).witnesses.length = f.existentials := by
  -- The cases are those of the source: a witness, a universal quantifier in front, and the rest.
  fun_induction skolemizeIn f scope symbols with
  | case1 x f scope symbols term after made rest ih =>
    have below := ih ((sameShape_substitute x term f).isPrenex ▸ prenex)
    rw [existentials, binders_substitute] at below
    rw [existentials, binders, List.countP_cons_of_pos rfl, List.length_cons]
    exact congrArg Nat.succ below
  | case2 x f scope symbols rest ih =>
    rw [existentials, binders, List.countP_cons_of_neg (by simp)]
    exact ih prenex
  | case3 f scope symbols existential universal =>
    -- A prenex formula that does not begin with a quantifier has none.
    have free : f.isQuantifierFree = true := by
      cases f with
      | quantified q x f =>
        cases q with
        | existential => exact (existential x f rfl).elim
        | universal => exact (universal x f rfl).elim
      | _ => exact prenex
    rw [existentials, binders_of_isQuantifierFree free]
    rfl

/-- Each witness has one constant and one function given out, and no symbol of another kind. -/
theorem count_skolemizeIn (f : Formula) (scope : List Variable) (symbols : SymbolTable)
    (kind : Kind) : (f.skolemizeIn scope symbols).symbols.count kind = symbols.count kind +
      if kind = .const ∨ kind = .func then (f.skolemizeIn scope symbols).witnesses.length
      else 0 := by
  -- Every witness takes one label, whatever follows.
  fun_induction skolemizeIn f scope symbols with
  | case1 x f scope symbols term after made rest ih =>
    obtain ⟨rfl, _⟩ := freshWitness_cases made
    have below : rest.symbols.count kind = symbols.freshSkolem.2.count kind +
      if kind = .const ∨ kind = .func then rest.witnesses.length else 0 := ih
    rw [below, symbols.freshSkolem_next.2 kind, List.length_cons]
    split <;> omega
  | case2 x f scope symbols rest ih => exact ih
  | case3 f scope symbols existential universal => simp

/-- Universal quantifiers stay when existential ones give way to witnesses. -/
theorem Skolemizes.universals {final : SymbolTable} (steps : Skolemizes symbols scope f final g) :
    g.universals = f.universals := by
  -- The induction is on the steps, of which only the first kind changes the body.
  induction steps with
  | @existential _ _ _ _ x f _ term made _ ih =>
    -- A witness brings in no quantifiers.
    have same : (f.substitute x term).universals = f.universals :=
      congrArg (Naming.claimed (· == .universal)) (binders_substitute x term f)
    exact ih.trans same
  | universal _ ih => exact congrArg (_ :: ·) ih
  | done plain => rfl

/-- Moving quantifiers to the front at most changes their order. -/
theorem universals_toPrenex_perm (order : PrenexOrder) (f : Formula) :
    (f.toPrenex order).universals.Perm f.universals :=
  ((binders_toPrenex_perm order f).filter _).map _

/-- Moving quantifiers to the front keeps the number of existential ones. -/
theorem existentials_toPrenex (order : PrenexOrder) (f : Formula) :
    (f.toPrenex order).existentials = f.existentials :=
  (binders_toPrenex_perm order f).countP_eq _

/-- Standardizing keeps the quantifiers. -/
theorem map_existentials_standardizeAll (fs : List Formula) (symbols : SymbolTable) :
    (standardizeAll fs symbols).1.map existentials = fs.map existentials := by
  -- The table differs from formula to formula and does not matter for the quantifiers.
  induction fs generalizing symbols with
  | nil => rfl
  | cons f fs ih =>
    have same : f.binders.map (·.1) = (f.standardize symbols).1.binders.map (·.1) :=
      (f.sameShape_claimBinders (fun _ => true) id _).quantifiers
    have first : (f.standardize symbols).1.existentials = f.existentials := by
      have counted := congrArg (List.countP (· == .existential)) same
      rw [List.countP_map, List.countP_map] at counted
      exact counted.symm
    rw [standardizeAll, List.map_cons, List.map_cons, first, ih]

/-- For a list, as many witnesses are made as there are existential quantifiers in all. -/
theorem length_witnesses_skolemizeAll (prenex : ∀ f ∈ fs, f.isPrenex = true) :
    ((skolemizeAll fs symbols).1.flatMap Skolemized.witnesses).length =
      (fs.map existentials).sum := by
  -- The witnesses of each formula are counted by its own quantifiers.
  induction fs generalizing symbols with
  | nil => rfl
  | cons f fs ih =>
    obtain ⟨here, later⟩ := List.forall_mem_cons.mp prenex
    rw [skolemizeAll, List.flatMap_cons, List.length_append, List.map_cons, List.sum_cons,
      ih later]
    exact congrArg (· + _) (length_witnesses here)

/-- For a list, constants and functions are given out once for every witness, and nothing else. -/
theorem count_skolemizeAll (fs : List Formula) (symbols : SymbolTable) (kind : Kind) :
    (skolemizeAll fs symbols).2.count kind = symbols.count kind +
      if kind = .const ∨ kind = .func then
        ((skolemizeAll fs symbols).1.flatMap Skolemized.witnesses).length
      else 0 := by
  -- What the first formula has been given is counted in the table that the others start from.
  induction fs generalizing symbols with
  | nil => simp [skolemizeAll]
  | cons f fs ih =>
    have first := f.count_skolemizeIn [] symbols kind
    rw [skolemizeAll, List.flatMap_cons, List.length_append]
    refine (ih _).trans ?_
    rw [skolemize, first]
    split <;> omega

/-- For a list too, universal quantifiers stay when existential ones give way. -/
theorem flatMap_universals_skolemizeAll (fs : List Formula) (symbols : SymbolTable) :
    ((skolemizeAll fs symbols).1.map Skolemized.formula).flatMap universals =
      fs.flatMap universals := by
  -- Which symbols the witnesses bring in does not matter for the quantifiers.
  induction fs generalizing symbols with
  | nil => rfl
  | cons f fs ih =>
    rw [skolemizeAll, List.map_cons, List.flatMap_cons, List.flatMap_cons, ih]
    exact congrArg (· ++ _) (f.skolemizes [] symbols).universals

end Witnesses

section Across

variable {fs : List Formula} {symbols : SymbolTable} (known : ∀ f ∈ fs, f.Known symbols)

/-- The universal quantifiers of a list claim the variables that its formulas bind universally. -/
theorem claimed_flatMap_binders (fs : List Formula) :
    Naming.claimed (· == .universal) (fs.flatMap binders) = fs.flatMap universals := by
  rw [Naming.claimed, List.filter_flatMap, List.map_flatMap]
  rfl

/-- Universal quantifiers have no symbols given out but variables. -/
theorem count_claimUniversals (fs : List Formula) (naming : Naming) {kind : Kind}
    (other : kind ≠ .var) :
    (claimUniversals fs naming).2.symbols.count kind = naming.symbols.count kind := by
  -- The first formula changes the naming in its variables only.
  induction fs generalizing naming with
  | nil => rfl
  | cons f fs ih => exact (ih _).trans (f.count_claimBinders _ id naming other)

include known

/-- The quantifiers of known formulas are over known variables. -/
theorem knows_flatMap_binders : ∀ b ∈ fs.flatMap binders, symbols.Knows b.2 := by
  -- Each quantifier stands in one of the formulas.
  intro b member
  obtain ⟨f, listed, inside⟩ := List.mem_flatMap.mp member
  exact (known f listed).binders b inside

/-- Across formulas, a variable is given out for each universal quantifier whose own is not new. -/
theorem count_renameAcross :
    (renameAcross fs symbols).2.symbols.count .var = symbols.count .var +
      ∑ x ∈ (fs.flatMap universals).toFinset, ((fs.flatMap universals).count x - 1) := by
  let start : Naming := { taken := [], symbols }
  have growth := start.count_settleAll (· == .universal) (knows_flatMap_binders known)
  rw [settleAll_claimUniversals, claimed_flatMap_binders] at growth
  have growth : (renameAcross fs symbols).2.symbols.count .var +
      (fs.flatMap universals).toFinset.card =
        symbols.count .var + (fs.flatMap universals).length := by
    -- Nothing is taken at the start.
    rwa [List.toFinset_nil, Finset.sdiff_empty] at growth
  -- Each variable counts once among those that are distinct, and as often again as it is repeated.
  have whole : (fs.flatMap universals).toFinset.card +
      ∑ x ∈ (fs.flatMap universals).toFinset, ((fs.flatMap universals).count x - 1) =
        (fs.flatMap universals).length := by
    rw [Finset.card_eq_sum_ones, ← Finset.sum_add_distrib, ← List.sum_toFinset_count_eq_length]
    refine Finset.sum_congr rfl fun x inside => ?_
    have some : 0 < (fs.flatMap universals).count x :=
      List.count_pos_iff.mpr (List.mem_toFinset.mp inside)
    omega
  omega

/-- Renaming across formulas takes variables that are bound universally more than once. -/
theorem exchange_renameAcross {r : Renaming} (listed : r ∈ (renameAcross fs symbols).2.renamings) :
    2 ≤ (fs.flatMap universals).count r.old ∧ ¬ symbols.Knows r.new := by
  -- All formulas together take their turns as the list of their quantifiers does.
  let start : Naming := { taken := [], symbols }
  have made : r ∈ (start.settleAll (· == .universal) (fs.flatMap binders)).2.renamings := by
    rw [settleAll_claimUniversals]
    exact listed
  rcases Naming.exchange_settleAll (knows_flatMap_binders known) made with none | ⟨_, cause, new⟩
  · -- Nothing has been renamed at the start.
    exact absurd none List.not_mem_nil
  · -- Nothing is taken at the start, so that the variable has been claimed twice.
    rw [claimed_flatMap_binders] at cause
    exact ⟨cause.resolve_left List.not_mem_nil, new⟩

/-- Standardizing takes variables that some formula binds, and gives none that was known. -/
theorem exchange_standardizeAll {r : Renaming} (listed : r ∈ (standardizeAll fs symbols).2.2) :
    r.old ∈ fs.flatMap boundVariables ∧ ¬ symbols.Knows r.new := by
  -- The first formula takes its turns, and the others take theirs from the table that it leaves.
  induction fs generalizing symbols with
  | nil => exact absurd listed List.not_mem_nil
  | cons f fs ih =>
    obtain ⟨here, later⟩ := List.forall_mem_cons.mp known
    have grows := f.standardize_grows symbols
    rw [List.flatMap_cons, List.mem_append]
    rcases List.mem_append.mp listed with first | rest
    · have made : r ∈ (Naming.settleAll (fun _ => true) { taken := f.freeVariables, symbols }
          f.binders).2.renamings := by
        rw [Naming.settleAll_binders _ f id]
        exact first
      rcases Naming.exchange_settleAll here.binders made with none | ⟨asked, _, new⟩
      · exact absurd none List.not_mem_nil
      · exact ⟨Or.inl (f.claimedVariables_all ▸ asked), new⟩
    · -- What was not known to the table that the first formula leaves was not known before.
      obtain ⟨old, new⟩ := ih (fun g inside => (later g inside).grows grows) rest
      exact ⟨Or.inr old, fun familiar => new (grows.knows familiar)⟩

end Across

end Formula

end ClauseForm
