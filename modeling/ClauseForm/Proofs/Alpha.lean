import ClauseForm.Proofs.Standardized

/-! Formulas that differ in their bound variables only, and walks that make such formulas. -/

namespace ClauseForm

section Replacing

/-- Putting terms in place of variables twice is putting the results in place of them once. -/
theorem Term.bind_bind (parts others : Variable → Term) (t : Term) :
    (t.bind parts).bind others = t.bind fun x => (parts x).bind others := by
  -- Replacement passes to the arguments both times.
  induction t with
  | var x => rfl
  | const c => rfl
  | app f args ih =>
    simp only [bind_app, List.map_map]
    exact congrArg (app f) (List.map_congr_left fun t listed => ih t listed)

/-- Putting every variable in its own place changes nothing. -/
theorem Term.bind_var_self (t : Term) : t.bind .var = t := by
  -- The arguments of an application are left as they are one by one.
  induction t with
  | var x => rfl
  | const c => rfl
  | app f args ih =>
    rw [bind_app]
    exact congrArg (app f) ((List.map_congr_left ih).trans (List.map_id' args))

/-- Putting terms in place of variables twice is putting the results in place of them once. -/
theorem Atom.bind_bind (parts others : Variable → Term) (a : Atom) :
    (a.bind parts).bind others = a.bind fun x => (parts x).bind others := by
  -- What holds of terms holds of the arguments of an atom.
  simp only [bind, List.map_map]
  exact congrArg (Atom.mk a.predicate) (List.map_congr_left fun t _ => t.bind_bind parts others)

/-- Putting every variable in its own place changes nothing. -/
theorem Atom.bind_var_self (a : Atom) : a.bind .var = a :=
  congrArg (Atom.mk a.predicate)
    ((List.map_congr_left fun t _ => t.bind_var_self).trans (List.map_id' a.args))

end Replacing

namespace Formula

/-- Putting a variable in its own place changes nothing. -/
theorem substitute_var_self (x : Variable) (f : Formula) : f.substitute x (.var x) = f := by
  -- Each atom is left as it is, and a quantifier over the variable keeps its scope anyway.
  induction f with
  | atom a =>
    have same : assign Term.var x (.var x) = .var := assign_self
    exact congrArg atom ((congrArg a.bind same).trans a.bind_var_self)
  | not f ih => exact congrArg not ih
  | binary op l r left right => rw [substitute, left, right]
  | quantified q y f ih => rw [substitute, ih, ite_self]

/-- A free variable other than the one replaced stays free. -/
theorem mem_free_substitute_of_ne {x z : Variable} {value : Term} {f : Formula}
    (free : z ∈ f.freeVariables) (different : z ≠ x) :
    z ∈ (f.substitute x value).freeVariables := by
  -- Only the terms put in place of the old variable are new, and only that variable goes.
  induction f with
  | atom a =>
    have kept : z ∈ (a.substitute x value).vars :=
      Atom.mem_vars_substitute.mpr (Or.inl ⟨mem_free_atom.mp free, different⟩)
    exact mem_free_atom.mpr kept
  | not f ih => exact ih free
  | binary op l r left right =>
    -- A formula joined of two has the free variables of either side.
    exact mem_free_binary.mpr ((mem_free_binary.mp free).imp left right)
  | quantified q y f ih =>
    -- The quantifier binds the same variable before and after.
    obtain ⟨inside, unbound⟩ := mem_free_quantified.mp free
    refine mem_free_quantified.mpr ⟨?_, unbound⟩
    split
    · exact inside
    · exact ih inside

/-- Formulas that turn into each other when quantifiers of the chosen kinds change variables. -/
inductive AlphaEquivalent (chosen : Quantifier → Bool) : Formula → Formula → Prop
  | refl (f : Formula) : AlphaEquivalent chosen f f
  | symm {f g : Formula} : AlphaEquivalent chosen f g → AlphaEquivalent chosen g f
  | trans {f g h : Formula} :
    AlphaEquivalent chosen f g → AlphaEquivalent chosen g h → AlphaEquivalent chosen f h
  | not {f g : Formula} : AlphaEquivalent chosen f g → AlphaEquivalent chosen (.not f) (.not g)
  | binary (op : Connective) {l l' r r' : Formula} :
    AlphaEquivalent chosen l l' → AlphaEquivalent chosen r r' →
      AlphaEquivalent chosen (.binary op l r) (.binary op l' r')
  | quantified (q : Quantifier) (x : Variable) {f g : Formula} :
    AlphaEquivalent chosen f g → AlphaEquivalent chosen (.quantified q x f) (.quantified q x g)
  -- A variable that occurs nowhere in the scope neither captures anything nor is captured.
  | renameBound {q : Quantifier} (x : Variable) {y : Variable} {f : Formula}
      (selected : chosen q = true) (unfree : y ∉ f.freeVariables)
      (unbound : y ∉ f.boundVariables) :
    AlphaEquivalent chosen (.quantified q x f) ((quantified q x f).renameBound y)

namespace AlphaEquivalent

variable {chosen : Quantifier → Bool} {f g : Formula}

/-- Formulas that differ in their bound variables only hold under the same assignments. -/
theorem equivalent (alpha : AlphaEquivalent chosen f g) : f.Equivalent g := by
  -- One case for each way to turn formulas into each other, and all assignments at once.
  intro m values
  induction alpha generalizing values with
  | refl f => exact Iff.rfl
  | symm _ ih => exact (ih values).symm
  | trans _ _ first second => exact (first values).trans (second values)
  | not _ ih => exact not_congr (ih values)
  | binary op _ _ left right => exact op.joins_congr (left values) (right values)
  | quantified q x _ ih => exact q.ranges_congr fun d => ih _
  | @renameBound q x y f _ unfree unbound =>
    -- The new variable has the value that the old one had, and no other one is affected.
    refine q.ranges_congr fun d => ?_
    have apart : ∀ z ∈ (Term.var y).vars, z ∉ f.boundVariables := by simpa using unbound
    rw [holds_substitute apart, Term.value_var, assign_same]
    refine holds_congr fun z free => ?_
    -- A free variable is the old one, or it keeps its value because it is not the new one.
    by_cases same : z = x
    · rw [same, assign_same, assign_same]
    · have other : z ≠ y := fun taken => unfree (taken ▸ free)
      rw [assign_of_ne same, assign_of_ne same, assign_of_ne other]

/-- Formulas that differ in their bound variables only have the same free variables. -/
theorem free (alpha : AlphaEquivalent chosen f g) {z : Variable} :
    z ∈ f.freeVariables ↔ z ∈ g.freeVariables := by
  -- Only a change of variables needs an argument. The other steps pass the question on.
  induction alpha with
  | refl f => exact Iff.rfl
  | symm _ ih => exact ih.symm
  | trans _ _ first second => exact first.trans second
  | not _ ih => exact ih
  | binary op _ _ left right => rw [mem_free_binary, mem_free_binary, left, right]
  | quantified q x _ ih => rw [mem_free_quantified, mem_free_quantified, ih]
  | renameBound x _ unfree _ =>
    rw [Formula.renameBound, mem_free_quantified, mem_free_quantified]
    constructor
    · rintro ⟨free, different⟩
      exact ⟨mem_free_substitute_of_ne free different, fun taken => unfree (taken ▸ free)⟩
    · rintro ⟨free, other⟩
      -- The new variable is bound, and so only the others are left.
      refine (mem_free_substitute free).resolve_right fun new => ?_
      exact other (List.mem_singleton.mp new)

end AlphaEquivalent

section Walk

variable (claims : Quantifier → Bool) {q : Quantifier} {x y : Variable} {f : Formula}
  {naming : Naming}

/-- A walk renames a variable put in place of another one in both of their places. -/
theorem claimBinders_substitute (unbound : y ∉ f.boundVariables) (names : Variable → Variable)
    (naming : Naming) :
    (f.substitute x (.var y)).claimBinders claims names naming =
      f.claimBinders claims (assign names x (names y)) naming := by
  -- What the variable in place is renamed to is what the other one is renamed to.
  induction f generalizing names naming with
  | atom a =>
    -- Both times each variable of the atom is replaced by the same one.
    have parts : (fun z => (assign Term.var x (.var y) z).bind fun w => .var (names w)) =
        fun z => Term.var (assign names x (names y) z) := by
      funext z
      simp only [assign]
      split <;> rfl
    have same : (a.substitute x (.var y)).rename names = a.rename (assign names x (names y)) :=
      (a.bind_bind _ _).trans (congrArg a.bind parts)
    rw [substitute, claimBinders, same, claimBinders]
  | not f ih => rw [substitute, claimBinders, ih unbound, claimBinders]
  | binary op l r left right =>
    rw [bound_binary, List.mem_append, not_or] at unbound
    rw [substitute, claimBinders_binary, left unbound.1, right unbound.2, claimBinders_binary]
  | quantified p z f ih =>
    rw [bound_quantified, List.mem_cons, not_or] at unbound
    -- The new variable is bound nowhere, so that no quantifier on the way renames it.
    rw [substitute, claimBinders_quantified, claimBinders_quantified]
    by_cases same : z = x
    · -- The quantifier binds the variable itself, which keeps the replacement out.
      rw [if_pos same, same, assign_assign_same]
    · rw [if_neg same, ih unbound.2, assign_of_ne unbound.1, assign_comm same]

/-- The variable that a quantifier settles on is its own, or does not occur in a known scope. -/
theorem settle_unbound (known : (quantified q x f).Known naming.symbols) :
    (naming.settle claims q x).1 = x ∨
      claims q = true ∧ (naming.settle claims q x).1 ∉ f.freeVariables ∧
        (naming.settle claims q x).1 ∉ f.boundVariables := by
  -- A new variable is unknown to the table from which all symbols of the scope come.
  rcases naming.settle_variable claims q x with kept | new
  · exact Or.inl kept
  · -- A new variable can be neither free nor bound there, as both are known.
    refine Or.inr ⟨?_, fun free => new.1 (known.2.free _ free), fun bound => ?_⟩
    · by_contra unclaimed
      rw [Naming.settle, if_neg unclaimed] at new
      exact new.1 known.1
    · obtain ⟨b, member, same⟩ := List.mem_map.mp bound
      exact new.1 (same ▸ known.2.binders b member)

/-- A quantifier changes its variable throughout its scope before the walk goes on there. -/
theorem claimBinders_quantified_id (known : (quantified q x f).Known naming.symbols) :
    (quantified q x f).claimBinders claims id naming =
      (.quantified q (naming.settle claims q x).1
        ((f.substitute x (.var (naming.settle claims q x).1)).claimBinders claims id
          (naming.settle claims q x).2).1,
        ((f.substitute x (.var (naming.settle claims q x).1)).claimBinders claims id
          (naming.settle claims q x).2).2) := by
  -- It does not matter whether the variable is put in place before or on the way.
  have same : (f.substitute x (.var (naming.settle claims q x).1)).claimBinders claims id
      (naming.settle claims q x).2 =
        f.claimBinders claims (assign id x (naming.settle claims q x).1)
          (naming.settle claims q x).2 := by
    -- A variable that is kept needs no replacement, and a new one captures nothing.
    rcases settle_unbound claims known with kept | ⟨_, _, unbound⟩
    · have unchanged : assign id x x = id := assign_self
      rw [kept, substitute_var_self, unchanged]
    · exact claimBinders_substitute claims unbound id _
  rw [claimBinders_quantified, same]

/-- A walk that starts without renamings only changes variables that quantifiers claim. -/
theorem alphaEquivalent_claimBinders {f : Formula} {naming : Naming}
    (known : f.Known naming.symbols) :
    AlphaEquivalent claims f (f.claimBinders claims id naming).1 := by
  -- A scope in which the variable has been changed is as large as before.
  induction nodes : f.size using Nat.strong_induction_on generalizing f naming with
  | _ n ih =>
    subst nodes
    cases f with
    | atom a =>
      -- Nothing has been renamed on the way to an atom outside of all quantifiers.
      have same : a.rename id = a := a.bind_var_self
      rw [claimBinders, same]
      exact .refl _
    | not f => exact .not (ih _ (by simp [size]) known rfl)
    | binary op l r =>
      -- The right side is known to the table that the left side leaves.
      have grows := l.claimBinders_grows claims id naming
      have left : l.size < (binary op l r).size := by simp only [size]; omega
      have right : r.size < (binary op l r).size := by simp only [size]; omega
      exact .binary op (ih _ left known.1 rfl) (ih _ right (known.2.grows grows) rfl)
    | quantified q x f =>
      -- The quantifier changes its variable throughout the scope, and the walk goes on there.
      rw [claimBinders_quantified_id claims known]
      have grows := naming.settle_grows claims q x
      rcases settle_unbound claims known with kept | ⟨selected, unfree, unbound⟩
      · rw [kept, substitute_var_self]
        exact .quantified q x (ih _ (by simp [size]) (known.2.grows grows) rfl)
      -- The scope stays known, whether the variable is an old one or has been given out.
      · have new : (naming.settle claims q x).2.symbols.Knows (naming.settle claims q x).1 := by
          rcases naming.settle_variable claims q x with kept | new
          · exact kept.symm ▸ grows.knows known.1
          · exact new.2
        refine .trans (.renameBound x selected unfree unbound) (.quantified q _ ?_)
        exact ih _ (by simp [size]) ((known.2.grows grows).substitute new) rfl

end Walk

end Formula

end ClauseForm
